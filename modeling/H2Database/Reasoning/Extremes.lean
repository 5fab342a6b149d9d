import Mathlib.Order.Lattice
import Mathlib.Data.Int.Order.Basic

/-!
# The best of a list

A fold that keeps the better of two elements ends with one of the least rank.  Two such folds, over
elements of different types that have the same ranks, end with the same rank.
-/

namespace H2Database.Reasoning

open List

variable {α β : Type}

def keepBetter (better : α → α → Bool) (best x : α) : α := if better x best then x else best

def bestOf (better : α → α → Bool) (best : α) (l : List α) : α := l.foldl (keepBetter better) best

@[simp] theorem bestOf_cons (better : α → α → Bool) (best x : α) (l : List α) :
    bestOf better best (x :: l) = bestOf better (keepBetter better best x) l := rfl

/-- `better` compares the ranks of the elements. -/
def Ranks (rank : α → Int) (better : α → α → Bool) (l : List α) : Prop :=
  ∀ x ∈ l, ∀ y ∈ l, better x y = true ↔ rank x < rank y

theorem keepBetter_or (better : α → α → Bool) (best x : α) :
    keepBetter better best x = x ∨ keepBetter better best x = best := by
  unfold keepBetter
  split_ifs
  · exact .inl rfl
  · exact .inr rfl

variable {better : α → α → Bool}

theorem bestOf_spec {rank : α → Int} (l : List α) (best : α) (h : Ranks rank better (best :: l)) :
    bestOf better best l ∈ best :: l ∧ ∀ x ∈ best :: l, rank (bestOf better best l) ≤ rank x := by
  induction l generalizing best with
  | nil =>
    refine ⟨mem_cons_self, fun x hx => ?_⟩
    rw [mem_singleton.mp hx]
    exact le_refl _
  | cons y l ih =>
    have hkept : ∀ x ∈ keepBetter better best y :: l, x ∈ best :: y :: l := by
      intro x hx
      rcases mem_cons.mp hx with rfl | hin
      · rcases keepBetter_or better best y with heq | heq <;> rw [heq] <;> simp
      · exact mem_cons_of_mem _ (mem_cons_of_mem _ hin)
    have hrank : rank (keepBetter better best y) ≤ rank best ∧ rank (keepBetter better best y) ≤ rank y := by
      have hby := h y (by simp) best (by simp)
      unfold keepBetter
      split_ifs with hb
      · exact ⟨le_of_lt (hby.mp hb), le_refl _⟩
      · exact ⟨le_refl _, not_lt.mp fun hlt => hb (hby.mpr hlt)⟩
    obtain ⟨hmem, hleast⟩ := ih (keepBetter better best y) fun x hx z hz =>
      h x (hkept x hx) z (hkept z hz)
    rw [bestOf_cons]
    refine ⟨hkept _ hmem, fun x hx => ?_⟩
    have hhead := hleast _ mem_cons_self
    rcases mem_cons.mp hx with rfl | hx
    · exact le_trans hhead hrank.1
    rcases mem_cons.mp hx with rfl | hx
    · exact le_trans hhead hrank.2
    · exact hleast x (mem_cons_of_mem _ hx)

variable {better' : β → β → Bool}

theorem map_bestOf {f : α → β} (l : List α) (best : α)
    (h : ∀ x ∈ best :: l, ∀ y ∈ best :: l, better x y = better' (f x) (f y)) :
    f (bestOf better best l) = bestOf better' (f best) (l.map f) := by
  induction l generalizing best with
  | nil => rfl
  | cons y l ih =>
    have hhead : f (keepBetter better best y) = keepBetter better' (f best) (f y) := by
      rw [keepBetter, keepBetter, h y (by simp) best (by simp)]
      exact apply_ite f _ _ _
    rw [bestOf_cons, map_cons, bestOf_cons, ← hhead]
    refine ih _ fun x hx z hz => h x ?_ z ?_
    · rcases mem_cons.mp hx with rfl | hx
      · rcases keepBetter_or better best y with heq | heq <;> rw [heq] <;> simp
      · exact mem_cons_of_mem _ (mem_cons_of_mem _ hx)
    · rcases mem_cons.mp hz with rfl | hz
      · rcases keepBetter_or better best y with heq | heq <;> rw [heq] <;> simp
      · exact mem_cons_of_mem _ (mem_cons_of_mem _ hz)

theorem bestOf_mem (better : α → α → Bool) (l : List α) (best : α) : bestOf better best l ∈ best :: l := by
  induction l generalizing best with
  | nil => exact mem_cons_self
  | cons y l ih =>
    rw [bestOf_cons]
    rcases mem_cons.mp (ih (keepBetter better best y)) with heq | hin
    · rw [heq]
      rcases keepBetter_or better best y with heq | heq <;> rw [heq] <;> simp
    · exact mem_cons_of_mem _ (mem_cons_of_mem _ hin)

theorem rank_bestOf_eq {rank : α → Int} {rank' : β → Int} {worst : α} {l : List α} {best : β} {l' : List β}
    (h : Ranks rank better (worst :: l)) (h' : Ranks rank' better' (best :: l'))
    (hworst : ∀ x ∈ l, rank x ≤ rank worst) (hto : ∀ x ∈ l, ∃ y ∈ best :: l', rank' y = rank x)
    (hfrom : ∀ y ∈ best :: l', ∃ x ∈ l, rank x = rank' y) :
    rank (bestOf better worst l) = rank' (bestOf better' best l') := by
  obtain ⟨hmem, hleast⟩ := bestOf_spec l worst h
  obtain ⟨hmem', hleast'⟩ := bestOf_spec l' best h'
  apply le_antisymm
  · obtain ⟨x, hx, heq⟩ := hfrom _ hmem'
    exact heq ▸ hleast x (mem_cons_of_mem _ hx)
  · rcases mem_cons.mp hmem with heq | hin
    · -- nothing was better than the worst
      obtain ⟨x, hx, hrank⟩ := hfrom _ hmem'
      rw [heq, ← hrank]
      exact hworst x hx
    · obtain ⟨y, hy, heq⟩ := hto _ hin
      exact heq ▸ hleast' y hy

end H2Database.Reasoning
