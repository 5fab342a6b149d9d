import Mathlib.Data.List.Sort

/-!
# Lists in increasing order of a key

Sorting by the key brings any reordering of such a list back to it, and the sublists of it that are
prefixes are those that leave nothing out before an element they keep.
-/

namespace H2Database.Reasoning

open List Nat

variable {α : Type} {key : α → Nat} {xs ys : List α}

def Increasing (key : α → Nat) (xs : List α) : Prop := xs.Pairwise fun a b => key a < key b

theorem pairwise_mergeSort_key (key : α → Nat) (xs : List α) :
    (xs.mergeSort fun a b => decide (key a ≤ key b)).Pairwise fun a b => key a ≤ key b := by
  have h := @pairwise_mergeSort α (fun a b => decide (key a ≤ key b))
    (by intro a b c; simp only [decide_eq_true_eq]; exact le_trans)
    (by intro a b; simp only [Bool.or_eq_true, decide_eq_true_eq]; exact le_total _ _) xs
  exact h.imp of_decide_eq_true

theorem Increasing.eq_of_key (h : Increasing key xs) {a b : α} (ha : a ∈ xs) (hb : b ∈ xs)
    (hkey : key a = key b) : a = b := by
  induction xs with
  | nil => cases ha
  | cons x xs ih =>
    have hx := (pairwise_cons.mp h).1
    rcases mem_cons.mp ha with rfl | ha'
    · rcases mem_cons.mp hb with rfl | hb'
      · rfl
      · have := hx b hb'
        omega
    · rcases mem_cons.mp hb with rfl | hb'
      · have := hx a ha'
        omega
      · exact ih h.of_cons ha' hb'

theorem Increasing.mergeSort_eq (h : Increasing key ys) (hperm : xs.Perm ys) :
    (xs.mergeSort fun a b => decide (key a ≤ key b)) = ys := by
  have hsorted := (mergeSort_perm xs fun a b => decide (key a ≤ key b)).trans hperm
  refine List.Perm.eq_of_pairwise ?_ (pairwise_mergeSort_key key xs)
    (h.imp fun hlt => le_of_lt hlt) hsorted
  intro a b ha hb hle hge
  exact h.eq_of_key (hsorted.subset ha) hb (le_antisymm hle hge)

theorem Increasing.takeWhile_le (h : Increasing key xs) (bound : Nat) :
    (xs.takeWhile fun a => decide (key a ≤ bound)) = xs.filter fun a => decide (key a ≤ bound) := by
  induction xs with
  | nil => rfl
  | cons x xs ih =>
    by_cases hx : key x ≤ bound
    · rw [takeWhile_cons_of_pos (by simpa using hx), filter_cons_of_pos (by simpa using hx),
        ih h.of_cons]
    · -- behind an element over the bound all are over it
      have hnone : (xs.filter fun a => decide (key a ≤ bound)) = [] := by
        refine filter_eq_nil_iff.mpr fun a ha hle => ?_
        have := (pairwise_cons.mp h).1 a ha
        have := of_decide_eq_true hle
        omega
      rw [takeWhile_cons_of_neg (by simpa using hx), filter_cons_of_neg (by simpa using hx),
        hnone]

theorem Increasing.isPrefix_iff (hx : Increasing key xs) (hy : Increasing key ys) (hsub : xs ⊆ ys) :
    xs <+: ys ↔ ∀ y ∈ ys, y ∉ xs → ∀ x ∈ xs, key x < key y := by
  induction ys generalizing xs with
  | nil => simp [subset_nil.mp hsub]
  | cons y ys ih =>
    have hlt := (pairwise_cons.mp hy).1
    cases xs with
    | nil => simp
    | cons x xs =>
      have hxlt := (pairwise_cons.mp hx).1
      -- the tails: no later element of `xs` can be the head `y`
      have htail : x = y → xs ⊆ ys := by
        rintro rfl a ha
        rcases mem_cons.mp (hsub (mem_cons_of_mem _ ha)) with rfl | h
        · exact absurd (hxlt _ ha) (lt_irrefl _)
        · exact h
      rw [cons_prefix_cons]
      constructor
      · rintro ⟨rfl, hpre⟩ b hb hnot a ha
        have hbys : b ∈ ys := (mem_cons.mp hb).resolve_left fun h => hnot (h ▸ mem_cons_self)
        have hkeep := (ih hx.of_cons hy.of_cons (htail rfl)).mp hpre b hbys
          fun h => hnot (mem_cons_of_mem _ h)
        rcases mem_cons.mp ha with rfl | ha'
        · exact hlt b hbys
        · exact hkeep a ha'
      · intro h
        -- the head is kept: were it left out, the kept `x` would have to come before it
        have heq : x = y := by
          by_contra hne
          have hxys := (mem_cons.mp (hsub mem_cons_self)).resolve_left hne
          have hnot : y ∉ x :: xs := by
            intro hy'
            rcases mem_cons.mp hy' with h' | h'
            · exact hne h'.symm
            · exact absurd (hxlt y h') (lt_asymm (hlt x hxys))
          exact absurd (h y mem_cons_self hnot x mem_cons_self) (lt_asymm (hlt x hxys))
        refine ⟨heq, (ih hx.of_cons hy.of_cons (htail heq)).mpr fun b hb hnot a ha => ?_⟩
        refine h b (mem_cons_of_mem _ hb) (fun hb' => ?_) a (mem_cons_of_mem _ ha)
        rcases mem_cons.mp hb' with rfl | hb''
        · exact absurd (hlt _ hb) (heq ▸ lt_irrefl _)
        · exact hnot hb''

end H2Database.Reasoning
