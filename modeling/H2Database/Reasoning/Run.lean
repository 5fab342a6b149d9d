import Mathlib.Data.List.Basic

/-!
# Runs of a step function

A run is a list of actions carried out from a start state.  `Meets good s as` says that every step of
the run meets the condition `good`, read in the state before it; an invariant that such steps keep
holds at the end.
-/

namespace H2Database.Reasoning

open List

variable {σ α : Type} (step : σ → α → σ)

def runs (s : σ) (as : List α) : σ := as.foldl step s

/-- Every step of the run meets `good`. -/
def Meets (good : σ → α → Prop) : σ → List α → Prop
  | _, [] => True
  | s, a :: as => good s a ∧ Meets good (step s a) as

variable {step} {good : σ → α → Prop}

@[simp] theorem runs_nil (s : σ) : runs step s [] = s := rfl

@[simp] theorem runs_cons (s : σ) (a : α) (as : List α) :
    runs step s (a :: as) = runs step (step s a) as := rfl

instance Meets.decidable [∀ s a, Decidable (good s a)] :
    ∀ (s : σ) (as : List α), Decidable (Meets step good s as)
  | _, [] => isTrue trivial
  | s, a :: as => @instDecidableAnd _ _ _ (Meets.decidable (step s a) as)

theorem runs_append (s : σ) (as bs : List α) :
    runs step s (as ++ bs) = runs step (runs step s as) bs :=
  foldl_append

variable {good' : σ → α → Prop} {as : List α}

theorem Meets.imp (h : ∀ s a, good s a → good' s a) {s : σ}
    (hm : Meets step good s as) : Meets step good' s as := by
  induction as generalizing s with
  | nil => trivial
  | cons a as ih => exact ⟨h s a hm.1, ih hm.2⟩

theorem meets_and {s : σ} :
    Meets step (fun s a => good s a ∧ good' s a) s as ↔ Meets step good s as ∧ Meets step good' s as := by
  induction as generalizing s with
  | nil => exact iff_of_true trivial ⟨trivial, trivial⟩
  | cons a as ih => rw [Meets, Meets, Meets, ih, and_and_and_comm]

theorem meets_append {s : σ} {as bs : List α} :
    Meets step good s (as ++ bs) ↔ Meets step good s as ∧ Meets step good (runs step s as) bs := by
  induction as generalizing s with
  | nil => exact ⟨fun h => ⟨trivial, h⟩, And.right⟩
  | cons a as ih => rw [cons_append, Meets, Meets, ih, runs_cons, and_assoc]

theorem Meets.and_mem {p : α → Prop} {s : σ} (hm : Meets step good s as)
    (hp : ∀ a ∈ as, p a) : Meets step (fun s a => p a ∧ good s a) s as := by
  induction as generalizing s with
  | nil => trivial
  | cons a as ih =>
    exact ⟨⟨hp a mem_cons_self, hm.1⟩, ih hm.2 fun b hb => hp b (mem_cons_of_mem _ hb)⟩

theorem invariant_runs {inv : σ → Prop} (hstep : ∀ s a, inv s → good s a → inv (step s a)) {s : σ}
    (hinv : inv s) (hm : Meets step good s as) : inv (runs step s as) := by
  induction as generalizing s with
  | nil => exact hinv
  | cons a as ih => exact ih (hstep s a hinv hm.1) hm.2

theorem runs_invariant {inv : σ → Prop} (hstep : ∀ s a, inv s → inv (step s a)) {s : σ}
    (hinv : inv s) (as : List α) : inv (runs step s as) := by
  induction as generalizing s with
  | nil => exact hinv
  | cons a as ih => exact ih (hstep s a hinv)

/-- Among the runs whose steps are all as assumed, the good ones are those with `P` in every state, where
a good step keeps an invariant that gives `P`, and a step to a state with `P` is good. -/
theorem meets_and_iff {assumed : σ → α → Prop} {inv P : σ → Prop}
    (hstep : ∀ s a, inv s → assumed s a → good s a → inv (step s a)) (hinv : ∀ s, inv s → P s)
    (hgood : ∀ s a, inv s → assumed s a → P (step s a) → good s a) {s : σ} (hs : inv s) (as : List α) :
    Meets step (fun s a => assumed s a ∧ good s a) s as ↔
      Meets step assumed s as ∧ ∀ before, before <+: as → P (runs step s before) := by
  induction as generalizing s with
  | nil =>
    refine iff_of_true trivial ⟨trivial, fun before hpre => ?_⟩
    rw [prefix_nil.mp hpre]
    exact hinv s hs
  | cons a as ih =>
    constructor
    · rintro ⟨⟨hassumed, ha⟩, hmeets⟩
      obtain ⟨hrest, hP⟩ := (ih (hstep s a hs hassumed ha)).mp hmeets
      refine ⟨⟨hassumed, hrest⟩, fun before hpre => ?_⟩
      cases before with
      | nil => exact hinv s hs
      | cons b before =>
        obtain ⟨rfl, hrestpre⟩ := cons_prefix_cons.mp hpre
        exact hP before hrestpre
    · rintro ⟨⟨hassumed, hrest⟩, hP⟩
      have ha : good s a := hgood s a hs hassumed (hP [a] ⟨as, rfl⟩)
      refine ⟨⟨hassumed, ha⟩, (ih (hstep s a hs hassumed ha)).mpr ⟨hrest, fun before hpre => ?_⟩⟩
      exact hP (a :: before) (cons_prefix_cons.mpr ⟨rfl, hpre⟩)

theorem meets_of_forall {s : σ} (h : ∀ s a, good s a) (as : List α) : Meets step good s as := by
  induction as generalizing s with
  | nil => trivial
  | cons a as ih => exact ⟨h s a, ih⟩

theorem meets_iff_meets {inv : σ → Prop}
    (hstep : ∀ s a, inv s → good s a → inv (step s a)) (hiff : ∀ s a, inv s → (good' s a ↔ good s a))
    {s : σ} (hs : inv s) (as : List α) : Meets step good' s as ↔ Meets step good s as := by
  induction as generalizing s with
  | nil => exact Iff.rfl
  | cons a as ih =>
    constructor
    · intro h
      have ha : good s a := (hiff s a hs).mp h.1
      exact ⟨ha, (ih (hstep s a hs ha)).mp h.2⟩
    · intro h
      exact ⟨(hiff s a hs).mpr h.1, (ih (hstep s a hs h.1)).mpr h.2⟩

theorem forall_prefix_iff_meets {inv P : σ → Prop}
    (hstep : ∀ s a, inv s → good s a → inv (step s a)) (hinv : ∀ s, inv s → P s)
    (hgood : ∀ s a, inv s → P (step s a) → good s a) {s : σ} (hs : inv s) (as : List α) :
    (∀ before, before <+: as → P (runs step s before)) ↔ Meets step good s as := by
  have hiff := @meets_and_iff σ α step good (fun _ _ => True) inv P (fun s a h _ => hstep s a h) hinv
    (fun s a h _ => hgood s a h) s hs as
  constructor
  · intro hP
    exact (hiff.mpr ⟨meets_of_forall (fun _ _ => trivial) as, hP⟩).imp fun _ _ h => h.2
  · intro hmeets
    exact (hiff.mp (hmeets.imp fun _ _ h => ⟨trivial, h⟩)).2

theorem foldlM_invariant {ε : Type} {f : σ → α → Except ε σ} {inv : σ → Prop}
    (hf : ∀ s a s', inv s → f s a = .ok s' → inv s') {s s' : σ} (hs : inv s)
    (hrun : as.foldlM f s = .ok s') : inv s' := by
  induction as generalizing s with
  | nil =>
    cases hrun
    exact hs
  | cons a as ih =>
    rw [foldlM_cons] at hrun
    cases hstep : f s a with
    | error e =>
      rw [hstep] at hrun
      cases hrun
    | ok s₁ =>
      rw [hstep] at hrun
      exact ih (hf s a s₁ hs hstep) hrun

end H2Database.Reasoning
