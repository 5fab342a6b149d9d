/-!
# Stacks of tasks

A task is done on a state.  It leaves a state, and tasks that are put on the stack, or it ends everything.
Whether a stack is ever emptied is decided task by task: a task passes if those that it puts on the stack
pass, and a stack in which something is always left to do is never emptied.
-/

namespace H2Database.Reasoning

variable {σ τ : Type}

/-- The stack is emptied, or a task ends everything, after finitely many tasks. -/
inductive Ends (run : σ → τ → Option (σ × List τ)) : σ → List τ → Prop
  | nil (s : σ) : Ends run s []
  | stop {s : σ} {t : τ} {rest : List τ} (h : run s t = none) : Ends run s (t :: rest)
  | step {s s' : σ} {t : τ} {more rest : List τ} (h : run s t = some (s', more))
      (hends : Ends run s' (more ++ rest)) : Ends run s (t :: rest)

/-- Whatever is under them on the stack, the tasks come to an end, and leave a state of the kind. -/
def Passes (run : σ → τ → Option (σ × List τ)) (inv : σ → Prop) (ts : List τ) : Prop :=
  ∀ s rest, inv s → (∀ s', inv s' → Ends run s' rest) → Ends run s (ts ++ rest)

variable {run : σ → τ → Option (σ × List τ)} {inv : σ → Prop} {ts : List τ}

theorem Passes.ends (h : Passes run inv ts) {s : σ} (hs : inv s) : Ends run s ts := by
  have hends := h s [] hs fun s' _ => .nil s'
  rwa [List.append_nil] at hends

theorem passes_nil : Passes run inv [] := fun s _ hs hrest => hrest s hs

theorem passes_of_forall (h : ∀ t ∈ ts, Passes run inv [t]) : Passes run inv ts := by
  induction ts with
  | nil => exact passes_nil
  | cons t ts ih =>
    intro s rest hs hrest
    apply h t List.mem_cons_self s (ts ++ rest) hs
    intro s' hs'
    exact ih (fun t' ht' => h t' (List.mem_cons_of_mem _ ht')) s' rest hs' hrest

theorem passes_of_run {t : τ}
    (h : ∀ s s' more, inv s → run s t = some (s', more) → inv s' ∧ Passes run inv more) :
    Passes run inv [t] := by
  intro s rest hs hrest
  cases hrun : run s t with
  | none => exact .stop hrun
  | some result =>
    obtain ⟨hs', hmore⟩ := h s result.1 result.2 hs hrun
    exact .step hrun (hmore result.1 rest hs' hrest)

theorem not_ends (endless : σ → List τ → Prop) (hnil : ∀ s, ¬endless s [])
    (hstep : ∀ s t rest, endless s (t :: rest) →
      ∃ s' more, run s t = some (s', more) ∧ endless s' (more ++ rest)) {s : σ} (h : endless s ts) :
    ¬Ends run s ts := by
  intro hends
  induction hends with
  | nil s => exact hnil s h
  | stop hstop =>
    obtain ⟨s', more, hrun, _⟩ := hstep _ _ _ h
    rw [hstop] at hrun
    cases hrun
  | step hrun _ ih =>
    obtain ⟨s', more, hrun', h'⟩ := hstep _ _ _ h
    rw [hrun] at hrun'
    cases hrun'
    exact ih h'

end H2Database.Reasoning
