import H2Database.Sql.Statement

/-!
# Sessions (`h2-sql/src/executor/mod.rs`)

Statements one after the other, in transactions of their own or between `BEGIN` and `COMMIT`.  A
statement that fails in its own transaction is rolled back; in an explicit one what it has written stays.
-/

namespace H2Database.Sql

open Reasoning Mvstore List

/-- `saved` is the view the open transaction began with; `result` is how the last statement ended. -/
structure Session where
  view : View
  counters : Counters
  saved : View
  explicit : Bool
  tasks : List Task
  result : H2Result Unit

inductive Action where
  | execute (s : Statement)
  | advance
  | begin
  | commit
  | rollback

namespace Session

def new (counters : Counters) : Session := ⟨.empty, counters, .empty, false, [], .ok ()⟩

def idle (s : Session) : Bool := s.tasks.isEmpty

theorem idle_iff {s : Session} : s.idle = true ↔ s.tasks = [] := isEmpty_iff

variable [Crates]

/-- A task is done, and `rest` is left of the stack under it. -/
def proceed (s : Session) (o : Outcome) (rest : List Task) : Session :=
  match o.result with
  | .error e => { s with
      view := if s.explicit then o.view else s.saved
      counters := o.counters
      tasks := []
      result := .error e }
  | .ok more => { s with
      view := o.view
      counters := o.counters
      -- the last task of a statement in its own transaction commits it
      saved := if (more ++ rest).isEmpty && !s.explicit then o.view else s.saved
      tasks := more ++ rest
      result := .ok () }

def step (cat : Catalog) (s : Session) : Action → Session
  | .execute st =>
    if s.idle then s.proceed ⟨s.view, s.counters, st.start cat s.view.seen⟩ [] else s
  | .advance =>
    match s.tasks with
    | [] => s
    | task :: rest => s.proceed (task.run cat s.view s.counters) rest
  | .begin => if s.idle && !s.explicit then { s with explicit := true, saved := s.view } else s
  | .commit => if s.idle && s.explicit then { s with explicit := false, saved := s.view } else s
  | .rollback =>
    if s.idle && s.explicit then { s with explicit := false, view := s.saved } else s

/-! ## Invariants of sessions -/

/-- What is visible, and what a rollback goes back to, has `V`; the tasks that are left have `T`. -/
structure Holds (V : View → Prop) (T : Task → Prop) (s : Session) : Prop where
  view : V s.view
  saved : V s.saved
  tasks : ∀ task ∈ s.tasks, T task

variable {V : View → Prop} {T : Task → Prop} {s : Session} {cat : Catalog}

omit [Crates] in
theorem holds_new (h : V .empty) (counters : Counters) : (new counters).Holds V T :=
  ⟨h, h, fun _ htask => absurd htask not_mem_nil⟩

omit [Crates] in
theorem Holds.proceed (h : s.Holds V T) {o : Outcome} {rest : List Task}
    (hview : (s.explicit = false → ∃ more, o.result = .ok more) → V o.view)
    (hmore : ∀ more, o.result = .ok more → ∀ task ∈ more, T task)
    (hrest : ∀ task ∈ rest, T task) : (s.proceed o rest).Holds V T := by
  unfold Session.proceed
  split
  · rename_i e herr
    refine ⟨?_, h.saved, fun task htask => absurd htask not_mem_nil⟩
    dsimp only
    split_ifs with hexplicit
    · exact hview fun hauto => by rw [hexplicit] at hauto; cases hauto
    · exact h.saved
  · rename_i more hok
    have hV : V o.view := hview fun _ => ⟨more, hok⟩
    refine ⟨hV, ?_, forall_mem_append.mpr ⟨hmore more hok, hrest⟩⟩
    dsimp only
    split_ifs
    · exact hV
    · exact h.saved

/-- A step keeps what the start of a statement and the task on top keep.  Where a task fails outside of
an explicit transaction its view is given up. -/
theorem Holds.step (h : s.Holds V T) {a : Action}
    (hstart : ∀ st more, a = .execute st → st.start cat s.view.seen = .ok more → ∀ task ∈ more, T task)
    (hview : ∀ task rest, a = .advance → s.tasks = task :: rest →
      (s.explicit = false → ∃ more, (task.run cat s.view s.counters).result = .ok more) →
        V (task.run cat s.view s.counters).view)
    (hmore : ∀ task rest more, a = .advance → s.tasks = task :: rest →
      (task.run cat s.view s.counters).result = .ok more → ∀ task ∈ more, T task) :
    (s.step cat a).Holds V T := by
  cases a with
  | execute st =>
    unfold Session.step
    dsimp only
    split_ifs
    · exact h.proceed (fun _ => h.view) (fun more hok => hstart st more rfl hok)
        fun task htask => absurd htask not_mem_nil
    · exact h
  | advance =>
    unfold Session.step
    dsimp only
    cases htasks : s.tasks with
    | nil => exact h
    | cons task rest =>
      refine h.proceed (hview task rest rfl htasks) (fun more hok => hmore task rest more rfl htasks hok) ?_
      intro task' htask'
      exact h.tasks task' (htasks ▸ mem_cons_of_mem _ htask')
  | begin =>
    unfold Session.step
    dsimp only
    split_ifs
    · exact ⟨h.view, h.view, h.tasks⟩
    · exact h
  | commit =>
    unfold Session.step
    dsimp only
    split_ifs
    · exact ⟨h.view, h.view, h.tasks⟩
    · exact h
  | rollback =>
    unfold Session.step
    dsimp only
    split_ifs
    · exact ⟨h.saved, h.saved, h.tasks⟩
    · exact h

end Session

end H2Database.Sql
