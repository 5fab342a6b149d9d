import H2Database.Sql.Careful
import H2Database.Sql.RowWrites

/-!
# Statements that fail

A transaction is undone as a whole.  A statement that fails in a transaction of its own leaves nothing; one
that fails between `BEGIN` and `COMMIT` leaves what its rows, entries and cascades have written by then,
until `ROLLBACK` goes back to the view of `BEGIN`.
-/

namespace H2Database.Sql

open Reasoning Mvstore List

section

variable [Crates] {cat : Catalog}

namespace Session

/-- What the next `n` tasks write, as far as they come. -/
def tasksWrites (cat : Catalog) : Nat → View → Counters → List Task → List Write
  | 0, _, _, _ => []
  | _, _, _, [] => []
  | n + 1, view, counters, task :: rest =>
    let o := task.run cat view counters
    task.writes cat view counters ++
      match o.result with
      | .error _ => []
      | .ok more => tasksWrites cat n o.view o.counters (more ++ rest)

/-- What a statement writes with its first `n` tasks. -/
def statementWrites (cat : Catalog) (s : Session) (st : Statement) (n : Nat) : List Write :=
  match st.start cat s.view.seen with
  | .error _ => []
  | .ok tasks => tasksWrites cat n s.view s.counters tasks

/-- A statement that fails in a transaction of its own goes back to where the transaction began. -/
def failedView (s : Session) (view : View) : View := if s.explicit then view else s.saved

structure Failed (s t : Session) (writes : List Write) : Prop where
  view : t.view = s.failedView (s.view.writeAll writes)
  saved : t.saved = s.saved
  explicit : t.explicit = s.explicit
  tasks : t.tasks = []

variable {s : Session}

omit [Crates] in
theorem proceed_error {o : Outcome} {rest : List Task} {e : H2Error} (h : o.result = .error e) :
    s.proceed o rest = { s with
      view := s.failedView o.view, counters := o.counters, tasks := [], result := .error e } := by
  rw [proceed, h]
  rfl

theorem runs_advance_idle (h : s.tasks = []) (n : Nat) :
    runs (Session.step cat) s (List.replicate n .advance) = s := by
  induction n with
  | zero => rfl
  | succ n ih =>
    have hstep : s.step cat .advance = s := by
      rw [step, h]
    rw [replicate_succ, runs_cons, hstep, ih]

theorem failed_tasks (n : Nat) (hok : s.result = .ok ())
    (h : ∃ e, (runs (Session.step cat) s (List.replicate n .advance)).result = .error e) :
    Failed s (runs (Session.step cat) s (List.replicate n .advance))
      (tasksWrites cat n s.view s.counters s.tasks) := by
  induction n generalizing s with
  | zero =>
    obtain ⟨e, he⟩ := h
    cases hok.symm.trans he
  | succ n ih =>
    rw [replicate_succ, runs_cons] at h ⊢
    cases htasks : s.tasks with
    | nil =>
      have hstep : s.step cat .advance = s := by
        rw [step, htasks]
      rw [hstep, runs_advance_idle htasks] at h
      obtain ⟨e, he⟩ := h
      cases hok.symm.trans he
    | cons task rest =>
      have hstep : s.step cat .advance = s.proceed (task.run cat s.view s.counters) rest := by
        rw [step, htasks]
      rw [hstep] at h ⊢
      rw [tasksWrites]
      cases hresult : (task.run cat s.view s.counters).result with
      | error e =>
        rw [proceed_error hresult, runs_advance_idle rfl]
        simp only [append_nil]
        exact ⟨congrArg s.failedView task.view_run, rfl, rfl, rfl⟩
      | ok more =>
        rw [proceed, hresult] at h ⊢
        simp only at h ⊢
        -- a statement that has no tasks left has not failed
        have hmore : (more ++ rest).isEmpty = false := by
          rw [← Bool.not_eq_true]
          intro hempty
          rw [runs_advance_idle (isEmpty_iff.mp hempty)] at h
          obtain ⟨e, he⟩ := h
          cases he
        rw [hmore, Bool.false_and, if_neg Bool.false_ne_true] at h ⊢
        obtain ⟨hview, hsaved, hexplicit, hnone⟩ := ih rfl h
        refine ⟨hview.trans ?_, hsaved, hexplicit, hnone⟩
        simp only [failedView, View.writeAll_append, task.view_run]

/-! ## Transactions -/

/-- Between statements, a transaction of its own begins with what is visible. -/
def Settled (s : Session) : Prop := s.explicit = false → s.idle = true → s.saved = s.view

theorem Settled.step (h : s.Settled) (a : Action) : (s.step cat a).Settled := by
  have hproceed : ∀ o rest, (s.proceed o rest).Settled := by
    intro o rest hauto hidle
    cases hresult : o.result with
    | error e =>
      rw [proceed_error hresult] at hauto ⊢
      simp only at hauto ⊢
      rw [failedView, hauto]
      rfl
    | ok more =>
      rw [proceed, hresult] at hauto hidle ⊢
      simp only [idle] at hauto hidle ⊢
      rw [hauto, hidle]
      rfl
  unfold Session.step
  cases a with
  | execute st =>
    simp only
    split_ifs
    · exact hproceed _ _
    · exact h
  | advance =>
    simp only
    split
    · exact h
    · exact hproceed _ _
  | begin =>
    simp only
    split_ifs
    · intro hauto
      cases hauto
    · exact h
  | commit =>
    simp only
    split_ifs
    · exact fun _ _ => rfl
    · exact h
  | rollback =>
    simp only
    split_ifs
    · exact fun _ _ => rfl
    · exact h

theorem settled_runs (counters : Counters) (actions : List Action) :
    (runs (Session.step cat) (new counters) actions).Settled :=
  runs_invariant (fun _ a h => h.step a) (fun _ _ => rfl) actions

/-- A statement that fails in an open transaction leaves what its tasks have written by then: COMMIT keeps
it, and ROLLBACK goes back to where the transaction began.  In a transaction of its own it leaves nothing. -/
theorem failed_statement (counters : Counters) (before : List Action) (st : Statement) (n : Nat)
    (hidle : (runs (Session.step cat) (new counters) before).idle = true)
    (hfail : ∃ e, (runs (Session.step cat) (runs (Session.step cat) (new counters) before)
      (.execute st :: List.replicate n .advance)).result = .error e) :
    let s := runs (Session.step cat) (new counters) before
    let t := runs (Session.step cat) s (.execute st :: List.replicate n .advance)
    (s.explicit = true →
      (∀ m k, (t.view m).get k = (lastWrite m k (statementWrites cat s st n)).getD ((s.view m).get k)) ∧
        (t.step cat .commit).view = t.view ∧ (t.step cat .rollback).view = s.saved) ∧
      (s.explicit = false → t.view = s.view) := by
  intro s t
  have hstart : s.step cat (.execute st) = s.proceed ⟨s.view, s.counters, st.start cat s.view.seen⟩ [] := by
    rw [step, if_pos hidle]
  have hfailed : Failed s t (statementWrites cat s st n) := by
    have hrun : t = runs (Session.step cat) (s.step cat (.execute st)) (List.replicate n .advance) := rfl
    rw [hrun]
    change ∃ e, (runs (Session.step cat) (s.step cat (.execute st)) (List.replicate n .advance)).result
      = .error e at hfail
    rw [hstart] at hfail ⊢
    unfold statementWrites
    cases htasks : st.start cat s.view.seen with
    | error e =>
      rw [htasks, proceed_error rfl, runs_advance_idle rfl] at hfail
      rw [proceed_error rfl, runs_advance_idle rfl]
      exact ⟨rfl, rfl, rfl, rfl⟩
    | ok tasks =>
      rw [htasks, proceed] at hfail
      rw [proceed]
      simp only [append_nil] at hfail ⊢
      have hmore : tasks.isEmpty = false := by
        rw [← Bool.not_eq_true]
        intro hempty
        rw [runs_advance_idle (isEmpty_iff.mp hempty)] at hfail
        obtain ⟨e, he⟩ := hfail
        cases he
      rw [hmore, Bool.false_and, if_neg Bool.false_ne_true] at hfail ⊢
      obtain ⟨hview, hsaved, hexplicit, hnone⟩ := failed_tasks n rfl hfail
      exact ⟨hview, hsaved, hexplicit, hnone⟩
  obtain ⟨hview, hsaved, hexplicit, hnone⟩ := hfailed
  have htidle : t.idle = true := by
    rw [idle, hnone]
    rfl
  constructor
  · intro hopen
    have hopen' : t.explicit = true := hexplicit.trans hopen
    rw [failedView, if_pos hopen] at hview
    refine ⟨fun m k => ?_, ?_, ?_⟩
    · rw [hview, View.get_writeAll]
    · rw [step, htidle, hopen']
      rfl
    · rw [step, htidle, hopen']
      exact hsaved
  · intro hauto
    rw [hview, failedView, hauto]
    exact settled_runs counters before hauto hidle

end Session

end

namespace Session

attribute [local instance] plainCrates

def twoRows : Insert :=
  { insertInto "t" [] with rowsToInsert := [[.integer 1, .integer 2], [.string "x", .integer 3]] }

def inserting (before : List Action) : Session :=
  runs (Session.step pairs) (runs (Session.step pairs) (new fun _ => 1) before)
    (.execute (.insert twoRows) :: List.replicate 2 .advance)

/-- ROLLBACK takes the first row back. -/
theorem failed_statement_twoRows : ((inserting [.begin]).step pairs .rollback).view = View.empty :=
  ((failed_statement (fun _ => 1) [.begin] (.insert twoRows) 2 rfl ⟨_, rfl⟩).1 rfl).2.2

/-- In an open transaction the first row stays, and is committed. -/
theorem failed_statement_leaves_row :
    (runs (Session.step pairs) (new fun _ => 1) [.begin]).explicit = true ∧
      (∃ e, (inserting [.begin]).result = .error e) ∧
      ¬ ∀ m k, ((inserting [.begin]).view m).get k =
        ((runs (Session.step pairs) (new fun _ => 1) [.begin]).view m).get k := by
  refine ⟨rfl, ⟨_, rfl⟩, fun h => ?_⟩
  have hrow := congrArg Option.isSome (h (tableMap "t") (rowKey 1))
  revert hrow
  decide +kernel

end Session

end H2Database.Sql
