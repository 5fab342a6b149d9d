import H2Database.Mvstore.CommitOutcome
import H2Database.Mvstore.Tx.Database

/-!
# Transactions that commit in groups (`Transaction::commit`, `h2-mvstore/src/tx/transaction.rs`)

In a `TxSystem` a commit is one step.  Here it is taken apart where `commit_with` waits: a transaction
puts its record into the queue, a leader drains the queue, and each transaction leaves with its outcome,
to be closed or rolled back.  While it is in `commit_with` a transaction holds the lock of its status, so
it makes no other call; all the others go on.
-/

namespace H2Database.Mvstore

open Reasoning MVStore VersionedValue TransactionStore

/-! ## The preparation -/

namespace Transaction

theorem prepareEntry_opens (txId commitVersion : Nat) (s : MVStore Stored) (log : UndoLogEntry) :
    (prepareEntry txId commitVersion s log).2 = (s.openMap log.mapName).2 := by
  unfold prepareEntry
  simp only
  split
  · rfl
  · split
    · rfl
    · split_ifs <;> rfl

theorem prepare_opens (txId : Nat) (logs : List UndoLogEntry) (commitVersion : Nat)
    (s : MVStore Stored) : ∃ names : List String,
      (prepare txId logs commitVersion s).2 = names.foldl (fun s name => (s.openMap name).2) s := by
  induction logs generalizing s with
  | nil => exact ⟨[], rfl⟩
  | cons log logs ih =>
    have hfirst := prepareEntry_opens txId commitVersion s log
    unfold prepare
    rcases hentry : prepareEntry txId commitVersion s log with ⟨result, s'⟩
    rw [hentry] at hfirst
    cases result with
    | error e => exact ⟨[log.mapName], hfirst⟩
    | ok changes =>
      obtain ⟨names, hnames⟩ := ih s'
      refine ⟨log.mapName :: names, ?_⟩
      rw [List.foldl_cons, ← hfirst, ← hnames]
      simp only
      rcases prepare txId logs commitVersion s' with ⟨rest, s''⟩
      cases rest <;> rfl

/-- The closure that a commit hands to `commit_with`. -/
def preparation (t : Transaction) : Preparation Stored where
  prepare := prepare t.txId t.undoLog
  opens := prepare_opens t.txId t.undoLog

end Transaction

/-! ## The system -/

structure BatchSystem where
  sys : TxSystem
  group : GroupCommit Stored
  /-- transaction id to the call of `commit_with` that it has made -/
  attempts : AList fun _ : Nat => Nat

inductive BatchAction where
  /-- any call but `commit` -/
  | call (c : Call)
  /-- `commit`, to the end of the first critical section -/
  | commit (tx : Nat) (timestampNanos : Int) (io : EnqueueIo)
  | drain (leader : Nat) (io : DrainIo)
  /-- the rest of `commit` -/
  | leave (tx : Nat)

def Call.transaction : Call → Option Nat
  | .begin => none
  | .get tx .. | .put tx .. | .remove tx .. | .wake tx _ | .timeOut tx _ | .commit tx _ | .rollback tx =>
    some tx

def Call.isCommit : Call → Bool
  | .commit .. => true
  | _ => false

namespace BatchSystem

def new (bc : Bincode (WalRecord Stored)) (s : MVStore Stored) (persistent sync : Bool) : BatchSystem :=
  ⟨.new s, .new bc s persistent sync, ∅⟩

/-- A transaction in `commit_with`, with its call. -/
def inCommit (b : BatchSystem) (tx : Nat) : Option (Transaction × Nat) :=
  match b.sys.transactions.lookup tx, b.attempts.lookup tx with
  | some t, some i => if t.status = .opened then some (t, i) else none
  | _, _ => none

/-- The call can be made here: it is no commit, and its transaction is in none. -/
def allows (b : BatchSystem) (c : Call) : Bool :=
  !c.isCommit && c.transaction.all fun tx => (b.inCommit tx).isNone

/-- A transaction is closed or rolled back, as its commit has turned out. -/
def conclude (sys : TxSystem) (tx : Nat) (t : Transaction) : Except CommitFailure Unit → TxSystem
  | .ok () => sys.after tx (t.closed sys.store)
  | .error failure =>
    if failure.durable then sys.after tx (t.closed sys.store)
    else sys.after tx (t.rollback sys.store).2

def step (bc : Bincode (WalRecord Stored)) (b : BatchSystem) : BatchAction → BatchSystem
  | .call c => if b.allows c then { b with sys := (b.sys.step c).2 } else b
  | .commit tx timestampNanos io =>
    match b.sys.awake tx, b.inCommit tx with
    | some t, none =>
      match t.status with
      | .committed => b
      | .rolledBack => b
      | .opened =>
        if t.undoLog.isEmpty then { b with sys := b.sys.after tx (t.closed b.sys.store) }
        else
          let (group, mvstore) :=
            b.group.enqueue bc b.sys.store.mvstore t.txId t.preparation timestampNanos io
          { sys := b.sys.withStore mvstore
            group
            attempts := b.attempts.insert tx b.group.calls.length }
    | _, _ => b
  | .drain leader io =>
    let (group, mvstore) := b.group.drain b.sys.store.mvstore leader io
    { b with
      sys := b.sys.withStore mvstore
      group }
  | .leave tx =>
    match b.inCommit tx with
    | none => b
    | some (t, i) =>
      match b.group.result i with
      | none => b
      | some result => { b with sys := conclude b.sys tx t result }

end BatchSystem

end H2Database.Mvstore
