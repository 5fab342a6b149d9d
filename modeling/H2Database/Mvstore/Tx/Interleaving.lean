import H2Database.Mvstore.Edits
import H2Database.Mvstore.Tx.Transaction

/-!
# Interleavings of transactions

A `TxSystem` is a transaction store with the transactions that were begun on it.  `step` is one call of
one of them.  A `Trace` notes, newest first, what has happened: which transactions began, what they
wrote and which of them committed.  The functions on traces say what a reader is entitled to see.
-/

namespace H2Database.Mvstore

structure TxSystem where
  store : TransactionStore
  transactions : AList fun _ : Nat => Transaction

/-- The calls of transactions.  `remaining` is what is left of the query's time, if it has a limit. -/
inductive Call where
  | begin
  | get (tx : Nat) (mapName : String) (key : Key)
  | put (tx : Nat) (mapName : String) (key : Key) (value : List UInt8) (remaining : Option Nat)
  | remove (tx : Nat) (mapName : String) (key : Key) (remaining : Option Nat)
  | wake (tx : Nat) (remaining : Option Nat)
  | timeOut (tx : Nat) (remaining : Option Nat)
  | commit (tx : Nat) (sync : H2Result Unit)
  | rollback (tx : Nat)

/-- `idle` is the answer to a call that cannot be made: there is no such transaction, it is asleep, or
it is not. -/
inductive Response where
  | idle
  | began (tx : Nat)
  | read (result : H2Result (Option (List UInt8)))
  | wrote (progress : Progress)
  | ended (result : H2Result Unit)
  deriving DecidableEq

namespace TxSystem

def new (mvstore : MVStore Stored) : TxSystem := ⟨.new mvstore, ∅⟩

def awake (sys : TxSystem) (tx : Nat) : Option Transaction :=
  (sys.transactions.lookup tx).filter fun t => t.waiting.isNone

def asleep (sys : TxSystem) (tx : Nat) : Option (Transaction × Waiting) :=
  (sys.transactions.lookup tx).bind fun t => t.waiting.map fun w => (t, w)

def after (sys : TxSystem) (tx : Nat) (p : Transaction × TransactionStore) : TxSystem :=
  ⟨p.2, sys.transactions.insert tx p.1⟩

def write (sys : TxSystem) (tx : Nat) (p : Progress × Transaction × TransactionStore) :
    Response × TxSystem :=
  (.wrote p.1, sys.after tx p.2)

def step (sys : TxSystem) : Call → Response × TxSystem
  | .begin =>
    let (t, store) := sys.store.begin
    (.began t.txId, ⟨store, sys.transactions.insert t.txId t⟩)
  | .get tx mapName key =>
    match sys.awake tx with
    | none => (.idle, sys)
    | some t => (.read (t.get sys.store mapName key).1,
        sys.after tx (t, (t.get sys.store mapName key).2))
  | .put tx mapName key value remaining =>
    match sys.awake tx with
    | none => (.idle, sys)
    | some t => sys.write tx (t.put sys.store mapName key value remaining)
  | .remove tx mapName key remaining =>
    match sys.awake tx with
    | none => (.idle, sys)
    | some t => sys.write tx (t.remove sys.store mapName key remaining)
  | .wake tx remaining =>
    match sys.asleep tx with
    | none => (.idle, sys)
    | some (t, w) =>
      if sys.store.lockManager.isReleased w.cell then
        sys.write tx (t.wake sys.store w remaining)
      else (.idle, sys)
  | .timeOut tx remaining =>
    match sys.asleep tx with
    | none => (.idle, sys)
    | some (t, w) => sys.write tx (t.timeOut sys.store w remaining)
  | .commit tx sync =>
    match sys.awake tx with
    | none => (.idle, sys)
    | some t => (.ended (t.commit sys.store sync).1, sys.after tx (t.commit sys.store sync).2)
  | .rollback tx =>
    match sys.awake tx with
    | none => (.idle, sys)
    | some t => (.ended (t.rollback sys.store).1, sys.after tx (t.rollback sys.store).2)

/-- The transaction and the write a call is about; the map is the one the loop works on. -/
def target (sys : TxSystem) : Call → Option (Nat × WriteCall)
  | .put tx mapName key value _ =>
    some (tx, ⟨mapName, (sys.store.openMap mapName).1, key, some value⟩)
  | .remove tx mapName key _ => some (tx, ⟨mapName, (sys.store.openMap mapName).1, key, none⟩)
  | .wake tx _ => (sys.asleep tx).map fun p => (tx, p.2.call)
  | _ => none

end TxSystem

/-! ## Traces -/

inductive Event where
  | began (tx : Nat) (snapshotVersion : Nat)
  | wrote (tx : Nat) (mapName : String) (key : Key) (value : Option (List UInt8))
  | committed (tx : Nat) (commitVersion : Nat)
  | reopened
  deriving DecidableEq, Repr

abbrev Trace := List Event

def TxSystem.commits (sys : TxSystem) : Call → Option Nat
  | .commit tx _ =>
    ((sys.transactions.lookup tx).filter fun t => t.status = .opened).map fun _ => tx
  | _ => none

/-- What a call adds to the trace.  A commit that had something to log leaves the store at its own
version. -/
def TxSystem.event (sys : TxSystem) (call : Call) : Option Event :=
  match (sys.step call).1 with
  | .began tx => some (.began tx sys.store.mvstore.version)
  | .wrote (.returned (.ok true)) =>
    (sys.target call).map fun p => .wrote p.1 p.2.mapName p.2.key p.2.value
  | .ended (.ok ()) =>
    (sys.commits call).map fun tx => .committed tx (sys.step call).2.store.mvstore.version
  | _ => none

namespace Trace

/-- The last thing the transaction wrote under the key, since the store was opened. -/
def ownWrite (tx : Nat) (n : String) (k : Key) : Trace → Option (Option (List UInt8))
  | [] => none
  | .wrote tx' n' k' value :: tr =>
    if tx' = tx ∧ n' = n ∧ k' = k then some value else ownWrite tx n k tr
  | .reopened :: _ => none
  | _ :: tr => ownWrite tx n k tr

/-- The records committed under a key, newest first, over those it had at the beginning. -/
def commitLog (base : List VersionRecord) (n : String) (k : Key) : Trace → List VersionRecord
  | [] => base
  | .committed tx version :: tr =>
    match ownWrite tx n k tr with
    | some value => ⟨value, version⟩ :: commitLog base n k tr
    | none => commitLog base n k tr
  | _ :: tr => commitLog base n k tr

def commitsSince (tx : Nat) (n : String) (k : Key) : Trace → Nat
  | [] => 0
  | .began tx' _ :: tr => if tx' = tx then 0 else commitsSince tx n k tr
  | .committed tx' _ :: tr =>
    if (ownWrite tx' n k tr).isSome then commitsSince tx n k tr + 1 else commitsSince tx n k tr
  | _ :: tr => commitsSince tx n k tr

@[simp] theorem ownWrite_began (tx sv tx' : Nat) (n : String) (k : Key) (tr : Trace) :
    ownWrite tx' n k (.began tx sv :: tr) = ownWrite tx' n k tr := rfl

theorem ownWrite_wrote (tx tx' : Nat) (n n' : String) (k k' : Key) (value : Option (List UInt8))
    (tr : Trace) :
    ownWrite tx' n' k' (.wrote tx n k value :: tr) =
      if tx = tx' ∧ n = n' ∧ k = k' then some value else ownWrite tx' n' k' tr := rfl

@[simp] theorem commitLog_began (tx sv : Nat) (base : List VersionRecord) (n : String) (k : Key)
    (tr : Trace) : commitLog base n k (.began tx sv :: tr) = commitLog base n k tr := rfl

@[simp] theorem commitLog_wrote (tx : Nat) (n' : String) (k' : Key) (value : Option (List UInt8))
    (base : List VersionRecord) (n : String) (k : Key) (tr : Trace) :
    commitLog base n k (.wrote tx n' k' value :: tr) = commitLog base n k tr := rfl

theorem commitLog_committed_of_some {tx : Nat} {n : String} {k : Key} {tr : Trace}
    {value : Option (List UInt8)} (h : ownWrite tx n k tr = some value) (cv : Nat)
    (base : List VersionRecord) :
    commitLog base n k (.committed tx cv :: tr) = ⟨value, cv⟩ :: commitLog base n k tr := by
  simp only [commitLog, h]

theorem commitLog_committed_of_none {tx : Nat} {n : String} {k : Key} {tr : Trace}
    (h : ownWrite tx n k tr = none) (cv : Nat) (base : List VersionRecord) :
    commitLog base n k (.committed tx cv :: tr) = commitLog base n k tr := by
  simp only [commitLog, h]

theorem commitsSince_began (tx sv tx' : Nat) (n : String) (k : Key) (tr : Trace) :
    commitsSince tx' n k (.began tx sv :: tr) =
      if tx = tx' then 0 else commitsSince tx' n k tr := rfl

@[simp] theorem commitsSince_wrote (tx : Nat) (n' : String) (k' : Key) (value : Option (List UInt8))
    (tx' : Nat) (n : String) (k : Key) (tr : Trace) :
    commitsSince tx' n k (.wrote tx n' k' value :: tr) = commitsSince tx' n k tr := rfl

theorem commitsSince_committed (tx cv tx' : Nat) (n : String) (k : Key) (tr : Trace) :
    commitsSince tx' n k (.committed tx cv :: tr) =
      if (ownWrite tx n k tr).isSome then commitsSince tx' n k tr + 1
      else commitsSince tx' n k tr := rfl

end Trace

structure TracedTx where
  sys : TxSystem
  trace : Trace

namespace TracedTx

def new (mvstore : MVStore Stored) : TracedTx := ⟨.new mvstore, []⟩

def step (t : TracedTx) (call : Call) : TracedTx :=
  ⟨(t.sys.step call).2, (t.sys.event call).toList ++ t.trace⟩

end TracedTx

end H2Database.Mvstore
