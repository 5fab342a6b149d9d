import H2Database.Mvstore.Tx.Snapshot
import H2Database.Mvstore.Durability.Journals
import H2Database.Mvstore.Tracking

/-!
# A database over its lifetimes

Runs of transactions together with the operations on the store below them: checkpoints, the map
operations that are not transactional, and crashes.  A crash inside a commit or a checkpoint leaves the
files that the call leaves with the corresponding answer of the operating system, so a crash is a step
of its own, after which the store is opened again and gets a new `TransactionStore`.
-/

namespace H2Database.Mvstore

open Reasoning MVStore VersionedValue TransactionStore

inductive DbOp where
  | call (c : Call)
  | checkpoint (io : WriteOutcome)
  | clearMap (name : String)
  | removeMap (name : String)
  | vacuumMap (name : String)
  /-- `kept` records of the log have reached the disk -/
  | crash (kept : Nat)

namespace TxSystem

/-- The system over another state of its `MVStore`. -/
def withStore (sys : TxSystem) (mvstore : MVStore Stored) : TxSystem :=
  { sys with store := { sys.store with mvstore } }

theorem Orderly.withStore {sys : TxSystem} (h : sys.Orderly) {mvstore : MVStore Stored}
    (hv : mvstore.AllVersioned) (hc : mvstore.version ≤ mvstore.nextCommitVersion) :
    (sys.withStore mvstore).Orderly :=
  ⟨⟨h.proper.txId, h.proper.sleeper⟩, hv, hc, h.fresh, h.active⟩

end TxSystem

namespace TracedTx

def perform (t : TracedTx) : DbOp → TracedTx
  | .call c => t.step c
  | .checkpoint io =>
    ⟨t.sys.withStore (t.sys.store.mvstore.checkpoint io).2, t.trace⟩
  | .clearMap name => ⟨t.sys.withStore (t.sys.store.mvstore.clearMap name), t.trace⟩
  | .removeMap name => ⟨t.sys.withStore (t.sys.store.mvstore.removeMap name).2, t.trace⟩
  | .vacuumMap name => ⟨{ t.sys with store := (t.sys.store.vacuumMap name).2 }, t.trace⟩
  | .crash kept =>
    match openAt t.sys.store.mvstore.file (t.sys.store.mvstore.wal.take kept) with
    | .ok s => ⟨.new s, .reopened :: t.trace⟩
    | .error _ => t

end TracedTx

namespace MVStore

theorem find_checkpoint (s : MVStore Stored) (io : WriteOutcome) (n : String) :
    (s.checkpoint io).2.maps.find n = s.maps.find n := by
  unfold checkpoint
  split
  · rfl
  · rfl
  · rfl

theorem counter_checkpoint {s : MVStore Stored} (h : s.version ≤ s.nextCommitVersion)
    (io : WriteOutcome) :
    (s.checkpoint io).2.version ≤ (s.checkpoint io).2.nextCommitVersion := by
  unfold checkpoint
  split
  · exact h
  · exact Nat.le_max_right _ _
  · exact Nat.le_max_right _ _

end MVStore

end H2Database.Mvstore
