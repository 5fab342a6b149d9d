import H2Database.Mvstore.Restore

/-!
# Changes for replication (`h2-mvstore/src/replication.rs`)

The records that a primary sends to its standbys, and what a standby does with a snapshot and with a record
(`apply_snapshot` and the commit loop of `run_standby_client`).
-/

namespace H2Database.Mvstore

open Reasoning

variable {V : Type}

structure ReplicationChange (V : Type) where
  mapName : String
  key : Key
  value : Option V
  isClear : Bool
  deriving DecidableEq, Repr

namespace ReplicationChange

def put (mapName : String) (key : Key) (value : V) : ReplicationChange V :=
  ⟨mapName, key, some value, false⟩

def remove (mapName : String) (key : Key) : ReplicationChange V := ⟨mapName, key, none, false⟩

def clear (mapName : String) : ReplicationChange V := ⟨mapName, [], none, true⟩

end ReplicationChange

structure ReplicationCommitRecord (V : Type) where
  commitVersion : Nat
  changes : List (ReplicationChange V)
  timestampMs : Nat
  deriving DecidableEq, Repr

/-! ## A standby's store -/

namespace MVStore

/-- One change of a record, in the commit loop of `run_standby_client`. -/
def applyReplicated (s : MVStore V) (c : ReplicationChange V) : MVStore V :=
  let (id, s) := s.openMap c.mapName
  s.update id fun m => if c.isClear then m.clear else applyChange m c.key c.value

/-- A record: its changes, and a checkpoint that gets the version of the primary. -/
def applyCommitRecord (s : MVStore V) (record : ReplicationCommitRecord V) (io : WriteOutcome) :
    H2Result Unit × MVStore V :=
  let s := (record.changes.foldl applyReplicated s).setVersion (record.commitVersion - 1)
  match s.checkpoint io with
  | (.error e, s) => (.error e, s)
  | (.ok _, s) => (.ok (), s.setVersion record.commitVersion)

/-- `apply_snapshot`: every map of it is emptied and filled. -/
def applySnapshot (s : MVStore (List UInt8)) (targetVersion : Nat) (snapshot : BackupData)
    (io : WriteOutcome) : H2Result Unit × MVStore (List UInt8) :=
  match MVStore.checkpoint { s.restoreData snapshot with version := targetVersion - 1 } io with
  | (.error e, s) => (.error e, s)
  | (.ok _, s) => (.ok (), { s with version := targetVersion })

end MVStore

end H2Database.Mvstore
