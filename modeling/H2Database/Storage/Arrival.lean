import H2Database.Storage.NodeLog

/-!
# What happens to a node

The actions on one node, each carried out at once, and the batches that arrive by them.
-/

namespace H2Database.Storage

open Mvstore Reasoning

def Clash (a b : LogRecord) : Prop :=
  ∃ name key, a.writes name key = true ∧ b.writes name key = true

inductive NodeAction where
  | appendLogs (records : List LogRecord) (token : FencingToken)
  | acquireLease (token : FencingToken)
  | materialize
  | setState (state : NodeState)
  | read (mapName : String) (key : Key) (readVersion : Lsn)
  deriving DecidableEq, Repr

namespace SmartStorageNode

def step (node : SmartStorageNode) : NodeAction → SmartStorageNode
  | .appendLogs records token => (node.appendLogs records token).2
  | .acquireLease token => (node.acquireLease token).2
  | .materialize => node.materializePending.2
  | .setState state => node.setState state
  | .read mapName key readVersion => (node.getKey mapName key readVersion).2

def arrivals (node : SmartStorageNode) : List NodeAction → List (List LogRecord)
  | [] => []
  | .appendLogs records token :: actions =>
    (if (node.appendLogs records token).1.isOk then [records] else []) ++
      (node.step (.appendLogs records token)).arrivals actions
  | action :: actions => (node.step action).arrivals actions

theorem walBuffer_runs (node : SmartStorageNode) (actions : List NodeAction) :
    (runs step node actions).walBuffer = node.walBuffer ++ (node.arrivals actions).flatten := by
  induction actions generalizing node with
  | nil => exact (List.append_nil _).symm
  | cons action actions ih =>
    rw [runs_cons, ih]
    cases action with
    | appendLogs records token =>
      change (node.appendLogs records token).2.walBuffer ++ _ = _
      rw [appendLogs_walBuffer, List.append_assoc, arrivals, List.flatten_append]
      split_ifs <;> simp
    | acquireLease token =>
      obtain ⟨current, heq⟩ := node.acquireLease_eq token
      change (node.acquireLease token).2.walBuffer ++ _ = _
      rw [heq]
      rfl
    | materialize =>
      rw [show (node.step .materialize).walBuffer = node.walBuffer from
        (Aside.materialized node).walBuffer]
      rfl
    | setState state => rfl
    | read mapName key readVersion =>
      rw [show (node.step (.read mapName key readVersion)).walBuffer = node.walBuffer from
        (node.getKey_aside mapName key readVersion).walBuffer]
      rfl

end SmartStorageNode

end H2Database.Storage
