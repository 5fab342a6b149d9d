import H2Database.Storage.Failover

/-!
# Clusters (`h2/src/storage/cluster.rs`)

A cluster knows which of the compute nodes is its primary and which are its replicas.  A failover takes
a replica out of the list and then asks it to become the primary, which the storage nodes may refuse.
-/

namespace H2Database.Storage

open Reasoning

structure DecoupledCluster where
  system : ComputeSystem
  primary : Nat
  replicas : List Nat

namespace ComputeSystem

/-- What other threads do while a node is being promoted: before it asks for the lease, and while it
waits for the answers. -/
structure Meanwhile where
  beforeLease : List ComputeAction
  duringLease : List ComputeAction

def isStepOf (k : Nat) : ComputeAction → Bool
  | .acquireLease k' | .leaseAcquired k' => k' == k
  | _ => false

def runOthers (sys : ComputeSystem) (k : Nat) (actions : List ComputeAction) : ComputeSystem :=
  runs step sys (actions.filter fun action => !isStepOf k action)

/-- A whole call of `promote_to_primary`, and its result if it returns. -/
def promote (sys : ComputeSystem) (i : Nat) (meanwhile : Meanwhile) :
    ComputeSystem × Option (H2Result FencingToken) :=
  match sys.nodes[i]? with
  | none => (sys, none)
  | some node =>
    if node.role = .primary then (sys, some (.ok node.fencingToken))
    else
      let k := sys.promotions.length
      let newToken := sys.storage.fleet.fencingToken.next
      let asking := (sys.step (.promoteToPrimary i)).runOthers k meanwhile.beforeLease
      let answered := (asking.step (.acquireLease k)).runOthers k meanwhile.duringLease
      (answered.step (.leaseAcquired k),
        (answered.result asking.storage.calls.length).map fun result => result.map fun _ => newToken)

end ComputeSystem

namespace DecoupledCluster

def failoverToReplica (cluster : DecoupledCluster) (replicaIndex : Nat)
    (meanwhile : ComputeSystem.Meanwhile) : DecoupledCluster × Option (H2Result FencingToken) :=
  match cluster.replicas[replicaIndex]? with
  | none => (cluster, some (.error (.storage "Replica index out of bounds")))
  | some newPrimary =>
    let replicas := cluster.replicas.eraseIdx replicaIndex
    match cluster.system.promote newPrimary meanwhile with
    | (system, some (.ok token)) =>
      let system := replicas.foldl (fun sys r => sys.step (.registerReplica newPrimary r)) system
      (⟨system, newPrimary, replicas⟩, some (.ok token))
    | (system, answer) => (⟨system, cluster.primary, replicas⟩, answer)

/-- The primary, the replicas, and the roles and the tokens of all nodes are the same. -/
structure Unchanged (before after : DecoupledCluster) : Prop where
  primary : after.primary = before.primary
  replicas : after.replicas = before.replicas
  compute : after.system.nodes.map (fun node => (node.role, node.fencingToken)) =
    before.system.nodes.map fun node => (node.role, node.fencingToken)
  storage : after.system.storage.fleet.nodes.map SmartStorageNode.currentFencingToken =
    before.system.storage.fleet.nodes.map SmartStorageNode.currentFencingToken

variable {cluster : DecoupledCluster} {replicaIndex : Nat} {meanwhile : ComputeSystem.Meanwhile}

theorem cluster_of_error {e : H2Error} {newPrimary : Nat}
    (hin : cluster.replicas[replicaIndex]? = some newPrimary)
    (h : (cluster.failoverToReplica replicaIndex meanwhile).2 = some (.error e)) :
    (cluster.failoverToReplica replicaIndex meanwhile).1 =
        ⟨(cluster.system.promote newPrimary meanwhile).1, cluster.primary,
          cluster.replicas.eraseIdx replicaIndex⟩ ∧
      (cluster.system.promote newPrimary meanwhile).2 = some (.error e) := by
  unfold failoverToReplica at h ⊢
  rw [hin] at h ⊢
  dsimp only at h ⊢
  generalize cluster.system.promote newPrimary meanwhile = promoted at h ⊢
  obtain ⟨system, answer⟩ := promoted
  cases answer with
  | none => cases h
  | some result =>
    cases result with
    | ok token => cases h
    | error e' => exact ⟨rfl, h⟩

/-- A failover that fails leaves the cluster as it was exactly if the index is out of bounds. -/
theorem failed_failover_unchanged_iff {e : H2Error}
    (h : (cluster.failoverToReplica replicaIndex meanwhile).2 = some (.error e)) :
    Unchanged cluster (cluster.failoverToReplica replicaIndex meanwhile).1 ↔
      cluster.replicas.length ≤ replicaIndex := by
  cases hin : cluster.replicas[replicaIndex]? with
  | none =>
    have hsame : (cluster.failoverToReplica replicaIndex meanwhile).1 = cluster := by
      rw [failoverToReplica, hin]
    rw [hsame]
    exact iff_of_true ⟨rfl, rfl, rfl, rfl⟩ (List.getElem?_eq_none_iff.mp hin)
  | some newPrimary =>
    have hlt : replicaIndex < cluster.replicas.length := (List.getElem?_eq_some_iff.mp hin).1
    apply iff_of_false
    · intro hunchanged
      have hlength := congrArg List.length hunchanged.replicas
      rw [(cluster_of_error hin h).1, List.length_eraseIdx_of_lt hlt] at hlength
      omega
    · omega

/-- Three storage nodes, two of which another fleet has leased with token 5, and one replica. -/
def leasedElsewhere : DecoupledCluster where
  system := { ComputeSystem.new { StorageFleet.threeNodes with
      nodes := [.new 1, ((SmartStorageNode.new 2).acquireLease 5).2,
        ((SmartStorageNode.new 3).acquireLease 5).2]
      count := rfl } with
    nodes := [⟨.primary, 0, 1, [1]⟩, ⟨.readReplica, 0, 0, []⟩] }
  primary := 0
  replicas := [1]

def allAnswer : ComputeSystem.Meanwhile :=
  ⟨[], [.storage (.handle 0 0), .storage (.handle 0 1), .storage (.handle 0 2),
    .storage (.receive 0 0), .storage (.receive 0 0), .storage (.receive 0 0)]⟩

theorem failed_failover_outOfBounds :
    Unchanged leasedElsewhere (leasedElsewhere.failoverToReplica 1 ⟨[], []⟩).1 ↔
      leasedElsewhere.replicas.length ≤ 1 :=
  failed_failover_unchanged_iff (e := .storage "Replica index out of bounds") rfl

/-- The storage nodes refuse; the replica is gone, and the node that granted keeps the new token. -/
theorem refused_failover_changes :
    (leasedElsewhere.failoverToReplica 0 allAnswer).2 =
        some (.error (.storage "Failed to acquire lease: rejected by majority (token 2)")) ∧
      (leasedElsewhere.failoverToReplica 0 allAnswer).1.replicas = [] ∧
      (leasedElsewhere.failoverToReplica 0 allAnswer).1.system.storage.fleet.nodes.map
        SmartStorageNode.currentFencingToken = [2, 5, 5] ∧
      ¬ Unchanged leasedElsewhere (leasedElsewhere.failoverToReplica 0 allAnswer).1 := by
  have hreplicas : (leasedElsewhere.failoverToReplica 0 allAnswer).1.replicas = [] := by
    decide +kernel
  refine ⟨by decide +kernel, hreplicas, by decide +kernel, fun hunchanged => ?_⟩
  have hsame := hunchanged.replicas
  rw [hreplicas] at hsame
  cases hsame

end DecoupledCluster

end H2Database.Storage
