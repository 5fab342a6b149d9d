import H2Database.Storage.Quorum

/-!
# Compute nodes (`h2/src/storage/compute.rs`)

A primary turns each commit into log records and appends them to the fleet; a read replica becomes the
primary by taking a lease with the next fencing token.  A `ComputeSystem` is a fleet with the compute
nodes that use it.  Calls of different nodes interleave freely; the commits of one node come one after
the other, since its store runs the listener under the lock of the commit queue or behind the gate of a
checkpoint.  The stores and caches of the compute nodes are left out: nothing here reads them.
-/

namespace H2Database.Storage

open Mvstore Reasoning

inductive ComputeRole where
  | primary
  | readReplica
  deriving DecidableEq, Repr

structure ReplicationChange where
  mapName : String
  key : List UInt8
  value : Option (List UInt8)
  isClear : Bool
  deriving DecidableEq, Repr

structure DecoupledComputeNode where
  role : ComputeRole
  currentLsn : Lsn
  fencingToken : FencingToken
  replicaListeners : List Nat
  deriving DecidableEq, Repr

namespace DecoupledComputeNode

def newPrimary (fleet : StorageFleet) (token : FencingToken) : DecoupledComputeNode :=
  ⟨.primary, fleet.latestCommittedLsn, token, []⟩

def newReadReplica (fleet : StorageFleet) : DecoupledComputeNode :=
  ⟨.readReplica, fleet.latestCommittedLsn, 0, []⟩

/-- The end of `promote_to_primary`, when the lease has been acquired. -/
def becomePrimary (node : DecoupledComputeNode) (newToken : FencingToken) (latestLsn : Lsn) :
    DecoupledComputeNode :=
  { node with role := .primary, fencingToken := newToken, currentLsn := latestLsn }

def changeRecord (commitVersion : Nat) (lsn : Lsn) (change : ReplicationChange) (now : Nat) :
    LogRecord :=
  if change.isClear then
    ⟨lsn, lsn - 1, commitVersion, .truncateMap, change.mapName, [], none, now⟩
  else
    match change.value with
    | some val => .put lsn (lsn - 1) commitVersion change.mapName change.key val now
    | none => .delete lsn (lsn - 1) commitVersion change.mapName change.key now

/-- The records that `on_commit` appends, from the LSN it starts at; `clock` says what time it is when
the record of an LSN is made. -/
def commitRecords (commitVersion : Nat) (clock : Lsn → Nat) :
    Lsn → List ReplicationChange → List LogRecord
  | curLsn, [] => [.commit (curLsn + 1) curLsn commitVersion (clock (curLsn + 1))]
  | curLsn, change :: changes =>
    changeRecord commitVersion (curLsn + 1) change (clock (curLsn + 1)) ::
      commitRecords commitVersion clock (curLsn + 1) changes

end DecoupledComputeNode

/-! ## Compute nodes at work -/

inductive PromotionPhase where
  /-- the storage token has been read -/
  | read
  | acquiring (call : Nat)
  | finished
  deriving DecidableEq, Repr

/-- A call of `promote_to_primary`. -/
structure Promotion where
  node : Nat
  newToken : FencingToken
  phase : PromotionPhase
  deriving DecidableEq, Repr

/-- A call of `on_commit`. -/
structure Commit where
  node : Nat
  token : FencingToken
  call : Nat
  finished : Bool
  deriving DecidableEq, Repr

/-- `primaries` notes which node has been the primary with which token; nothing reads it. -/
structure ComputeSystem where
  storage : FleetSystem
  nodes : List DecoupledComputeNode
  promotions : List Promotion
  commits : List Commit
  primaries : List (Nat × FencingToken)

inductive ComputeAction where
  | addReadReplica
  | registerReplica (node replica : Nat)
  | promoteToPrimary (node : Nat)
  | acquireLease (promotion : Nat)
  | leaseAcquired (promotion : Nat)
  | onCommit (node : Nat) (commitVersion : Nat) (changes : List ReplicationChange)
      (clock : Lsn → Nat)
  | commitAcked (commit : Nat)
  | storage (action : FleetAction)

namespace ComputeSystem

def new (fleet : StorageFleet) : ComputeSystem where
  storage := .new fleet
  nodes := [.newPrimary fleet fleet.fencingToken]
  promotions := []
  commits := []
  primaries := [(0, fleet.fencingToken)]

def updateNode (sys : ComputeSystem) (i : Nat)
    (f : DecoupledComputeNode → DecoupledComputeNode) : ComputeSystem :=
  { sys with nodes := sys.nodes.modify i f }

def setPromotion (sys : ComputeSystem) (k : Nat) (phase : PromotionPhase) : ComputeSystem :=
  { sys with promotions := sys.promotions.modify k fun p => { p with phase } }

def result (sys : ComputeSystem) (c : Nat) : Option (H2Result Lsn) :=
  sys.storage.calls[c]?.bind QuorumCall.result

def promoteToPrimary (sys : ComputeSystem) (i : Nat) : ComputeSystem :=
  match sys.nodes[i]? with
  | none => sys
  | some node =>
    if node.role = .primary then sys
    else { sys with
      promotions := sys.promotions ++ [⟨i, sys.storage.fleet.fencingToken.next, .read⟩] }

def acquireLease (sys : ComputeSystem) (k : Nat) : ComputeSystem :=
  match sys.promotions[k]? with
  | none => sys
  | some promotion =>
    match promotion.phase with
    | .read =>
      { sys with storage := sys.storage.step (.start (.lease promotion.newToken)) }.setPromotion k
        (.acquiring sys.storage.calls.length)
    | _ => sys

def leaseAcquired (sys : ComputeSystem) (k : Nat) : ComputeSystem :=
  match sys.promotions[k]? with
  | none => sys
  | some promotion =>
    match promotion.phase with
    | .acquiring c =>
      match sys.result c with
      | some (.ok _) =>
        { (sys.setPromotion k .finished).updateNode promotion.node fun node =>
            node.becomePrimary promotion.newToken sys.storage.fleet.latestCommittedLsn with
          primaries := (promotion.node, promotion.newToken) :: sys.primaries }
      | some (.error _) => sys.setPromotion k .finished
      | none => sys
    | _ => sys

def onCommit (sys : ComputeSystem) (i : Nat) (commitVersion : Nat)
    (changes : List ReplicationChange) (clock : Lsn → Nat) : ComputeSystem :=
  match sys.nodes[i]? with
  | none => sys
  | some node =>
    if node.role = .primary ∧ ∀ commit ∈ sys.commits, commit.node = i → commit.finished then
      { sys with
        storage := sys.storage.step (.start (.append
          (DecoupledComputeNode.commitRecords commitVersion clock node.currentLsn changes)
          node.fencingToken))
        commits := sys.commits ++ [⟨i, node.fencingToken, sys.storage.calls.length, false⟩] }
    else sys

def commitAcked (sys : ComputeSystem) (k : Nat) : ComputeSystem :=
  match sys.commits[k]? with
  | none => sys
  | some commit =>
    let sys' := { sys with commits := sys.commits.modify k fun c => { c with finished := true } }
    match commit.finished, sys.result commit.call with
    | false, some (.ok lsn) =>
      let listeners := (sys.nodes[commit.node]?.map (·.replicaListeners)).getD []
      (commit.node :: listeners).foldl
        (fun sys j => sys.updateNode j fun node => { node with currentLsn := lsn }) sys'
    | false, some (.error _) => sys'
    | _, _ => sys

def step (sys : ComputeSystem) : ComputeAction → ComputeSystem
  | .addReadReplica => { sys with nodes := sys.nodes ++ [.newReadReplica sys.storage.fleet] }
  | .registerReplica i j =>
    sys.updateNode i fun node => { node with replicaListeners := node.replicaListeners ++ [j] }
  | .promoteToPrimary i => sys.promoteToPrimary i
  | .acquireLease k => sys.acquireLease k
  | .leaseAcquired k => sys.leaseAcquired k
  | .onCommit i commitVersion changes clock => sys.onCommit i commitVersion changes clock
  | .commitAcked k => sys.commitAcked k
  | .storage (.start _) => sys
  | .storage action => { sys with storage := sys.storage.step action }

theorem foldl_updateNode (js : List Nat) (lsn : Lsn) (sys : ComputeSystem) :
    ∃ nodes, js.foldl (fun sys j => sys.updateNode j fun node => { node with currentLsn := lsn }) sys =
        { sys with nodes } ∧
      ∀ i : Nat, nodes[i]? = sys.nodes[i]?.map fun node =>
        if i ∈ js then { node with currentLsn := lsn } else node := by
  induction js generalizing sys with
  | nil => exact ⟨sys.nodes, rfl, fun i => by simp⟩
  | cons j js ih =>
    obtain ⟨nodes, heq, hnodes⟩ := ih (sys.updateNode j fun node => { node with currentLsn := lsn })
    refine ⟨nodes, heq, fun i => ?_⟩
    rw [hnodes, updateNode, List.getElem?_modify]
    cases sys.nodes[i]? with
    | none => rfl
    | some node =>
      by_cases hj : i = j
      · subst hj
        by_cases hi : i ∈ js <;> simp [hi]
      · have hj' : j ≠ i := fun heq => hj heq.symm
        by_cases hi : i ∈ js <;> simp [hj, hj', hi]

end ComputeSystem

end H2Database.Storage
