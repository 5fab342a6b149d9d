import H2Database.Storage.SmartNode

/-!
# The storage fleet (`h2/src/storage/quorum.rs`)

A fleet sends a request to all its nodes and waits for answers.  Each node is served by a thread of its
own, so the nodes handle a request in any order, interleaved with other requests, and some of them long
after the call has returned.  A `FleetSystem` is a fleet with the calls made on it: `handle` is the whole
thread of one node, which `Storage.Threads` takes apart, and `receive` the loop of the caller taking one
answer from its channel.
-/

namespace H2Database.Storage

open Mvstore Reasoning

structure QuorumConfig where
  totalNodes : Nat
  writeQuorum : Nat
  readQuorum : Nat
  deriving DecidableEq, Repr

namespace QuorumConfig

def threeNodes : QuorumConfig := ⟨3, 2, 2⟩

/-- The sum is one of `usize`. -/
def validate (config : QuorumConfig) : H2Result Unit :=
  if config.totalNodes < config.writeQuorum then
    .error (.storage s!"Invalid quorum config: write_quorum ({config.writeQuorum}) > total_nodes ({config.totalNodes})")
  else if (config.writeQuorum + config.readQuorum) % 2 ^ 64 ≤ config.totalNodes then
    .error (.storage s!"Invalid quorum config: write_quorum ({config.writeQuorum}) + read_quorum ({config.readQuorum}) must be > total_nodes ({config.totalNodes})")
  else .ok ()

end QuorumConfig

/-- A fleet has as many nodes as its configuration says, and the configuration is valid. -/
structure StorageFleet where
  nodes : List SmartStorageNode
  config : QuorumConfig
  latestCommittedLsn : Lsn
  fencingToken : FencingToken
  valid : config.validate = .ok ()
  count : nodes.length = config.totalNodes

namespace StorageFleet

def new (nodes : List SmartStorageNode) (config : QuorumConfig) : H2Result StorageFleet :=
  match hv : config.validate with
  | .error e => .error e
  | .ok () =>
    if hc : nodes.length = config.totalNodes then .ok ⟨nodes, config, 0, 1, hv, hc⟩
    else .error (.storage s!"Fleet node count mismatch: configured {config.totalNodes}, got {nodes.length}")

/-- The fleet of a cluster with three nodes, as `new_3nodes` makes it. -/
def threeNodes : StorageFleet where
  nodes := [.new 1, .new 2, .new 3]
  config := .threeNodes
  latestCommittedLsn := 0
  fencingToken := 1
  valid := by decide
  count := rfl

theorem threeNodes_new : ∀ node ∈ threeNodes.nodes, ∃ nodeId, node = .new nodeId := by
  intro node hnode
  simp only [threeNodes, List.mem_cons, List.not_mem_nil, or_false] at hnode
  rcases hnode with rfl | rfl | rfl
  · exact ⟨1, rfl⟩
  · exact ⟨2, rfl⟩
  · exact ⟨3, rfl⟩

def updateNode (fleet : StorageFleet) (i : Nat) (f : SmartStorageNode → SmartStorageNode) :
    StorageFleet where
  nodes := fleet.nodes.modify i f
  config := fleet.config
  latestCommittedLsn := fleet.latestCommittedLsn
  fencingToken := fleet.fencingToken
  valid := fleet.valid
  count := (List.length_modify f fleet.nodes i).trans fleet.count

/-! ## Reads and repair -/

/-- Ask the nodes one after the other until one answers; `lastErr` is the error of the node before. -/
def firstAnswer {α : Type} (ask : SmartStorageNode → H2Result α × SmartStorageNode) :
    List SmartStorageNode → Option H2Error → H2Result α × List SmartStorageNode
  | [], lastErr => (.error (lastErr.getD (.storage "No accessible storage nodes")), [])
  | node :: nodes, _ =>
    match ask node with
    | (.ok val, node) => (.ok val, node :: nodes)
    | (.error e, node) =>
      let (answer, nodes) := firstAnswer ask nodes (some e)
      (answer, node :: nodes)

theorem length_firstAnswer {α : Type} (ask : SmartStorageNode → H2Result α × SmartStorageNode)
    (nodes : List SmartStorageNode) (lastErr : Option H2Error) :
    (firstAnswer ask nodes lastErr).2.length = nodes.length := by
  induction nodes generalizing lastErr with
  | nil => rfl
  | cons node nodes ih =>
    unfold firstAnswer
    split
    · rfl
    · simp only [List.length_cons, ih]

def readFirst {α : Type} (fleet : StorageFleet)
    (ask : SmartStorageNode → H2Result α × SmartStorageNode) : H2Result α × StorageFleet :=
  ((firstAnswer ask fleet.nodes none).1,
    { fleet with
      nodes := (firstAnswer ask fleet.nodes none).2
      count := (length_firstAnswer ask fleet.nodes none).trans fleet.count })

def getKeyQuorum (fleet : StorageFleet) (mapName : String) (key : Key) (readVersion : Lsn) :
    H2Result (Option (List UInt8)) × StorageFleet :=
  fleet.readFirst fun node => node.getKey mapName key readVersion

def scanRangeQuorum (fleet : StorageFleet) (mapName : String) (startKey endKey : Option Key)
    (readVersion : Lsn) : H2Result (List (Entry Key (List UInt8))) × StorageFleet :=
  fleet.readFirst fun node => node.scanRange mapName startKey endKey readVersion

/-- Node `i` asks node `j` for what it is missing; the number of records it got. -/
def gossip (fleet : StorageFleet) (i j : Nat) : Nat × StorageFleet :=
  match fleet.nodes[i]?, fleet.nodes[j]? with
  | some node, some peer =>
    match node.gossipSyncFrom peer with
    | (.ok count, node) => (count, fleet.updateNode i fun _ => node)
    | (.error _, node) => (0, fleet.updateNode i fun _ => node)
  | _, _ => (0, fleet)

def repairOrder (n : Nat) : List (Nat × Nat) :=
  (List.range n).flatMap fun i => ((List.range n).filter (· ≠ i)).map fun j => (i, j)

def runGossipRepair (fleet : StorageFleet) : Nat × StorageFleet :=
  (repairOrder fleet.nodes.length).foldl (fun p ij =>
    let (count, fleet) := p.2.gossip ij.1 ij.2
    (p.1 + count, fleet)) (0, fleet)

end StorageFleet

/-! ## Calls that wait for a quorum -/

inductive Request where
  | lease (token : FencingToken)
  | append (records : List LogRecord) (token : FencingToken)
  deriving DecidableEq, Repr

namespace Request

def refused (totalNodes errors : Nat) : Request → H2Error
  | .lease token =>
    .storage s!"Failed to acquire lease: rejected by majority (token {token})"
  | .append _ _ =>
    .storage s!"Write quorum unachievable: {errors} of {totalNodes} nodes failed"

def timeout : Request → H2Error
  | .lease _ => .storage "Quorum lease acquisition timeout"
  | .append _ _ => .storage "Write quorum timeout"

/-- What a node does with the request; a lease is granted without an LSN, which is 0 here. -/
def serve (request : Request) (node : SmartStorageNode) : H2Result Lsn × SmartStorageNode :=
  match request with
  | .lease token =>
    let (answer, node) := node.acquireLease token
    (answer.map fun _ => 0, node)
  | .append records token => node.appendLogs records token

end Request

/-- A call of `acquire_lease_quorum` or `append_logs_quorum`.  `accepted` notes the nodes that have
answered ok; nothing reads it. -/
structure QuorumCall where
  request : Request
  /-- the nodes whose threads have not run yet -/
  waiting : List Nat
  /-- the answers sent and not received -/
  channel : List (H2Result Lsn)
  acks : Nat
  errors : Nat
  maxAckLsn : Lsn
  result : Option (H2Result Lsn)
  accepted : List Nat

namespace QuorumCall

/-- The loop of the caller goes on, or is over because every node has answered. -/
def next (call : QuorumCall) (totalNodes : Nat) : QuorumCall :=
  if call.acks + call.errors < totalNodes then call
  else { call with result := some (.error call.request.timeout) }

def start (request : Request) (totalNodes : Nat) (latestCommittedLsn : Lsn) : QuorumCall :=
  match request with
  | .append [] token =>
    ⟨.append [] token, [], [], 0, 0, 0, some (.ok latestCommittedLsn), []⟩
  | request => next ⟨request, List.range totalNodes, [], 0, 0, 0, none, []⟩ totalNodes

/-- The thread of node `i` has sent its answer. -/
def answered (call : QuorumCall) (i : Nat) (answer : H2Result Lsn) : QuorumCall :=
  { call with
    waiting := call.waiting.erase i
    channel := call.channel ++ [answer]
    accepted := if answer.isOk then i :: call.accepted else call.accepted }

def take (call : QuorumCall) (config : QuorumConfig) (answer : H2Result Lsn) : QuorumCall :=
  match answer with
  | .ok lsn =>
    let call := { call with acks := call.acks + 1, maxAckLsn := max call.maxAckLsn lsn }
    if config.writeQuorum ≤ call.acks then { call with result := some (.ok call.maxAckLsn) }
    else call.next config.totalNodes
  | .error _ =>
    let call := { call with errors := call.errors + 1 }
    if config.totalNodes - call.errors < config.writeQuorum then
      { call with result := some (.error (call.request.refused config.totalNodes call.errors)) }
    else call.next config.totalNodes

end QuorumCall

def StorageFleet.settle (fleet : StorageFleet) (call : QuorumCall) : StorageFleet :=
  match call.result, call.request with
  | some (.ok _), .lease token => { fleet with fencingToken := token }
  | some (.ok lsn), .append _ _ => { fleet with latestCommittedLsn := lsn }
  | _, _ => fleet

structure FleetSystem where
  fleet : StorageFleet
  calls : List QuorumCall

inductive FleetAction where
  | start (request : Request)
  | handle (call node : Nat)
  | receive (call answer : Nat)
  | setState (node : Nat) (state : NodeState)
  | materialize (node : Nat)
  | getKey (mapName : String) (key : Key) (readVersion : Lsn)
  | scanRange (mapName : String) (startKey endKey : Option Key) (readVersion : Lsn)
  deriving DecidableEq, Repr

namespace FleetSystem

def new (fleet : StorageFleet) : FleetSystem := ⟨fleet, []⟩

def handle (sys : FleetSystem) (c i : Nat) : FleetSystem :=
  match sys.calls[c]?, sys.fleet.nodes[i]? with
  | some call, some node =>
    if i ∈ call.waiting then
      let (answer, node) := call.request.serve node
      ⟨sys.fleet.updateNode i fun _ => node, sys.calls.set c (call.answered i answer)⟩
    else sys
  | _, _ => sys

def receive (sys : FleetSystem) (c a : Nat) : FleetSystem :=
  match sys.calls[c]? with
  | none => sys
  | some call =>
    match call.result, call.channel[a]? with
    | none, some answer =>
      let call := { call with channel := call.channel.eraseIdx a }.take sys.fleet.config answer
      ⟨sys.fleet.settle call, sys.calls.set c call⟩
    | _, _ => sys

def step (sys : FleetSystem) : FleetAction → FleetSystem
  | .start request => { sys with calls := sys.calls ++
      [.start request sys.fleet.nodes.length sys.fleet.latestCommittedLsn] }
  | .handle c i => sys.handle c i
  | .receive c a => sys.receive c a
  | .setState i state =>
    { sys with fleet := sys.fleet.updateNode i fun node => node.setState state }
  | .materialize i =>
    { sys with fleet := sys.fleet.updateNode i fun node => node.materializePending.2 }
  | .getKey mapName key readVersion =>
    { sys with fleet := (sys.fleet.getKeyQuorum mapName key readVersion).2 }
  | .scanRange mapName startKey endKey readVersion =>
    { sys with fleet := (sys.fleet.scanRangeQuorum mapName startKey endKey readVersion).2 }

end FleetSystem

end H2Database.Storage
