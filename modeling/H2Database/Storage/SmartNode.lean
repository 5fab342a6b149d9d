import H2Database.Mvstore.Tracking

/-!
# Storage nodes (`h2/src/storage/smart_node.rs`)

A storage node appends the log records it is sent, applies them to its maps in the background, and
answers reads from its maps with the records that are not applied yet laid over them.  Here every call of a
node is carried out at once; the code has no lock around a call, and `Storage.Threads` takes the calls apart.
The in-memory store behind a node is an `MVStore` whose file nothing reads.  The availability zone, the
simulated delay and `get_page`, which reads no data, are left out.
-/

namespace H2Database.Storage

open Mvstore

inductive NodeState where
  | online
  | paused
  | offline
  deriving DecidableEq, Repr

structure SmartStorageNode where
  nodeId : Nat
  walBuffer : List LogRecord
  flushedLsn : Lsn
  appliedLsn : Lsn
  materializedStore : MVStore (List UInt8)
  currentFencingToken : FencingToken
  state : NodeState

namespace SmartStorageNode

def new (nodeId : Nat) : SmartStorageNode where
  nodeId := nodeId
  walBuffer := []
  flushedLsn := 0
  appliedLsn := 0
  materializedStore := .new
  currentFencingToken := 1
  state := .online

def offlineError (node : SmartStorageNode) : H2Error := .storage s!"Node {node.nodeId} is OFFLINE"

def acquireLease (node : SmartStorageNode) (token : FencingToken) :
    H2Result Unit × SmartStorageNode :=
  if token < node.currentFencingToken then
    (.error (.storage s!"Node {node.nodeId}: Rejected fencing token {token} < current {node.currentFencingToken}"), node)
  else (.ok (), { node with currentFencingToken := token })

def setState (node : SmartStorageNode) (state : NodeState) : SmartStorageNode :=
  { node with state }

/-- The greatest of `start` and the LSNs of the records. -/
def maxLsn (start : Lsn) (records : List LogRecord) : Lsn :=
  records.foldl (fun m r => max m r.lsn) start

def appendLogs (node : SmartStorageNode) (records : List LogRecord) (token : FencingToken) :
    H2Result Lsn × SmartStorageNode :=
  if node.state = .offline then (.error node.offlineError, node)
  else if token < node.currentFencingToken then
    (.error (.storage s!"Node {node.nodeId}: Fencing token violation. Incoming token {token} < node token {node.currentFencingToken}"), node)
  else
    (.ok (maxLsn node.flushedLsn records),
      { node with
        walBuffer := node.walBuffer ++ records
        flushedLsn := maxLsn node.flushedLsn records })

/-- One record in the loop of `materialize_pending`. -/
def applyRecord (store : MVStore (List UInt8)) (rec : LogRecord) : MVStore (List UInt8) :=
  match rec.opType with
  | .put =>
    match rec.value with
    | some val =>
      let (map, store) := store.openMap rec.mapName
      store.update map fun m => m.put rec.key val
    | none => store
  | .delete =>
    let (map, store) := store.openMap rec.mapName
    store.update map fun m => (m.remove rec.key).1
  | .truncateMap | .dropMap =>
    let (map, store) := store.openMap rec.mapName
    store.update map MVMap.clear
  | .commit => (store.checkpoint .done).2
  | .rollback | .createMap => store

def logsToApply (node : SmartStorageNode) : List LogRecord :=
  node.walBuffer.filter fun r => node.appliedLsn < r.lsn ∧ r.lsn ≤ node.flushedLsn

def materializePending (node : SmartStorageNode) : Nat × SmartStorageNode :=
  if node.state = .offline then (0, node)
  else if node.flushedLsn ≤ node.appliedLsn then (0, node)
  else
    (node.logsToApply.length,
      { node with
        materializedStore := node.logsToApply.foldl applyRecord node.materializedStore
        appliedLsn := maxLsn node.appliedLsn node.logsToApply })

def unapplied (node : SmartStorageNode) (readVersion : Lsn) : List LogRecord :=
  node.walBuffer.filter fun r => node.appliedLsn < r.lsn ∧ r.lsn ≤ readVersion

/-- One record in the overlay of `get_key`, which lets truncations pass. -/
def overlayKey (base : Option (List UInt8)) (rec : LogRecord) : Option (List UInt8) :=
  match rec.opType with
  | .put => rec.value
  | .delete => none
  | _ => base

def getKey (node : SmartStorageNode) (mapName : String) (key : Key) (readVersion : Lsn) :
    H2Result (Option (List UInt8)) × SmartStorageNode :=
  if node.state = .offline then (.error node.offlineError, node)
  else
    let (map, store) := node.materializedStore.openMap mapName
    let baseVal := (store.maps.deref map).bind fun m => m.get key
    let overlay := (node.unapplied readVersion).filter fun r => r.mapName = mapName ∧ r.key = key
    (.ok (if node.appliedLsn < readVersion then overlay.foldl overlayKey baseVal else baseVal),
      { node with materializedStore := store })

/-- One record in the overlay of `scan_range`, over the sorted entries of the map. -/
def overlayEntries (merged : List (Entry Key (List UInt8))) (rec : LogRecord) :
    List (Entry Key (List UInt8)) :=
  match rec.opType with
  | .put =>
    match rec.value with
    | some val => Page.leafPut merged rec.key val
    | none => merged
  | .delete => Page.leafRemove merged rec.key
  | .truncateMap | .dropMap => []
  | _ => merged

def inRange (startKey endKey : Option Key) (key : Key) : Bool :=
  startKey.all (fun start => !decide (key < start)) && endKey.all (fun stop => !decide (stop < key))

def scanRange (node : SmartStorageNode) (mapName : String) (startKey endKey : Option Key)
    (readVersion : Lsn) : H2Result (List (Entry Key (List UInt8))) × SmartStorageNode :=
  if node.state = .offline then (.error node.offlineError, node)
  else
    let (map, store) := node.materializedStore.openMap mapName
    let merged := (store.maps.deref map).elim [] fun m => m.tree.scanAll
    let overlay := (node.unapplied readVersion).filter fun r => r.mapName = mapName
    let merged :=
      if node.appliedLsn < readVersion then overlay.foldl overlayEntries merged else merged
    (.ok (merged.filter fun e => inRange startKey endKey e.key),
      { node with materializedStore := store })

def missingLogs (node peer : SmartStorageNode) : List LogRecord :=
  peer.walBuffer.filter fun r => node.flushedLsn < r.lsn ∧ r.lsn ≤ peer.flushedLsn

def gossipSyncFrom (node peer : SmartStorageNode) : H2Result Nat × SmartStorageNode :=
  if node.state = .offline then (.error node.offlineError, node)
  else if peer.flushedLsn ≤ node.flushedLsn then (.ok 0, node)
  else if (node.missingLogs peer).length = 0 then (.ok 0, node)
  else
    (.ok (node.missingLogs peer).length,
      { node with
        walBuffer := node.walBuffer ++ node.missingLogs peer
        flushedLsn := maxLsn node.flushedLsn (node.missingLogs peer) }.materializePending.2)

end SmartStorageNode

end H2Database.Storage
