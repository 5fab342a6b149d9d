import H2Database.Mvstore.Codec
import H2Database.Sql.IndexEntries
import Mathlib.Data.List.AList

/-!
# The graph store (`h2-graph/src/model.rs`, `h2-graph/src/store.rs`)

A graph keeps its nodes and its edges by number, both sides of every edge in an adjacency map, and the
labels of the nodes, alone and with each property, in an index.  `Codecs` is what `bincode` makes of
nodes and edges and `serde_json` of a property's value.
-/

namespace H2Database.Graph

open Reasoning Mvstore Sql

/-- A `HashMap`, in the order in which it is gone through. -/
abbrev Properties := AList fun _ : String => Value

structure Node where
  id : UInt64
  labels : List String
  properties : Properties

structure Edge where
  id : UInt64
  edgeType : String
  srcId : UInt64
  dstId : UInt64
  properties : Properties

class Codecs where
  node : Bincode Node
  edge : Bincode Edge
  json : Value → List UInt8

def idKey (id : UInt64) : Key := beBytes 8 id.toNat

theorem fromBe_idKey (id : UInt64) : fromBe (idKey id) = id.toNat :=
  fromBe_beBytes_of_lt (UInt64.toNat_lt id)

theorem idKey_inj {id id' : UInt64} : idKey id = idKey id' ↔ id = id' := by
  refine ⟨fun h => ?_, congrArg idKey⟩
  rw [← UInt64.toNat_inj, ← fromBe_idKey, h, fromBe_idKey]

theorem lt_add_one_of_room {id : UInt64} (h : id.toNat + 1 < 2 ^ 64) : id < id + 1 := by
  rw [UInt64.lt_iff_toNat_lt, UInt64.toNat_add, UInt64.toNat_one, Nat.mod_eq_of_lt h]
  exact Nat.lt_succ_self _

@[simp] theorem length_idKey (id : UInt64) : (idKey id).length = 8 := length_beBytes 8 _

def encodeAdjKey (nodeId : UInt64) (edgeType : Option String) (edgeId : Option UInt64) : Key :=
  match edgeType, edgeId with
  | some t, some e => idKey nodeId ++ 1 :: (utf8 t ++ 0 :: idKey e)
  | some t, none => idKey nodeId ++ 1 :: (utf8 t ++ [0])
  | none, some e => idKey nodeId ++ 2 :: idKey e
  | none, none => idKey nodeId

/-- The type is read as far as its terminator, and bytes that are no text are replaced in it. -/
def decodeAdjKey (lossy : List UInt8 → String) (bytes : Key) : Option (UInt64 × String × UInt64) :=
  if bytes.length ≤ 8 then none
  else
    let nodeId := UInt64.ofNat (fromBe (bytes.take 8))
    let rest := bytes.drop 9
    if bytes[8]? = some 1 then
      let edgeType := rest.takeWhile (· ≠ 0)
      let tail := rest.drop (edgeType.length + 1)
      if edgeType.length < rest.length ∧ 8 ≤ tail.length then
        some (nodeId, lossy edgeType, UInt64.ofNat (fromBe (tail.take 8)))
      else none
    else if bytes[8]? = some 2 ∧ 17 ≤ bytes.length then
      some (nodeId, "", UInt64.ofNat (fromBe (rest.take 8)))
    else none

section

variable [Codecs]

def encodeLabelIdxPrefix (label : String) (prop : Option (String × Value)) : Key :=
  match prop with
  | none => utf8 label ++ [0]
  | some (key, val) => utf8 label ++ 0 :: (utf8 key ++ 0 :: (Codecs.json val ++ [0]))

def encodeLabelIdxKey (label : String) (prop : Option (String × Value)) (nodeId : UInt64) : Key :=
  encodeLabelIdxPrefix label prop ++ idKey nodeId

end

/-- A graph's maps are named by the graph; the counters belong to the object. -/
structure GraphStore where
  graphName : String
  nextNodeId : UInt64
  nextEdgeId : UInt64
  deriving DecidableEq

def graphMap (graphName part : String) : String := s!"_g_{graphName}_" ++ part

@[simp] theorem graphMap_inj {graphName part part' : String} :
    graphMap graphName part = graphMap graphName part' ↔ part = part' :=
  String.append_right_inj _

namespace GraphStore

def nodesMap (g : GraphStore) : String := graphMap g.graphName "nodes"

def edgesMap (g : GraphStore) : String := graphMap g.graphName "edges"

def adjOutMap (g : GraphStore) : String := graphMap g.graphName "adj_out"

def adjInMap (g : GraphStore) : String := graphMap g.graphName "adj_in"

def idxLabelMap (g : GraphStore) : String := graphMap g.graphName "idx_label"

def metaMap (g : GraphStore) : String := graphMap g.graphName "meta"

/-- What `alloc_node_id` writes after it has drawn the number. -/
def noteNodeId (g : GraphStore) : Write :=
  .put g.metaMap (utf8 "next_node_id") (idKey (g.nextNodeId + 1))

def noteEdgeId (g : GraphStore) : Write :=
  .put g.metaMap (utf8 "next_edge_id") (idKey (g.nextEdgeId + 1))

variable [Codecs]

def getNode (g : GraphStore) (seen : Visible) (id : UInt64) : H2Result (Option Node) :=
  match seen.get g.nodesMap (idKey id) with
  | none => .ok none
  | some bytes =>
    match Codecs.node.deserialize bytes with
    | .error e => .error (.serialization s!"Node deserialization error: {e}")
    | .ok node => .ok (some node)

def getEdge (g : GraphStore) (seen : Visible) (id : UInt64) : H2Result (Option Edge) :=
  match seen.get g.edgesMap (idKey id) with
  | none => .ok none
  | some bytes =>
    match Codecs.edge.deserialize bytes with
    | .error e => .error (.serialization s!"Edge deserialization error: {e}")
    | .ok edge => .ok (some edge)

def edgesBehind (g : GraphStore) (lossy : List UInt8 → String) (seen : Visible) :
    List (Key × List UInt8) → H2Result (List Edge)
  | [] => .ok []
  | (k, _) :: entries =>
    match decodeAdjKey lossy k with
    | none => edgesBehind g lossy seen entries
    | some (_, _, edgeId) =>
      match g.getEdge seen edgeId with
      | .error e => .error e
      | .ok none => edgesBehind g lossy seen entries
      | .ok (some edge) => (edgesBehind g lossy seen entries).map (edge :: ·)

def getOutEdges (g : GraphStore) (lossy : List UInt8 → String) (seen : Visible) (srcId : UInt64)
    (edgeType : Option String) : H2Result (List Edge) :=
  g.edgesBehind lossy seen (seen.scanPrefix g.adjOutMap (encodeAdjKey srcId edgeType none))

def getInEdges (g : GraphStore) (lossy : List UInt8 → String) (seen : Visible) (dstId : UInt64)
    (edgeType : Option String) : H2Result (List Edge) :=
  g.edgesBehind lossy seen (seen.scanPrefix g.adjInMap (encodeAdjKey dstId edgeType none))

def nodesBehind (g : GraphStore) (seen : Visible) :
    List UInt64 → List (Key × List UInt8) → H2Result (List Node)
  | _, [] => .ok []
  | found, (_, v) :: entries =>
    if v.length = 8 then
      let nodeId := UInt64.ofNat (fromBe v)
      if nodeId ∈ found then nodesBehind g seen found entries
      else
        match g.getNode seen nodeId with
        | .error e => .error e
        | .ok none => nodesBehind g seen (nodeId :: found) entries
        | .ok (some node) => (nodesBehind g seen (nodeId :: found) entries).map (node :: ·)
    else nodesBehind g seen found entries

def findNodesByLabel (g : GraphStore) (seen : Visible) (label : String) : H2Result (List Node) :=
  g.nodesBehind seen [] (seen.scanPrefix g.idxLabelMap (encodeLabelIdxPrefix label none))

def labelEntries (node : Node) : List Key :=
  node.labels.flatMap fun label =>
    encodeLabelIdxKey label none node.id ::
      node.properties.entries.map fun p => encodeLabelIdxKey label (some (p.1, p.2)) node.id

def saveNodeWrites (g : GraphStore) (node : Node) : H2Result (List Write) :=
  match Codecs.node.serialize node with
  | .error e => .error (.serialization s!"Node serialization error: {e}")
  | .ok bytes => .ok (.put g.nodesMap (idKey node.id) bytes ::
      (labelEntries node).map fun key => .put g.idxLabelMap key (idKey node.id))

def outKey (edge : Edge) : Key := encodeAdjKey edge.srcId (some edge.edgeType) (some edge.id)

def inKey (edge : Edge) : Key := encodeAdjKey edge.dstId (some edge.edgeType) (some edge.id)

def saveEdgeWrites (g : GraphStore) (edge : Edge) : H2Result (List Write) :=
  match Codecs.edge.serialize edge with
  | .error e => .error (.serialization s!"Edge serialization error: {e}")
  | .ok bytes => .ok [.put g.edgesMap (idKey edge.id) bytes,
      .put g.adjOutMap (outKey edge) (idKey edge.dstId), .put g.adjInMap (inKey edge) (idKey edge.srcId)]

def apply (view : View) : H2Result (List Write) → H2Result Unit × View
  | .error e => (.error e, view)
  | .ok writes => (.ok (), view.writeAll writes)

def saveNode (g : GraphStore) (view : View) (node : Node) : H2Result Unit × View :=
  apply view (g.saveNodeWrites node)

def saveEdge (g : GraphStore) (view : View) (edge : Edge) : H2Result Unit × View :=
  apply view (g.saveEdgeWrites edge)

def createNode (g : GraphStore) (view : View) (labels : List String) (properties : Properties) :
    H2Result Node × GraphStore × View :=
  let node : Node := ⟨g.nextNodeId, labels, properties⟩
  let (result, view) := g.saveNode (view.write g.noteNodeId) node
  (result.map fun _ => node, { g with nextNodeId := g.nextNodeId + 1 }, view)

def createEdge (g : GraphStore) (view : View) (edgeType : String) (srcId dstId : UInt64)
    (properties : Properties) : H2Result Edge × GraphStore × View :=
  match g.getNode view.seen srcId, g.getNode view.seen dstId with
  | .error e, _ => (.error e, g, view)
  | .ok none, _ => (.error (.execution s!"Source node {srcId} not found"), g, view)
  | .ok (some _), .error e => (.error e, g, view)
  | .ok (some _), .ok none => (.error (.execution s!"Target node {dstId} not found"), g, view)
  | .ok (some _), .ok (some _) =>
    let edge : Edge := ⟨g.nextEdgeId, edgeType, srcId, dstId, properties⟩
    let (result, view) := g.saveEdge (view.write g.noteEdgeId) edge
    (result.map fun _ => edge, { g with nextEdgeId := g.nextEdgeId + 1 }, view)

def deleteEdge (g : GraphStore) (view : View) (id : UInt64) : H2Result Bool × View :=
  match g.getEdge view.seen id with
  | .error e => (.error e, view)
  | .ok none => (.ok false, view)
  | .ok (some edge) => (.ok true, view.writeAll
      [.remove g.adjOutMap (outKey edge), .remove g.adjInMap (inKey edge), .remove g.edgesMap (idKey id)])

def deleteEdges (g : GraphStore) : View → List Edge → H2Result Unit × View
  | view, [] => (.ok (), view)
  | view, edge :: edges =>
    match g.deleteEdge view edge.id with
    | (.error e, view) => (.error e, view)
    | (.ok _, view) => deleteEdges g view edges

def deleteNode (g : GraphStore) (lossy : List UInt8 → String) (view : View) (id : UInt64)
    (detach : Bool) : H2Result Bool × View :=
  match g.getNode view.seen id with
  | .error e => (.error e, view)
  | .ok none => (.ok false, view)
  | .ok (some node) =>
    match g.getOutEdges lossy view.seen id none, g.getInEdges lossy view.seen id none with
    | .error e, _ => (.error e, view)
    | .ok _, .error e => (.error e, view)
    | .ok outEdges, .ok inEdges =>
      if !detach && (!outEdges.isEmpty || !inEdges.isEmpty) then
        (.error (.execution s!"Cannot delete node {id} because it still has relationships. Use DETACH DELETE to remove relationships as well."), view)
      else
        match g.deleteEdges view (outEdges ++ inEdges) with
        | (.error e, view) => (.error e, view)
        | (.ok (), view) => (.ok true, view.writeAll
            (((labelEntries node).map fun key => .remove g.idxLabelMap key) ++
              [.remove g.nodesMap (idKey id)]))

end GraphStore

/-- The layouts of `bincode` for nodes and edges without properties. -/
@[reducible] def plainCodecs : Codecs where
  node := Bincode.ofCoder (Coder.iso (.pair (.uint 8) (.pair (.vec .text) (.uint 8)))
    (fun p => ⟨UInt64.ofNat p.1, p.2.1, ∅⟩) (fun n => (n.id.toNat, n.labels, 0)))
  edge := Bincode.ofCoder (Coder.iso
    (.pair (.uint 8) (.pair .text (.pair (.uint 8) (.pair (.uint 8) (.uint 8)))))
    (fun p => ⟨UInt64.ofNat p.1, p.2.1, UInt64.ofNat p.2.2.1, UInt64.ofNat p.2.2.2.1, ∅⟩)
    (fun e => (e.id.toNat, e.edgeType, e.srcId.toNat, e.dstId.toNat, 0)))
  json _ := []

end H2Database.Graph
