import H2Database.Graph.Structure

/-!
# Patterns (`h2-graph/src/parser.rs`, `match_pattern` and `execute_merge` in `h2-graph/src/engine.rs`)

A pattern is a chain of nodes joined by edges.  MATCH looks for the nodes its start may stand for, and then
goes along the edges of every candidate; MERGE creates the pattern when MATCH finds nothing.  The steps here
have a fixed length of one edge, and property maps hold literals and parameters.
-/

namespace H2Database.Graph

open Reasoning Mvstore Sql

structure Path where
  nodes : List Node
  edges : List Edge

inductive GraphValue where
  | null
  | boolean (b : Bool)
  | integer (i : Int64)
  | float (bits : UInt64)
  | string (s : String)
  | node (n : Node)
  | edge (e : Edge)
  | path (p : Path)
  | list (items : List GraphValue)
  | map (entries : List (String × GraphValue))

/-- What `serde_json` makes of lists and maps of values. -/
class GraphJson where
  list : List GraphValue → Json
  map : List (String × GraphValue) → Json

def GraphValue.toValue [GraphJson] : GraphValue → Value
  | .null => .null
  | .boolean b => .boolean b
  | .integer i => .bigInt i
  | .float bits => .double bits
  | .string s => .string s
  | .node n =>
    let labels := ":".intercalate n.labels
    .string s!"(:{labels} \x7b{n.id}\x7d)"
  | .edge e => .string s!"[:{e.edgeType} \x7b{e.id}\x7d]"
  | .path p => .string s!"<path len={p.edges.length}>"
  | .list items => .json (GraphJson.list items)
  | .map entries => .json (GraphJson.map entries)

/-- `HashMap<String, GraphValue>`: a row, or parameters. -/
abbrev Bindings := AList fun _ : String => GraphValue

def eqIgnoreAsciiCase (a b : String) : Bool := a.toLower == b.toLower

def Node.hasLabel (node : Node) (label : String) : Bool :=
  node.labels.any fun l => eqIgnoreAsciiCase l label

/-! ## Patterns -/

inductive PropertyExpr where
  | literal (value : GraphValue)
  | parameter (name : String)

/-- `eval_expr`, which looks at the row for neither of the two. -/
def evalExpr (params : Bindings) : PropertyExpr → GraphValue
  | .literal value => value
  | .parameter name => (params.lookup name).getD .null

inductive Direction where
  | outgoing
  | incoming
  | both

structure NodePattern where
  variable_ : Option String
  labels : List String
  properties : List (String × PropertyExpr)

structure EdgePattern where
  variable_ : Option String
  edgeTypes : List String
  properties : List (String × PropertyExpr)
  direction : Direction

structure Pattern where
  start : NodePattern
  chain : List (EdgePattern × NodePattern)

section

variable [Crates] [Codecs] [GraphJson]

def hasProperty (properties : Properties) (params : Bindings) (p : String × PropertyExpr) : Bool :=
  match properties.lookup p.1 with
  | some actual => actual.eq (evalExpr params p.2).toValue
  | none => false

def nodeMatchesPattern (node : Node) (pattern : NodePattern) (params : Bindings) : Bool :=
  pattern.labels.all node.hasLabel && pattern.properties.all (hasProperty node.properties params)

/-- What is left of the edges.  The parameters of the query do not come as far as the edge's properties. -/
def retains (edgePat : EdgePattern) (edge : Edge) : Bool :=
  (decide (edgePat.edgeTypes.length ≤ 1) || edgePat.edgeTypes.any fun t =>
    eqIgnoreAsciiCase t edge.edgeType) &&
    edgePat.properties.all (hasProperty edge.properties ∅)

def bindVariable (variable_ : Option String) (value : GraphValue) (bindings : Bindings) : Bindings :=
  match variable_ with
  | some v => bindings.insert v value
  | none => bindings

/-- One map over another: `for (k, v) in new { row.insert(k, v) }`. -/
def insertAll (row new : Bindings) : Bindings :=
  new.entries.foldl (fun row p => row.insert p.1 p.2) row

def boundNode (row : Bindings) (variable_ : Option String) : Option Node :=
  match variable_.bind row.lookup with
  | some (.node n) => some n
  | _ => none

structure Active where
  node : Node
  bindings : Bindings
  path : Path

def stepBindings (edgePat : EdgePattern) (nodePat : NodePattern) (edge : Edge) (next : Node) : Bindings :=
  bindVariable nodePat.variable_ (.node next) (bindVariable edgePat.variable_ (.edge edge) ∅)

def otherEnd (edge : Edge) (nodeId : UInt64) : UInt64 :=
  if edge.srcId = nodeId then edge.dstId else edge.srcId

namespace GraphStore

def findNodesByLabelAndProp (g : GraphStore) (seen : Visible) (label propKey : String) (propVal : Value) :
    H2Result (List Node) :=
  g.nodesBehind seen [] (seen.scanPrefix g.idxLabelMap (encodeLabelIdxPrefix label (some (propKey, propVal))))

omit [Crates] [GraphJson] in
def nodesIn : List (Key × List UInt8) → H2Result (List Node)
  | [] => .ok []
  | (_, bytes) :: entries =>
    match Codecs.node.deserialize bytes with
    | .error e => .error (.serialization s!"Node deserialization error: {e}")
    | .ok node => (nodesIn entries).map (node :: ·)

def allNodes (g : GraphStore) (seen : Visible) : H2Result (List Node) := nodesIn (seen.scan g.nodesMap)

def candidates (g : GraphStore) (seen : Visible) (pattern : NodePattern) (params : Bindings) :
    H2Result (List Node) :=
  match pattern.labels with
  | firstLabel :: _ =>
    match pattern.properties with
    | (propKey, propExpr) :: _ =>
      g.findNodesByLabelAndProp seen firstLabel propKey (evalExpr params propExpr).toValue
    | [] => g.findNodesByLabel seen firstLabel
  | [] => g.allNodes seen

def findCandidateNodes (g : GraphStore) (seen : Visible) (pattern : NodePattern) (row params : Bindings) :
    H2Result (List Node) :=
  match boundNode row pattern.variable_ with
  | some node => .ok (if nodeMatchesPattern node pattern params then [node] else [])
  | none => (g.candidates seen pattern params).map
      (List.filter fun node => nodeMatchesPattern node pattern params)

/-- `dedup_by_key` by the number, after `last`. -/
def dedupFrom (last : Edge) : List Edge → List Edge
  | [] => []
  | e :: edges => if e.id = last.id then dedupFrom last edges else e :: dedupFrom e edges

def dedupById : List Edge → List Edge
  | [] => []
  | e :: edges => e :: dedupFrom e edges

def edgesTowards (g : GraphStore) (lossy : List UInt8 → String) (seen : Visible) (nodeId : UInt64)
    (typeFilter : Option String) : Direction → H2Result (List Edge)
  | .outgoing => g.getOutEdges lossy seen nodeId typeFilter
  | .incoming => g.getInEdges lossy seen nodeId typeFilter
  | .both =>
    match g.getOutEdges lossy seen nodeId typeFilter, g.getInEdges lossy seen nodeId typeFilter with
    | .error e, _ => .error e
    | .ok _, .error e => .error e
    | .ok out, .ok inc => .ok (dedupById ((out ++ inc).mergeSort fun a b => a.id ≤ b.id))

def getMatchingEdges (g : GraphStore) (lossy : List UInt8 → String) (seen : Visible) (nodeId : UInt64)
    (edgePat : EdgePattern) : H2Result (List Edge) :=
  (g.edgesTowards lossy seen nodeId edgePat.edgeTypes.head? edgePat.direction).map
    (List.filter (retains edgePat))

/-- The loop of `expand_step` over the edges. -/
def expandEdges (g : GraphStore) (seen : Visible) (edgePat : EdgePattern) (nodePat : NodePattern)
    (params : Bindings)
    (curr : Active) : List Edge → H2Result (List Active)
  | [] => .ok []
  | edge :: edges =>
    if curr.path.edges.any fun e => e.id == edge.id then expandEdges g seen edgePat nodePat params curr edges
    else
      match g.getNode seen (otherEnd edge curr.node.id) with
      | .error e => .error e
      | .ok none => expandEdges g seen edgePat nodePat params curr edges
      | .ok (some next) =>
        if nodeMatchesPattern next nodePat params then
          (expandEdges g seen edgePat nodePat params curr edges).map
            (⟨next, insertAll curr.bindings (stepBindings edgePat nodePat edge next),
              ⟨curr.path.nodes ++ [next], curr.path.edges ++ [edge]⟩⟩ :: ·)
        else expandEdges g seen edgePat nodePat params curr edges

def expandStep (g : GraphStore) (lossy : List UInt8 → String) (seen : Visible) (edgePat : EdgePattern)
    (nodePat : NodePattern) (params : Bindings) (curr : Active) : H2Result (List Active) :=
  match g.getMatchingEdges lossy seen curr.node.id edgePat with
  | .error e => .error e
  | .ok edges => g.expandEdges seen edgePat nodePat params curr edges

def expandAll (g : GraphStore) (lossy : List UInt8 → String) (seen : Visible) (edgePat : EdgePattern)
    (nodePat : NodePattern) (params : Bindings) : List Active → H2Result (List Active)
  | [] => .ok []
  | curr :: active =>
    match g.expandStep lossy seen edgePat nodePat params curr with
    | .error e => .error e
    | .ok next => (expandAll g lossy seen edgePat nodePat params active).map (next ++ ·)

def expandChain (g : GraphStore) (lossy : List UInt8 → String) (seen : Visible) (params : Bindings) :
    List (EdgePattern × NodePattern) → List Active → H2Result (List Active)
  | [], active => .ok active
  | (edgePat, nodePat) :: chain, active =>
    match g.expandAll lossy seen edgePat nodePat params active with
    | .error e => .error e
    | .ok [] => .ok []
    | .ok (next :: rest) => expandChain g lossy seen params chain (next :: rest)

def matchFrom (g : GraphStore) (lossy : List UInt8 → String) (seen : Visible) (pattern : Pattern)
    (params : Bindings) :
    List Node → H2Result (List Active)
  | [] => .ok []
  | start :: starts =>
    match g.expandChain lossy seen params pattern.chain
        [⟨start, bindVariable pattern.start.variable_ (.node start) ∅, ⟨[start], []⟩⟩] with
    | .error e => .error e
    | .ok found => (matchFrom g lossy seen pattern params starts).map (found ++ ·)

def matchPattern (g : GraphStore) (lossy : List UInt8 → String) (seen : Visible) (pattern : Pattern)
    (row params : Bindings) : H2Result (List (Bindings × Path)) :=
  match g.findCandidateNodes seen pattern.start row params with
  | .error e => .error e
  | .ok starts => (g.matchFrom lossy seen pattern params starts).map (List.map fun a => (a.bindings, a.path))

end GraphStore

/-! ## MERGE -/

structure Working where
  store : GraphStore
  view : View

/-- The properties that a new node or edge gets; of two values for one key the later one stays. -/
def evalProperties (params : Bindings) (properties : List (String × PropertyExpr)) : Properties :=
  properties.foldl (fun props p => props.insert p.1 (evalExpr params p.2).toValue) ∅

def instantiateNode (w : Working) (pattern : NodePattern) (row params : Bindings) :
    H2Result (Node × Bindings) × Working :=
  match boundNode row pattern.variable_ with
  | some existing => (.ok (existing, row), w)
  | none =>
    let (result, store, view) :=
      w.store.createNode w.view pattern.labels (evalProperties params pattern.properties)
    (result.map fun node => (node, bindVariable pattern.variable_ (.node node) row), ⟨store, view⟩)

def createChain (params : Bindings) :
    List (EdgePattern × NodePattern) → Working → Node → Bindings → H2Result Bindings × Working
  | [], w, _, row => (.ok row, w)
  | (edgePat, nodePat) :: chain, w, prev, row =>
    match instantiateNode w nodePat row params with
    | (.error e, w) => (.error e, w)
    | (.ok (target, row), w) =>
      let (srcId, dstId) :=
        match edgePat.direction with
        | .outgoing | .both => (prev.id, target.id)
        | .incoming => (target.id, prev.id)
      match w.store.createEdge w.view (edgePat.edgeTypes.head?.getD "RELATED_TO") srcId dstId
          (evalProperties params edgePat.properties) with
      | (.error e, store, view) => (.error e, ⟨store, view⟩)
      | (.ok edge, store, view) =>
        createChain params chain ⟨store, view⟩ target (bindVariable edgePat.variable_ (.edge edge) row)

/-- `execute_create` for one row. -/
def createPattern (w : Working) (pattern : Pattern) (row params : Bindings) : H2Result Bindings × Working :=
  match instantiateNode w pattern.start row params with
  | (.error e, w) => (.error e, w)
  | (.ok (start, row), w) => createChain params pattern.chain w start row

/-- `SetItems` is what ON CREATE SET and ON MATCH SET hold. -/
structure MergeClause (SetItems : Type) where
  pattern : Pattern
  onCreateSets : SetItems
  onMatchSets : SetItems

/-- What `apply_set_item` makes of the graph and the row, for all the items. -/
abbrev ApplySets (SetItems : Type) := SetItems → Working → Bindings → Bindings → H2Result Bindings × Working

variable {SetItems : Type}

def mergeFound (applySets : ApplySets SetItems) (w : Working) (clause : MergeClause SetItems)
    (row params found : Bindings) : H2Result Bindings × Working :=
  applySets clause.onMatchSets w (insertAll row found) params

def mergeCreate (applySets : ApplySets SetItems) (w : Working) (clause : MergeClause SetItems)
    (row params : Bindings) : H2Result Bindings × Working :=
  match createPattern w clause.pattern row params with
  | (.error e, w) => (.error e, w)
  | (.ok created, w) => applySets clause.onCreateSets w created params

def mergeRow (applySets : ApplySets SetItems) (lossy : List UInt8 → String) (w : Working)
    (clause : MergeClause SetItems) (row params : Bindings) : H2Result Bindings × Working :=
  match w.store.matchPattern lossy w.view.seen clause.pattern row params with
  | .error e => (.error e, w)
  | .ok ((firstBindings, _) :: _) => mergeFound applySets w clause row params firstBindings
  | .ok [] => mergeCreate applySets w clause row params

end

end H2Database.Graph
