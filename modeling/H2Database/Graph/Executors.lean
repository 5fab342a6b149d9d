import H2Database.Graph.Structure

/-!
# Calls of the Cypher executors (`h2-graph/src/engine.rs`)

CREATE, MERGE, SET and DELETE work on rows that hold copies of nodes and edges.  SET writes a property or a
label into the copy and saves the copy: what it saves is there, an edge lies where it lay, but the labels of
the copy are those that the node had when MATCH read it, and another variable of the row, or another row,
may have given it a label since.  `save_node` enters the labels of the copy in the index and leaves those
that the copy does not have.
-/

namespace H2Database.Graph

open Reasoning Mvstore Sql

structure GraphState where
  store : GraphStore
  view : View
  committed : View

inductive GraphCall where
  | createNode (labels : List String) (properties : Properties)
  | createEdge (edgeType : String) (srcId dstId : UInt64) (properties : Properties)
  | saveNode (node : Node)
  | saveEdge (edge : Edge)
  | deleteEdge (id : UInt64)
  | deleteNode (id : UInt64) (detach : Bool)
  | commit
  | rollback

section

variable [Codecs]

namespace GraphState

def new (graphName : String) : GraphState := ⟨⟨graphName, 1, 1⟩, .empty, .empty⟩

def step (lossy : List UInt8 → String) (s : GraphState) : GraphCall → GraphState
  | .createNode labels properties =>
    let (_, store, view) := s.store.createNode s.view labels properties
    { s with store, view }
  | .createEdge edgeType srcId dstId properties =>
    let (_, store, view) := s.store.createEdge s.view edgeType srcId dstId properties
    { s with store, view }
  | .saveNode node => { s with view := (s.store.saveNode s.view node).2 }
  | .saveEdge edge => { s with view := (s.store.saveEdge s.view edge).2 }
  | .deleteEdge id => { s with view := (s.store.deleteEdge s.view id).2 }
  | .deleteNode id detach => { s with view := (s.store.deleteNode lossy s.view id detach).2 }
  | .commit => { s with committed := s.view }
  | .rollback => { s with view := s.committed }

/-! ## The property -/

/-- The edges of a view have their ends, the adjacency maps mirror them, and the lookups are exact. -/
structure Structured (lossy : List UInt8 → String) (g : GraphStore) (view : View) : Prop where
  edges : ∀ k bytes, (view g.edgesMap).get k = some bytes →
    ∃ e, Codecs.edge.deserialize bytes = .ok e ∧ k = idKey e.id ∧ g.HasEdge view.seen e
  nodes : ∀ k bytes, (view g.nodesMap).get k = some bytes →
    ∃ n, Codecs.node.deserialize bytes = .ok n ∧ k = idKey n.id ∧ g.HasNode view.seen n
  ends : ∀ e, g.HasEdge view.seen e →
    (∃ n, g.HasNode view.seen n ∧ n.id = e.srcId) ∧ ∃ n, g.HasNode view.seen n ∧ n.id = e.dstId
  adjOut : ∀ k, ((view g.adjOutMap).get k).isSome ↔
    ∃ e, g.HasEdge view.seen e ∧ k = GraphStore.outKey e
  adjIn : ∀ k, ((view g.adjInMap).get k).isSome ↔
    ∃ e, g.HasEdge view.seen e ∧ k = GraphStore.inKey e
  outEdges : ∀ srcId edgeType, (∀ t ∈ edgeType, NulFree t) →
    ∃ edges, g.getOutEdges lossy view.seen srcId edgeType = .ok edges ∧ (edges.map Edge.id).Nodup ∧
      ∀ e, e ∈ edges ↔ g.HasEdge view.seen e ∧ e.srcId = srcId ∧ ∀ t ∈ edgeType, e.edgeType = t
  inEdges : ∀ dstId edgeType, (∀ t ∈ edgeType, NulFree t) →
    ∃ edges, g.getInEdges lossy view.seen dstId edgeType = .ok edges ∧ (edges.map Edge.id).Nodup ∧
      ∀ e, e ∈ edges ↔ g.HasEdge view.seen e ∧ e.dstId = dstId ∧ ∀ t ∈ edgeType, e.edgeType = t
  labels : ∀ label, NulFree label → ∃ nodes, g.findNodesByLabel view.seen label = .ok nodes ∧
    (nodes.map Node.id).Nodup ∧ ∀ n, n ∈ nodes ↔ g.HasNode view.seen n ∧ label ∈ n.labels

/-- A call as the executors make it: a node or an edge that is saved is there, an edge between the same
nodes and of the same type, labels and types are without zero bytes, `bincode` reads back what it writes,
and the counters do not overflow. -/
def Issued (s : GraphState) : GraphCall → Prop
  | .createNode labels properties => (∀ label ∈ labels, NulFree label) ∧
      s.store.nextNodeId.toNat + 1 < 2 ^ 64 ∧
      ∃ node' bytes, Codecs.ReadsNode ⟨s.store.nextNodeId, labels, properties⟩ node' bytes
  | .createEdge edgeType srcId dstId properties => NulFree edgeType ∧
      s.store.nextEdgeId.toNat + 1 < 2 ^ 64 ∧
      ∃ edge' bytes, Codecs.ReadsEdge ⟨s.store.nextEdgeId, edgeType, srcId, dstId, properties⟩ edge' bytes
  | .saveNode node => (∀ label ∈ node.labels, NulFree label) ∧
      (∃ n, s.store.HasNode s.view.seen n ∧ n.id = node.id) ∧ ∃ node' bytes, Codecs.ReadsNode node node' bytes
  | .saveEdge edge => (∃ e, s.store.HasEdge s.view.seen e ∧ e.id = edge.id ∧ e.edgeType = edge.edgeType ∧
      e.srcId = edge.srcId ∧ e.dstId = edge.dstId) ∧ ∃ edge' bytes, Codecs.ReadsEdge edge edge' bytes
  | .deleteEdge _ | .deleteNode _ _ | .commit | .rollback => True

def KeepsLabels (s : GraphState) : GraphCall → Prop
  | .saveNode node => ∀ n, s.store.HasNode s.view.seen n → n.id = node.id → n.labels ⊆ node.labels
  | _ => True

end GraphState

/-! ## Consistent views are structured -/

namespace GraphStore

variable {g : GraphStore} {view : View}

theorem Consistent.findNodesByLabel (h : g.Consistent view) {label : String} (hfree : NulFree label) :
    ∃ nodes, g.findNodesByLabel view.seen label = .ok nodes ∧ (nodes.map Node.id).Nodup ∧
      ∀ n, n ∈ nodes ↔ g.HasNode view.seen n ∧ label ∈ n.labels := by
  have hget : ∀ id, ∃ o, g.getNode view.seen id = .ok o ∧ ∀ n ∈ o, n.id = id := by
    intro id
    obtain ⟨o, ho, hall⟩ := h.node id
    exact ⟨o, ho, fun n hn => (hall n hn).1⟩
  obtain ⟨nodes, heq, hnodup, hmem⟩ := nodesBehind_spec hget []
    (view.seen.scanPrefix g.idxLabelMap (encodeLabelIdxPrefix label none))
  refine ⟨nodes, heq, hnodup, fun n => ?_⟩
  rw [hmem n]
  refine and_congr_right fun hn => ?_
  constructor
  · rintro ⟨_, p, hp, hkey⟩
    obtain ⟨hscan, hpre⟩ := List.mem_filter.mp hp
    obtain ⟨label', rest, id, hfree', hk, hv, _, hall⟩ := h.entries _ _ (View.mem_scan.mp hscan)
    rw [hk, isPrefixOf_label hfree hfree'] at hpre
    rw [hkey, idKey_inj] at hv
    exact hpre ▸ hall n hn hv
  · intro hlabel
    refine ⟨List.not_mem_nil, (encodeLabelIdxKey label none n.id, idKey n.id), ?_, rfl⟩
    refine List.mem_filter.mpr ⟨View.mem_scan.mpr (h.labelled n hn label hlabel), ?_⟩
    rw [encodeLabelIdxKey_none]
    exact (isPrefixOf_label hfree hfree _).mpr rfl

theorem Consistent.structured (h : g.Consistent view) (lossy : List UInt8 → String) :
    GraphState.Structured lossy g view where
  edges k bytes hk := by
    obtain ⟨id, rfl⟩ := h.keys _ k bytes (.inr rfl) hk
    obtain ⟨o, ho, hall⟩ := h.edge id
    rw [getEdge, View.get_seen, hk] at ho
    simp only at ho
    split at ho
    · cases ho
    · rename_i e hd
      cases ho
      have hid : e.id = id := (hall e rfl).1
      refine ⟨e, hd, by rw [hid], ?_⟩
      rw [HasEdge, hid, getEdge_of_some hk hd]
  nodes k bytes hk := by
    obtain ⟨id, rfl⟩ := h.keys _ k bytes (.inl rfl) hk
    obtain ⟨o, ho, hall⟩ := h.node id
    rw [getNode, View.get_seen, hk] at ho
    simp only at ho
    split at ho
    · cases ho
    · rename_i n hd
      cases ho
      have hid : n.id = id := (hall n rfl).1
      refine ⟨n, hd, by rw [hid], ?_⟩
      rw [HasNode, hid, getNode_of_some hk hd]
  ends e he := by
    obtain ⟨o, ho, hall⟩ := h.edge e.id
    rw [HasEdge, ho] at he
    cases he
    have hends := (hall e rfl).2.2.2
    exact ⟨hends .out, hends .into⟩
  adjOut := h.adjacent .out
  adjIn := h.adjacent .into
  outEdges := h.edgesAt lossy .out
  inEdges := h.edgesAt lossy .into
  labels _ hfree := h.findNodesByLabel hfree

end GraphStore

namespace GraphState

variable {s : GraphState}

/-- Both what the transaction sees and what is committed is consistent. -/
structure Sound (s : GraphState) : Prop where
  view : s.store.Consistent s.view
  committed : s.store.Consistent s.committed

theorem sound_new (graphName : String) : Sound (new graphName) := by
  have hempty : GraphStore.Consistent ⟨graphName, 1, 1⟩ View.empty := by
    constructor
    · exact fun id => ⟨none, rfl, fun n hn => by cases hn⟩
    · exact fun id => ⟨none, rfl, fun e he => by cases he⟩
    · intro m k v _ hk
      cases hk
    · intro side k
      refine iff_of_false (by simp [View.empty]) ?_
      rintro ⟨e, he, _⟩
      cases he
    · intro n hn
      cases hn
    · intro k v hk
      cases hk
  exact ⟨hempty, hempty⟩

theorem createEdge_store (g : GraphStore) (view : View) (edgeType : String) (srcId dstId : UInt64)
    (properties : Properties) : (g.createEdge view edgeType srcId dstId properties).2.1 = g ∨
      (g.createEdge view edgeType srcId dstId properties).2.1 = { g with nextEdgeId :=
  g.nextEdgeId + 1 } := by
  unfold GraphStore.createEdge
  split
  · exact .inl rfl
  · exact .inl rfl
  · exact .inl rfl
  · exact .inl rfl
  · exact .inr rfl

theorem Sound.step (h : Sound s) (lossy : List UInt8 → String) (c : GraphCall) (hi : s.Issued c)
    (hk : s.KeepsLabels c) : Sound (s.step lossy c) := by
  cases c with
  | createNode labels properties =>
    obtain ⟨hfree, hroom, node', bytes, hr⟩ := hi
    refine ⟨h.view.createNode hr hfree hroom, ?_⟩
    exact h.committed.counters _ rfl (UInt64.le_of_lt (lt_add_one_of_room hroom)) (UInt64.le_refl _)
  | createEdge edgeType srcId dstId properties =>
    obtain ⟨hfree, hroom, edge', bytes, hr⟩ := hi
    refine ⟨h.view.createEdge hr hfree hroom, ?_⟩
    change GraphStore.Consistent (s.store.createEdge s.view edgeType srcId dstId properties).2.1 s.committed
    rcases createEdge_store s.store s.view edgeType srcId dstId properties with heq | heq
    · rw [heq]
      exact h.committed
    · rw [heq]
      exact h.committed.counters _ rfl (UInt64.le_refl _) (UInt64.le_of_lt (lt_add_one_of_room hroom))
  | saveNode node =>
    obtain ⟨hfree, ⟨n, hn, hid⟩, node', bytes, hr⟩ := hi
    have hlt : node.id < s.store.nextNodeId := hid ▸ h.view.lt_nextNodeId hn
    exact ⟨h.view.saveNode hr hlt hfree hk (.inl ⟨n, hn, hid⟩), h.committed⟩
  | saveEdge edge =>
    obtain ⟨⟨e, he, hid, htype, hsrc, hdst⟩, edge', bytes, hr⟩ := hi
    have hlt : edge.id < s.store.nextEdgeId := hid ▸ h.view.lt_nextEdgeId he
    obtain ⟨o, ho, hall⟩ := h.view.edge e.id
    have hsame : o = some e := by
      rw [GraphStore.HasEdge, ho] at he
      cases he
      rfl
    obtain ⟨_, _, hfree, hends⟩ := hall e hsame
    have hnode : ∀ side : GraphStore.Side, side.node e = side.node edge := by
      intro side
      cases side
      · exact hsrc
      · exact hdst
    refine ⟨h.view.saveEdge hr hlt (htype ▸ hfree) (fun side => ?_) (fun e' he' hid' side => ?_), h.committed⟩
    · rw [← hnode]
      exact hends side
    · rw [he'.unique he (hid'.trans hid.symm), GraphStore.Side.key, GraphStore.Side.key, hnode, htype, hid]
  | deleteEdge id =>
    refine ⟨?_, h.committed⟩
    obtain ⟨o, ho, hall⟩ := h.view.edge id
    cases o with
    | none =>
      have hsame : s.store.deleteEdge s.view id = (.ok false, s.view) := by
        simp only [GraphStore.deleteEdge, ho]
      change s.store.Consistent (s.store.deleteEdge s.view id).2
      rw [hsame]
      exact h.view
    | some e =>
      have hid : e.id = id := (hall e rfl).1
      have he : s.store.HasEdge s.view.seen e := by rw [GraphStore.HasEdge, hid, ho]
      have hnext := h.view.deleteEdge he
      rw [hid] at hnext
      exact hnext
  | deleteNode id detach => exact ⟨h.view.deleteNode lossy id detach, h.committed⟩
  | commit => exact ⟨h.view, h.view⟩
  | rollback => exact ⟨h.committed, h.committed⟩

/-- As long as nodes are saved with all their labels, the graph is structured after every call, also as it
was last committed. -/
theorem structured_of_keepsLabels (graphName : String) (lossy : List UInt8 → String)
    (calls : List GraphCall)
    (hgood : Meets (step lossy) (fun s c => s.Issued c ∧ s.KeepsLabels c) (new graphName) calls) :
    Structured lossy (runs (step lossy) (new graphName) calls).store
        (runs (step lossy) (new graphName) calls).view ∧
      Structured lossy (runs (step lossy) (new graphName) calls).store
        (runs (step lossy) (new graphName) calls).committed := by
  have hsound : Sound (runs (step lossy) (new graphName) calls) :=
    invariant_runs (fun s c h hc => h.step lossy c hc.1 hc.2) (sound_new graphName) hgood
  exact ⟨hsound.view.structured lossy, hsound.committed.structured lossy⟩

end GraphState

end

namespace GraphState

attribute [local instance] plainCodecs

theorem readsNode_plain (id : UInt64) {labels : List String} (hlen : labels.length < 2 ^ 64)
    (hlabels : ∀ l ∈ labels, l.utf8ByteSize < 2 ^ 64) :
    ∃ node' bytes, Codecs.ReadsNode ⟨id, labels, ∅⟩ node' bytes := by
  obtain ⟨bytes, hround⟩ : ∃ bytes, Codecs.node.RoundTrips ⟨id, labels, ∅⟩ bytes := by
    refine ⟨_, Bincode.ofCoder_roundTrips (Coder.iso_reads ?_ ?_)⟩
    · refine Coder.pair_reads (Coder.uint_reads (w := 8) (UInt64.toNat_lt id)) (Coder.pair_reads ?_ ?_)
      · exact Coder.vec_reads hlen fun l hl => Coder.text_reads (hlabels l hl)
      · exact Coder.uint_reads (w := 8) (n := 0) (by decide)
    · simp only [UInt64.ofNat_toNat]
  exact ⟨_, bytes, hround.1, hround.2, rfl, rfl, List.Perm.refl _⟩

theorem readsEdge_plain (id srcId dstId : UInt64) {edgeType : String}
    (hlen : edgeType.utf8ByteSize < 2 ^ 64) :
    ∃ edge' bytes, Codecs.ReadsEdge ⟨id, edgeType, srcId, dstId, ∅⟩ edge' bytes := by
  have hid := fun i : UInt64 => Coder.uint_reads (w := 8) (UInt64.toNat_lt i)
  obtain ⟨bytes, hround⟩ : ∃ bytes, Codecs.edge.RoundTrips ⟨id, edgeType, srcId, dstId, ∅⟩ bytes := by
    refine ⟨_, Bincode.ofCoder_roundTrips (Coder.iso_reads ?_ ?_)⟩
    · refine Coder.pair_reads (hid id) (Coder.pair_reads (Coder.text_reads hlen) ?_)
      refine Coder.pair_reads (hid srcId) (Coder.pair_reads (hid dstId) ?_)
      exact Coder.uint_reads (w := 8) (n := 0) (by decide)
    · simp only [UInt64.ofNat_toNat]
  exact ⟨_, bytes, hround.1, hround.2, rfl, rfl, rfl, rfl, List.Perm.refl _⟩

/-- A node is created and gets a label, an edge joins it to itself, and both go. -/
def labelsKept : List GraphCall :=
  [.createNode ["A"] ∅, .saveNode ⟨1, ["A", "B"], ∅⟩, .createEdge "SELF" 1 1 ∅, .commit, .deleteNode 1 true]

theorem structured_labelsKept :
    Structured (fun _ => "") (runs (step fun _ => "") (new "social") labelsKept).store
        (runs (step fun _ => "") (new "social") labelsKept).view ∧
      Structured (fun _ => "") (runs (step fun _ => "") (new "social") labelsKept).store
        (runs (step fun _ => "") (new "social") labelsKept).committed := by
  refine structured_of_keepsLabels "social" _ labelsKept ⟨⟨⟨?_, ?_, ?_⟩, trivial⟩,
    ⟨⟨?_, ⟨⟨1, ["A"], ∅⟩, ?_, rfl⟩, ?_⟩, ?_⟩, ⟨⟨?_, ?_, ?_⟩, trivial⟩, ⟨trivial, trivial⟩,
    ⟨trivial, trivial⟩, trivial⟩
  · decide +kernel
  · decide
  · exact readsNode_plain 1 (by decide) (by decide)
  · decide +kernel
  · rfl
  · exact readsNode_plain 1 (by decide) (by decide)
  · intro n hn hid
    have hsame : n = ⟨1, ["A"], ∅⟩ := hn.unique rfl hid
    rw [hsame]
    decide
  · decide +kernel
  · decide
  · exact readsEdge_plain 1 1 1 (by decide)

/-- `MATCH (a), (b) SET a:L, b:M`, where both variables stand for one node: the second copy is without the
first label, which the index still leads to. -/
def copySaved : List GraphCall :=
  [.createNode [] ∅, .commit, .saveNode ⟨1, ["L"], ∅⟩, .saveNode ⟨1, ["M"], ∅⟩, .commit]

theorem copySaved_finds_node_without_label :
    Meets (step fun _ => "") Issued (new "social") copySaved ∧
      ¬ Structured (fun _ => "") (runs (step fun _ => "") (new "social") copySaved).store
        (runs (step fun _ => "") (new "social") copySaved).view := by
  constructor
  · refine ⟨⟨?_, ?_, ?_⟩, trivial, ⟨?_, ⟨⟨1, [], ∅⟩, ?_, rfl⟩, ?_⟩, ⟨?_, ⟨⟨1, ["L"], ∅⟩, ?_, rfl⟩, ?_⟩,
      trivial, trivial⟩
    · decide +kernel
    · decide
    · exact readsNode_plain 1 (by decide) (by decide)
    · decide +kernel
    · rfl
    · exact readsNode_plain 1 (by decide) (by decide)
    · decide +kernel
    · rfl
    · exact readsNode_plain 1 (by decide) (by decide)
  · intro h
    obtain ⟨nodes, hfind, _, hmem⟩ := h.labels "L" (by decide +kernel)
    have hfound : nodes = [⟨1, ["M"], ∅⟩] := by
      have heq : (.ok [⟨1, ["M"], ∅⟩] : H2Result (List Node)) = .ok nodes := hfind
      cases heq
      rfl
    have hlabel := ((hmem ⟨1, ["M"], ∅⟩).mp (by rw [hfound]; exact List.mem_singleton_self _)).2
    revert hlabel
    decide

end GraphState

end H2Database.Graph
