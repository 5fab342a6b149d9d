import H2Database.Graph.Lookups

/-!
# The structure of a graph (`h2-graph/src/store.rs`, `h2-graph/src/engine.rs`)

Serial runs of the calls that the executors of CREATE, MERGE, SET and DELETE make on one `GraphStore`.
Every edge has its ends, the adjacency maps mirror the edges and the label index leads to the nodes with
a label, unless a node is saved from a copy that has lost a label: SET keeps a copy of a node for each
variable, and two variables can stand for one node.
-/

namespace H2Database.Graph

open Reasoning Mvstore Sql List

/-! ## Writes under many keys -/

theorem lastWrite_map {m map : String} {k : Key} {f : Key → Write} {v : Option (List UInt8)}
    (hf : ∀ key, (f key).at m k = if m = map ∧ k = key then some v else none) (keys : List Key) :
    lastWrite m k (keys.map f) = if m = map ∧ k ∈ keys then some v else none := by
  induction keys with
  | nil => simp [lastWrite]
  | cons key keys ih =>
    by_cases hm : m = map <;> by_cases hk : k = key <;> by_cases hin : k ∈ keys <;>
      simp_all [lastWrite]

theorem lastWrite_map_put (m map : String) (k : Key) (keys : List Key) (v : List UInt8) :
    lastWrite m k (keys.map fun key => .put map key v) =
      if m = map ∧ k ∈ keys then some (some v) else none :=
  lastWrite_map (fun _ => rfl) keys

theorem lastWrite_map_remove (m map : String) (k : Key) (keys : List Key) :
    lastWrite m k (keys.map fun key => .remove map key) =
      if m = map ∧ k ∈ keys then some none else none :=
  lastWrite_map (fun _ => rfl) keys

@[simp] theorem GraphStore.Side.key_out (edge : Edge) : Side.out.key edge = outKey edge := rfl

@[simp] theorem GraphStore.Side.key_into (edge : Edge) : Side.into.key edge = inKey edge := rfl

section

variable [Codecs]

/-- What `bincode` writes of the node it reads back, with the properties in some order. -/
def Codecs.ReadsNode (node node' : Node) (bytes : List UInt8) : Prop :=
  Codecs.node.serialize node = .ok bytes ∧ Codecs.node.deserialize bytes = .ok node' ∧
    node'.id = node.id ∧ node'.labels = node.labels ∧
      node'.properties.entries.Perm node.properties.entries

def Codecs.ReadsEdge (edge edge' : Edge) (bytes : List UInt8) : Prop :=
  Codecs.edge.serialize edge = .ok bytes ∧ Codecs.edge.deserialize bytes = .ok edge' ∧
    edge'.id = edge.id ∧ edge'.edgeType = edge.edgeType ∧ edge'.srcId = edge.srcId ∧
      edge'.dstId = edge.dstId ∧ edge'.properties.entries.Perm edge.properties.entries

namespace GraphStore

variable {g : GraphStore} {view view' : View}

/-! ## What the calls write -/

variable {node : Node} {bytes : List UInt8} {edge : Edge} {id : UInt64}

theorem get_saveNode (hs : Codecs.node.serialize node = .ok bytes) (m : String) (k : Key) :
    ((g.saveNode view node).2 m).get k =
      if m = g.idxLabelMap ∧ k ∈ labelEntries node then some (idKey node.id)
      else if m = g.nodesMap ∧ k = idKey node.id then some bytes else (view m).get k := by
  rw [saveNode, saveNodeWrites, hs]
  change ((view.writeAll _) m).get k = _
  rw [View.get_writeAll, lastWrite, lastWrite_map_put, Write.at]
  split_ifs <;> rfl

theorem get_saveEdge (hs : Codecs.edge.serialize edge = .ok bytes) (m : String) (k : Key) :
    ((g.saveEdge view edge).2 m).get k =
      if m = g.adjInMap ∧ k = inKey edge then some (idKey edge.srcId)
      else if m = g.adjOutMap ∧ k = outKey edge then some (idKey edge.dstId)
      else if m = g.edgesMap ∧ k = idKey edge.id then some bytes else (view m).get k := by
  rw [saveEdge, saveEdgeWrites, hs]
  change ((view.writeAll _) m).get k = _
  simp only [View.get_writeAll, lastWrite, Write.at, Option.none_or]
  split_ifs <;> rfl

theorem deleteEdge_eq (h : g.HasEdge view.seen edge) :
    g.deleteEdge view edge.id = (.ok true, view.writeAll
      [.remove g.adjOutMap (outKey edge), .remove g.adjInMap (inKey edge),
        .remove g.edgesMap (idKey edge.id)]) := by
  have hget : g.getEdge view.seen edge.id = .ok (some edge) := h
  simp only [deleteEdge, hget]

theorem get_deleteEdge (h : g.HasEdge view.seen edge) (m : String) (k : Key) :
    ((g.deleteEdge view edge.id).2 m).get k =
      if (m = g.adjOutMap ∧ k = outKey edge) ∨ (m = g.adjInMap ∧ k = inKey edge) ∨
        (m = g.edgesMap ∧ k = idKey edge.id) then none else (view m).get k := by
  rw [deleteEdge_eq h]
  simp only [View.get_writeAll, lastWrite, Write.at, Option.none_or]
  by_cases hedge : m = g.edgesMap ∧ k = idKey edge.id
  · rw [if_pos hedge, if_pos (Or.inr (Or.inr hedge))]
    rfl
  · rw [if_neg hedge]
    by_cases hin : m = g.adjInMap ∧ k = inKey edge
    · rw [if_pos hin, if_pos (Or.inr (Or.inl hin))]
      rfl
    · rw [if_neg hin]
      by_cases hout : m = g.adjOutMap ∧ k = outKey edge
      · rw [if_pos hout, if_pos (.inl hout)]
        rfl
      · rw [if_neg hout, if_neg fun h => h.elim hout fun h => h.elim hin hedge]
        rfl

structure Consistent (g : GraphStore) (view : View) : Prop where
  node : ∀ id, ∃ o, g.getNode view.seen id = .ok o ∧ ∀ n ∈ o, n.id = id ∧ id < g.nextNodeId ∧
    ∀ label ∈ n.labels, NulFree label
  edge : ∀ id, ∃ o, g.getEdge view.seen id = .ok o ∧ ∀ e ∈ o, e.id = id ∧ id < g.nextEdgeId ∧
    NulFree e.edgeType ∧ ∀ side : Side, ∃ n, g.HasNode view.seen n ∧ n.id = side.node e
  keys : ∀ m k v, m = g.nodesMap ∨ m = g.edgesMap → (view m).get k = some v → ∃ id, k = idKey id
  adjacent : ∀ (side : Side) (k : Key), ((view (side.map g)).get k).isSome ↔
    ∃ e, g.HasEdge view.seen e ∧ k = side.key e
  labelled : ∀ n, g.HasNode view.seen n → ∀ label ∈ n.labels,
    (view g.idxLabelMap).get (encodeLabelIdxKey label none n.id) = some (idKey n.id)
  entries : ∀ k v, (view g.idxLabelMap).get k = some v → ∃ label rest id, NulFree label ∧
    k = utf8 label ++ 0 :: rest ∧ v = idKey id ∧ id < g.nextNodeId ∧
      ∀ n, g.HasNode view.seen n → n.id = id → label ∈ n.labels

theorem getNode_congr (h : (view' g.nodesMap).get (idKey id) = (view g.nodesMap).get (idKey id)) :
    g.getNode view'.seen id = g.getNode view.seen id := by
  rw [getNode, getNode, View.get_seen, View.get_seen, h]

theorem getEdge_congr (h : (view' g.edgesMap).get (idKey id) = (view g.edgesMap).get (idKey id)) :
    g.getEdge view'.seen id = g.getEdge view.seen id := by
  rw [getEdge, getEdge, View.get_seen, View.get_seen, h]

theorem getNode_of_none (h : (view g.nodesMap).get (idKey id) = none) :
    g.getNode view.seen id = .ok none := by
  rw [getNode, View.get_seen, h]

theorem getEdge_of_none (h : (view g.edgesMap).get (idKey id) = none) :
    g.getEdge view.seen id = .ok none := by
  rw [getEdge, View.get_seen, h]

theorem getNode_of_some {n : Node} (h : (view g.nodesMap).get (idKey id) = some bytes)
    (hd : Codecs.node.deserialize bytes = .ok n) :
    g.getNode view.seen id = .ok (some n) := by
  rw [getNode, View.get_seen, h]
  simp only [hd]

theorem getEdge_of_some {e : Edge} (h : (view g.edgesMap).get (idKey id) = some bytes)
    (hd : Codecs.edge.deserialize bytes = .ok e) :
    g.getEdge view.seen id = .ok (some e) := by
  rw [getEdge, View.get_seen, h]
  simp only [hd]

theorem hasNode_congr (h : ∀ k, (view' g.nodesMap).get k = (view g.nodesMap).get k) (n : Node) :
    g.HasNode view'.seen n ↔ g.HasNode view.seen n := by
  rw [HasNode, HasNode, getNode_congr (h _)]

theorem hasEdge_congr (h : ∀ k, (view' g.edgesMap).get k = (view g.edgesMap).get k) (e : Edge) :
    g.HasEdge view'.seen e ↔ g.HasEdge view.seen e := by
  rw [HasEdge, HasEdge, getEdge_congr (h _)]

theorem mem_labelEntries {k : Key} (h : k ∈ labelEntries node) :
    (∃ label ∈ node.labels, ∃ rest, k = utf8 label ++ 0 :: rest) ∧ ∃ front, k = front ++ idKey node.id := by
  obtain ⟨label, hlabel, hk⟩ := mem_flatMap.mp h
  have hkey : ∃ prop, k = encodeLabelIdxKey label prop node.id := by
    rcases mem_cons.mp hk with rfl | hk
    · exact ⟨none, rfl⟩
    · obtain ⟨p, _, rfl⟩ := mem_map.mp hk
      exact ⟨some (p.1, p.2), rfl⟩
  obtain ⟨prop, rfl⟩ := hkey
  exact ⟨⟨label, hlabel, encodeLabelIdxKey_eq label prop node.id⟩, _, rfl⟩

theorem labelEntries_self {label : String} (h : label ∈ node.labels) :
    encodeLabelIdxKey label none node.id ∈ labelEntries node :=
  mem_flatMap.mpr ⟨label, h, mem_cons_self⟩

/-- A node is written, with the labels at least that the node has which it replaces, and under a number
that nothing in the label index is left of. -/
theorem Consistent.saveNode (h : g.Consistent view) {node' : Node} (hr : Codecs.ReadsNode node node' bytes)
    (hid : node.id < g.nextNodeId) (hfree : ∀ label ∈ node.labels, NulFree label)
    (hold : ∀ n, g.HasNode view.seen n → n.id = node.id → n.labels ⊆ node.labels)
    (hclean : (∃ n, g.HasNode view.seen n ∧ n.id = node.id) ∨
      ∀ k v, (view g.idxLabelMap).get k = some v → v ≠ idKey node.id) :
    g.Consistent (g.saveNode view node).2 := by
  obtain ⟨hser, hdes, hid', hlabels', _⟩ := hr
  set view' := (g.saveNode view node).2 with hview'
  have hget : ∀ m k, (view' m).get k = _ := get_saveNode hser
  have hnode : ∀ id, g.getNode view'.seen id =
      if id = node.id then .ok (some node') else g.getNode view.seen id := by
    intro id
    split_ifs with hsame
    · refine getNode_of_some ?_ hdes
      rw [hget, hsame]
      simp [nodesMap, idxLabelMap]
    · refine getNode_congr ?_
      rw [hget]
      simp [nodesMap, idxLabelMap, idKey_inj, hsame]
  have hhas : ∀ n, g.HasNode view'.seen n ↔ n = node' ∨ (n.id ≠ node.id ∧ g.HasNode view.seen n) := by
    intro n
    rw [HasNode, hnode]
    split_ifs with hsame
    · constructor
      · intro heq
        cases heq
        exact .inl rfl
      · rintro (rfl | ⟨hne, _⟩)
        · rfl
        · exact absurd hsame hne
    · constructor
      · exact fun hn => Or.inr ⟨hsame, hn⟩
      · rintro (rfl | ⟨_, hn⟩)
        · exact absurd hid' hsame
        · exact hn
  have hedges : ∀ e, g.HasEdge view'.seen e ↔ g.HasEdge view.seen e := by
    refine hasEdge_congr fun k => ?_
    rw [hget]
    simp [nodesMap, edgesMap, idxLabelMap]
  have hidx : ∀ k, (view' g.idxLabelMap).get k =
      if k ∈ labelEntries node then some (idKey node.id) else (view g.idxLabelMap).get k := by
    intro k
    rw [hget]
    simp [nodesMap, idxLabelMap]
  constructor
  · intro id
    by_cases hsame : id = node.id
    · refine ⟨some node', by rw [hnode, if_pos hsame], fun n hn => ?_⟩
      cases hn
      rw [hlabels', hsame]
      exact ⟨hid', hid, hfree⟩
    · rw [hnode, if_neg hsame]
      exact h.node id
  · intro id
    obtain ⟨o, ho, hall⟩ := h.edge id
    refine ⟨o, ?_, fun e he => ?_⟩
    · rw [← ho]
      refine getEdge_congr ?_
      rw [hget]
      simp [nodesMap, edgesMap, idxLabelMap]
    · obtain ⟨heid, hlt, hfree, hends⟩ := hall e he
      refine ⟨heid, hlt, hfree, fun side => ?_⟩
      obtain ⟨n, hn, hnid⟩ := hends side
      by_cases hsame : n.id = node.id
      · exact ⟨node', (hhas node').mpr (.inl rfl), by rw [hid', ← hsame, hnid]⟩
      · exact ⟨n, (hhas n).mpr (.inr ⟨hsame, hn⟩), hnid⟩
  · intro m k v hm hk
    rw [hget] at hk
    split_ifs at hk with h₁ h₂
    · rcases hm with rfl | rfl
      · simp [nodesMap, idxLabelMap] at h₁
      · simp [edgesMap, idxLabelMap] at h₁
    · exact ⟨node.id, h₂.2⟩
    · exact h.keys m k v hm hk
  · intro side k
    have hsame : (view' (side.map g)).get k = (view (side.map g)).get k := by
      rw [hget]
      cases side <;> simp [Side.map, nodesMap, idxLabelMap, adjOutMap, adjInMap]
    rw [hsame, h.adjacent side k]
    exact exists_congr fun e => and_congr_left fun _ => (hedges e).symm
  · intro n hn label hlabel
    rw [hidx]
    rcases (hhas n).mp hn with rfl | ⟨hne, hn⟩
    · rw [hid', if_pos (labelEntries_self (hlabels' ▸ hlabel))]
    · rw [if_neg fun hin => ?_, h.labelled n hn label hlabel]
      obtain ⟨_, front, hfront⟩ := mem_labelEntries hin
      exact hne (append_idKey_inj hfront).2
  · intro k v hk
    rw [hidx] at hk
    split_ifs at hk with hin
    · obtain ⟨⟨label, hlabel, rest, hkey⟩, _⟩ := mem_labelEntries hin
      cases hk
      refine ⟨label, rest, node.id, hfree label hlabel, hkey, rfl, hid, fun n hn hnid => ?_⟩
      rcases (hhas n).mp hn with rfl | ⟨hne, _⟩
      · rwa [hlabels']
      · exact absurd hnid hne
    · obtain ⟨label, rest, id, hlfree, hkey, rfl, hlt, hall⟩ := h.entries k v hk
      refine ⟨label, rest, id, hlfree, hkey, rfl, hlt, fun n hn hnid => ?_⟩
      rcases (hhas n).mp hn with rfl | ⟨_, hn⟩
      · rw [hlabels']
        rcases hclean with ⟨n₀, hn₀, hn₀id⟩ | hclean
        · exact hold n₀ hn₀ hn₀id (hall n₀ hn₀ (by rw [hn₀id, ← hid', hnid]))
        · exact absurd (by rw [← hnid, hid']) (hclean k _ hk)
      · exact hall n hn hnid

theorem Consistent.of_edges (h : g.Consistent view)
    (hnodes : ∀ k, (view' g.nodesMap).get k = (view g.nodesMap).get k)
    (hidx : ∀ k, (view' g.idxLabelMap).get k = (view g.idxLabelMap).get k)
    (hedge : ∀ id, ∃ o, g.getEdge view'.seen id = .ok o ∧ ∀ e ∈ o, e.id = id ∧ id < g.nextEdgeId ∧
      NulFree e.edgeType ∧ ∀ side : Side, ∃ n, g.HasNode view.seen n ∧ n.id = side.node e)
    (hkeys : ∀ k v, (view' g.edgesMap).get k = some v → ∃ id, k = idKey id)
    (hadjacent : ∀ (side : Side) (k : Key), ((view' (side.map g)).get k).isSome ↔
      ∃ e, g.HasEdge view'.seen e ∧ k = side.key e) :
    g.Consistent view' := by
  have hhasNode := hasNode_congr (g := g) hnodes
  constructor
  · intro id
    rw [getNode_congr (hnodes _)]
    exact h.node id
  · intro id
    obtain ⟨o, ho, hall⟩ := hedge id
    refine ⟨o, ho, fun e he => ?_⟩
    obtain ⟨heid, hlt, hfree, hends⟩ := hall e he
    refine ⟨heid, hlt, hfree, fun side => ?_⟩
    obtain ⟨n, hn, hnid⟩ := hends side
    exact ⟨n, (hhasNode n).mpr hn, hnid⟩
  · intro m k v hm hk
    rcases hm with rfl | rfl
    · rw [hnodes] at hk
      exact h.keys _ k v (.inl rfl) hk
    · exact hkeys k v hk
  · exact hadjacent
  · intro n hn label hlabel
    rw [hidx]
    exact h.labelled n ((hhasNode n).mp hn) label hlabel
  · intro k v hk
    rw [hidx] at hk
    obtain ⟨label, rest, id, hlfree, hkey, hv, hlt, hall⟩ := h.entries k v hk
    exact ⟨label, rest, id, hlfree, hkey, hv, hlt, fun n hn => hall n ((hhasNode n).mp hn)⟩

theorem Consistent.saveEdge (h : g.Consistent view) {edge' : Edge} (hr : Codecs.ReadsEdge edge edge' bytes)
    (hid : edge.id < g.nextEdgeId) (hfree : NulFree edge.edgeType)
    (hends : ∀ side : Side, ∃ n, g.HasNode view.seen n ∧ n.id = side.node edge)
    (hold : ∀ e, g.HasEdge view.seen e → e.id = edge.id → ∀ side : Side, side.key e = side.key edge) :
    g.Consistent (g.saveEdge view edge).2 := by
  obtain ⟨hser, hdes, hid', htype, hsrc, hdst, _⟩ := hr
  set view' := (g.saveEdge view edge).2 with hview'
  have hget : ∀ m k, (view' m).get k = _ := get_saveEdge hser
  have hnode' : ∀ side : Side, side.node edge' = side.node edge := by
    intro side
    cases side
    · exact hsrc
    · exact hdst
  have hkey' : ∀ side : Side, side.key edge' = side.key edge := by
    intro side
    rw [Side.key, Side.key, hnode', htype, hid']
  have hedge : ∀ id, g.getEdge view'.seen id =
      if id = edge.id then .ok (some edge') else g.getEdge view.seen id := by
    intro id
    split_ifs with hsame
    · refine getEdge_of_some ?_ hdes
      rw [hget, hsame]
      simp [edgesMap, adjOutMap, adjInMap]
    · refine getEdge_congr ?_
      rw [hget]
      simp [edgesMap, adjOutMap, adjInMap, idKey_inj, hsame]
  have hhas : ∀ e, g.HasEdge view'.seen e ↔ e = edge' ∨ (e.id ≠ edge.id ∧ g.HasEdge view.seen e) := by
    intro e
    rw [HasEdge, hedge]
    split_ifs with hsame
    · constructor
      · intro heq
        cases heq
        exact .inl rfl
      · rintro (rfl | ⟨hne, _⟩)
        · rfl
        · exact absurd hsame hne
    · constructor
      · exact fun he => Or.inr ⟨hsame, he⟩
      · rintro (rfl | ⟨_, he⟩)
        · exact absurd hid' hsame
        · exact he
  have hnodes : ∀ k, (view' g.nodesMap).get k = (view g.nodesMap).get k := by
    intro k
    rw [hget]
    simp [nodesMap, edgesMap, adjOutMap, adjInMap]
  have hidx : ∀ k, (view' g.idxLabelMap).get k = (view g.idxLabelMap).get k := by
    intro k
    rw [hget]
    simp [idxLabelMap, edgesMap, adjOutMap, adjInMap]
  refine h.of_edges hnodes hidx (fun id => ?_) (fun k v hk => ?_) fun side k => ?_
  · by_cases hsame : id = edge.id
    · refine ⟨some edge', by rw [hedge, if_pos hsame], fun e he => ?_⟩
      cases he
      refine ⟨hid'.trans hsame.symm, hsame ▸ hid, htype ▸ hfree, fun side => ?_⟩
      obtain ⟨n, hn, hnid⟩ := hends side
      exact ⟨n, hn, by rw [hnid, hnode']⟩
    · rw [hedge, if_neg hsame]
      exact h.edge id
  · rw [hget] at hk
    split_ifs at hk with h₁ h₂ h₃
    · simp [edgesMap, adjInMap] at h₁
    · simp [edgesMap, adjOutMap] at h₂
    · exact ⟨edge.id, h₃.2⟩
    · exact h.keys _ k v (.inr rfl) hk
  · have hsame : ((view' (side.map g)).get k).isSome ↔
        k = side.key edge ∨ ((view (side.map g)).get k).isSome := by
      rw [hget]
      by_cases hk : k = side.key edge
      · rw [hk]
        cases side <;> simp [Side.map, adjOutMap, adjInMap]
      · cases side <;> simp_all [Side.map, edgesMap, adjOutMap, adjInMap]
    rw [hsame, h.adjacent side k]
    constructor
    · rintro (hk | ⟨e, he, hk⟩)
      · exact ⟨edge', (hhas edge').mpr (.inl rfl), by rw [hk, hkey']⟩
      · by_cases heid : e.id = edge.id
        · exact ⟨edge', (hhas edge').mpr (.inl rfl), by rw [hk, hkey', hold e he heid]⟩
        · exact ⟨e, (hhas e).mpr (.inr ⟨heid, he⟩), hk⟩
    · rintro ⟨e, he, hk⟩
      rcases (hhas e).mp he with rfl | ⟨_, he⟩
      · exact .inl (by rw [hk, hkey'])
      · exact .inr ⟨e, he, hk⟩

theorem getEdge_deleteEdge (h : g.HasEdge view.seen edge) (id : UInt64) :
    g.getEdge (g.deleteEdge view edge.id).2.seen id =
      if id = edge.id then .ok none else g.getEdge view.seen id := by
  split_ifs with hsame
  · refine getEdge_of_none ?_
    rw [get_deleteEdge h, hsame]
    simp
  · refine getEdge_congr ?_
    rw [get_deleteEdge h, if_neg]
    simp [edgesMap, adjOutMap, adjInMap, idKey_inj, hsame]

theorem hasEdge_deleteEdge (h : g.HasEdge view.seen edge) (e : Edge) :
    g.HasEdge (g.deleteEdge view edge.id).2.seen e ↔ g.HasEdge view.seen e ∧ e.id ≠ edge.id := by
  rw [HasEdge, getEdge_deleteEdge h]
  split_ifs with hsame
  · constructor
    · intro hnone
      cases hnone
    · exact fun hboth => absurd hsame hboth.2
  · exact ⟨fun he => ⟨he, hsame⟩, fun hboth => hboth.1⟩

theorem Consistent.deleteEdge (h : g.Consistent view) (he : g.HasEdge view.seen edge) :
    g.Consistent (g.deleteEdge view edge.id).2 := by
  have hhas := fun e => hasEdge_deleteEdge he e
  have hget := fun m k => get_deleteEdge he m k
  refine h.of_edges (fun k => ?_) (fun k => ?_) (fun id => ?_) (fun k v hk => ?_) fun side k => ?_
  · rw [hget, if_neg]
    simp [nodesMap, edgesMap, adjOutMap, adjInMap]
  · rw [hget, if_neg]
    simp [idxLabelMap, edgesMap, adjOutMap, adjInMap]
  · rw [getEdge_deleteEdge he]
    split_ifs
    · exact ⟨none, rfl, fun e he => by cases he⟩
    · exact h.edge id
  · rw [hget] at hk
    split_ifs at hk
    exact h.keys _ k v (.inr rfl) hk
  · have hsame : ((g.deleteEdge view edge.id).2 (side.map g)).get k =
        if k = side.key edge then none else (view (side.map g)).get k := by
      rw [hget]
      by_cases hk : k = side.key edge
      · rw [hk]
        cases side <;> simp [Side.map, adjOutMap, adjInMap]
      · cases side <;> simp_all [Side.map, edgesMap, adjOutMap, adjInMap]
    rw [hsame]
    split_ifs with hk
    · refine iff_of_false (by simp) ?_
      rintro ⟨e, he', hke⟩
      exact ((hhas e).mp he').2 (edgeId_of_encodeAdjKey (hke.symm.trans hk))
    · rw [h.adjacent side k]
      constructor
      · rintro ⟨e, he', hke⟩
        refine ⟨e, (hhas e).mpr ⟨he', fun heid => hk ?_⟩, hke⟩
        rw [hke, he'.unique he heid]
      · rintro ⟨e, he', hke⟩
        exact ⟨e, ((hhas e).mp he').1, hke⟩

/-- One after the other, the edges go and nothing else.  A loop comes twice, and is no longer there the
second time. -/
theorem Consistent.deleteEdges (edges : List Edge) {view : View} (h : g.Consistent view)
    (he : ∀ e ∈ edges, g.HasEdge view.seen e ∨ g.getEdge view.seen e.id = .ok none) :
    ∃ view', g.deleteEdges view edges = (.ok (), view') ∧ g.Consistent view' ∧
      (∀ e, g.HasEdge view'.seen e ↔ g.HasEdge view.seen e ∧ e ∉ edges) ∧
      ∀ n, g.HasNode view'.seen n ↔ g.HasNode view.seen n := by
  induction edges generalizing view with
  | nil => exact ⟨view, rfl, h, fun e => by simp, fun n => Iff.rfl⟩
  | cons edge edges ih =>
    have hrest := fun e (hmem : e ∈ edges) => he e (mem_cons_of_mem _ hmem)
    rcases he edge mem_cons_self with hedge | hgone
    · have hleft := fun e => hasEdge_deleteEdge hedge e
      obtain ⟨view', hrun, hcons, hedges, hnodes⟩ := ih (h.deleteEdge hedge) fun e hmem => by
        rw [getEdge_deleteEdge hedge, hleft]
        split_ifs with hsame
        · exact .inr rfl
        · exact (hrest e hmem).imp (fun he' => ⟨he', hsame⟩) id
      have hfirst : g.deleteEdge view edge.id = (.ok true, (g.deleteEdge view edge.id).2) := by
        rw [deleteEdge_eq hedge]
      refine ⟨view', ?_, hcons, fun e => ?_, fun n => ?_⟩
      · rw [GraphStore.deleteEdges, hfirst]
        exact hrun
      · rw [hedges, hleft, mem_cons, not_or, and_assoc]
        refine and_congr_right fun he' => and_congr_left fun _ => ?_
        exact ⟨fun hne heq => hne (heq ▸ rfl), fun hne hid => hne (he'.unique hedge hid)⟩
      · rw [hnodes]
        refine hasNode_congr (fun k => ?_) n
        rw [get_deleteEdge hedge, if_neg]
        simp [nodesMap, edgesMap, adjOutMap, adjInMap]
    · have hfirst : g.deleteEdge view edge.id = (.ok false, view) := by
        simp only [GraphStore.deleteEdge, hgone]
      obtain ⟨view', hrun, hcons, hedges, hnodes⟩ := ih h hrest
      refine ⟨view', ?_, hcons, fun e => ?_, hnodes⟩
      · rw [GraphStore.deleteEdges, hfirst]
        exact hrun
      · rw [hedges, mem_cons, not_or]
        refine and_congr_right fun he' => ⟨fun hnot => ⟨?_, hnot⟩, fun hboth => hboth.2⟩
        rintro rfl
        rw [HasEdge, hgone] at he'
        cases he'

theorem Consistent.removeNode (h : g.Consistent view)
    (hfree : ∀ e, g.HasEdge view.seen e → ∀ side : Side, side.node e ≠ node.id) :
    g.Consistent (view.writeAll (((labelEntries node).map fun key => .remove g.idxLabelMap key) ++
      [.remove g.nodesMap (idKey node.id)])) := by
  set view' := view.writeAll (((labelEntries node).map fun key => .remove g.idxLabelMap key) ++
    [.remove g.nodesMap (idKey node.id)]) with hview'
  have hget : ∀ m k, (view' m).get k = if m = g.nodesMap ∧ k = idKey node.id then none
      else if m = g.idxLabelMap ∧ k ∈ labelEntries node then none else (view m).get k := by
    intro m k
    rw [hview', View.get_writeAll, lastWrite_append, lastWrite_map_remove, lastWrite_singleton, Write.at]
    split_ifs <;> rfl
  have hnode : ∀ id, g.getNode view'.seen id =
      if id = node.id then .ok none else g.getNode view.seen id := by
    intro id
    split_ifs with hsame
    · refine getNode_of_none ?_
      rw [hget, hsame]
      simp
    · refine getNode_congr ?_
      rw [hget]
      simp [nodesMap, idxLabelMap, idKey_inj, hsame]
  have hhas : ∀ n, g.HasNode view'.seen n ↔ g.HasNode view.seen n ∧ n.id ≠ node.id := by
    intro n
    rw [HasNode, hnode]
    split_ifs with hsame
    · constructor
      · intro hnone
        cases hnone
      · exact fun hboth => absurd hsame hboth.2
    · exact ⟨fun hn => ⟨hn, hsame⟩, fun hboth => hboth.1⟩
  have hedgesMap : ∀ k, (view' g.edgesMap).get k = (view g.edgesMap).get k := by
    intro k
    rw [hget]
    simp [nodesMap, edgesMap, idxLabelMap]
  have hidx : ∀ k, (view' g.idxLabelMap).get k =
      if k ∈ labelEntries node then none else (view g.idxLabelMap).get k := by
    intro k
    rw [hget]
    simp [nodesMap, idxLabelMap]
  constructor
  · intro id
    rw [hnode]
    split_ifs
    · exact ⟨none, rfl, fun n hn => by cases hn⟩
    · exact h.node id
  · intro id
    rw [getEdge_congr (hedgesMap _)]
    obtain ⟨o, ho, hall⟩ := h.edge id
    refine ⟨o, ho, fun e he => ?_⟩
    obtain ⟨heid, hlt, hefree, hends⟩ := hall e he
    refine ⟨heid, hlt, hefree, fun side => ?_⟩
    obtain ⟨n, hn', hnid⟩ := hends side
    have he' : g.HasEdge view.seen e := by
      rw [HasEdge, heid, ho, he]
    exact ⟨n, (hhas n).mpr ⟨hn', fun hsame => hfree e he' side (by rw [← hnid, hsame])⟩, hnid⟩
  · intro m k v hm hk
    rw [hget] at hk
    split_ifs at hk
    exact h.keys m k v hm hk
  · intro side k
    have hsame : (view' (side.map g)).get k = (view (side.map g)).get k := by
      rw [hget]
      cases side <;> simp [Side.map, nodesMap, idxLabelMap, adjOutMap, adjInMap]
    rw [hsame, h.adjacent side k]
    exact exists_congr fun e => and_congr_left fun _ => (hasEdge_congr hedgesMap e).symm
  · intro n hn' label hlabel
    obtain ⟨hn', hne⟩ := (hhas n).mp hn'
    rw [hidx, if_neg fun hin => ?_, h.labelled n hn' label hlabel]
    obtain ⟨_, front, hfront⟩ := mem_labelEntries hin
    exact hne (append_idKey_inj hfront).2
  · intro k v hk
    rw [hidx] at hk
    split_ifs at hk
    obtain ⟨label, rest, id, hlfree, hkey, hv, hlt, hall⟩ := h.entries k v hk
    exact ⟨label, rest, id, hlfree, hkey, hv, hlt, fun n hn' => hall n ((hhas n).mp hn').1⟩

theorem Consistent.edgesAt (h : g.Consistent view) (lossy : List UInt8 → String) (side : Side)
    (nodeId : UInt64) (edgeType : Option String) (hty : ∀ t ∈ edgeType, NulFree t) :
    ∃ edges, g.edgesAt lossy view.seen side nodeId edgeType = .ok edges ∧
      (edges.map Edge.id).Nodup ∧ ∀ edge, edge ∈ edges ↔
        g.HasEdge view.seen edge ∧ side.node edge = nodeId ∧ ∀ t ∈ edgeType, edge.edgeType = t := by
  refine edgesAt_spec side (fun edge hedge => ?_) (h.adjacent side) nodeId edgeType hty
  obtain ⟨o, ho, hall⟩ := h.edge edge.id
  rw [HasEdge, ho] at hedge
  cases hedge
  exact (hall edge rfl).2.2.1

theorem Consistent.deleteNode (h : g.Consistent view) (lossy : List UInt8 → String) (id : UInt64)
    (detach : Bool) : g.Consistent (g.deleteNode lossy view id detach).2 := by
  obtain ⟨o, ho, hall⟩ := h.node id
  unfold GraphStore.deleteNode
  rw [ho]
  cases o with
  | none => exact h
  | some node =>
    have hnid : node.id = id := (hall node rfl).1
    obtain ⟨outEdges, hout, _, hmemOut⟩ := h.edgesAt lossy .out id none fun t ht => by cases ht
    obtain ⟨inEdges, hin, _, hmemIn⟩ := h.edgesAt lossy .into id none fun t ht => by cases ht
    rw [edgesAt_out] at hout
    rw [edgesAt_into] at hin
    simp only [hout, hin]
    split_ifs
    · exact h
    · have hstored : ∀ e ∈ outEdges ++ inEdges, g.HasEdge view.seen e := by
        intro e he
        rcases mem_append.mp he with he | he
        · exact ((hmemOut e).mp he).1
        · exact ((hmemIn e).mp he).1
      obtain ⟨view', hrun, hcons, hedges, _⟩ :=
        Consistent.deleteEdges _ h fun e he => Or.inl (hstored e he)
      simp only [hrun, ← hnid]
      refine hcons.removeNode fun e he side hside => ?_
      obtain ⟨he', hnot⟩ := (hedges e).mp he
      refine hnot (mem_append.mpr ?_)
      cases side with
      | out => exact .inl ((hmemOut e).mpr ⟨he', hside.trans hnid, fun t ht => by cases ht⟩)
      | into => exact .inr ((hmemIn e).mpr ⟨he', hside.trans hnid, fun t ht => by cases ht⟩)

theorem Consistent.counters (h : g.Consistent view) (g' : GraphStore) (hname : g'.graphName = g.graphName)
    (hnode : g.nextNodeId ≤ g'.nextNodeId) (hedge : g.nextEdgeId ≤ g'.nextEdgeId) :
    g'.Consistent view := by
  obtain ⟨name, nextNodeId, nextEdgeId⟩ := g
  obtain ⟨_, nextNodeId', nextEdgeId'⟩ := g'
  change _ = name at hname
  subst hname
  refine ⟨fun id => ?_, fun id => ?_, h.keys, h.adjacent, h.labelled, fun k v hk => ?_⟩
  · obtain ⟨o, ho, hall⟩ := h.node id
    refine ⟨o, ho, fun n hn => ?_⟩
    obtain ⟨hid, hlt, hfree⟩ := hall n hn
    exact ⟨hid, UInt64.lt_of_lt_of_le hlt hnode, hfree⟩
  · obtain ⟨o, ho, hall⟩ := h.edge id
    refine ⟨o, ho, fun e he => ?_⟩
    obtain ⟨hid, hlt, hrest⟩ := hall e he
    exact ⟨hid, UInt64.lt_of_lt_of_le hlt hedge, hrest⟩
  · obtain ⟨label, rest, id, hfree, hkey, hv, hlt, hall⟩ := h.entries k v hk
    exact ⟨label, rest, id, hfree, hkey, hv, UInt64.lt_of_lt_of_le hlt hnode, hall⟩

theorem Consistent.writeMeta (h : g.Consistent view) {w : Write} (hw : w.mapName = g.metaMap) :
    g.Consistent (view.write w) := by
  have hget : ∀ m k, m ≠ g.metaMap → ((view.write w) m).get k = (view m).get k := by
    intro m k hm
    rw [View.get_write, Write.at_eq_none fun heq => hm (heq.symm.trans hw)]
    rfl
  have hedges : ∀ k, ((view.write w) g.edgesMap).get k = (view g.edgesMap).get k :=
    fun k => hget _ k (by simp [edgesMap, metaMap])
  refine h.of_edges (fun k => hget _ k (by simp [nodesMap, metaMap]))
    (fun k => hget _ k (by simp [idxLabelMap, metaMap])) (fun id => ?_) (fun k v hk => ?_) fun side k => ?_
  · rw [getEdge_congr (hedges _)]
    exact h.edge id
  · rw [hedges] at hk
    exact h.keys _ k v (.inr rfl) hk
  · rw [hget _ k (by cases side <;> simp [Side.map, adjOutMap, adjInMap, metaMap]), h.adjacent side k]
    exact exists_congr fun e => and_congr_left fun _ => (hasEdge_congr hedges e).symm

theorem Consistent.lt_nextNodeId (h : g.Consistent view) {n : Node} (hn : g.HasNode view.seen n) :
    n.id < g.nextNodeId := by
  obtain ⟨o, ho, hall⟩ := h.node n.id
  rw [HasNode, ho] at hn
  cases hn
  exact (hall n rfl).2.1

theorem Consistent.lt_nextEdgeId (h : g.Consistent view) {e : Edge} (he : g.HasEdge view.seen e) :
    e.id < g.nextEdgeId := by
  obtain ⟨o, ho, hall⟩ := h.edge e.id
  rw [HasEdge, ho] at he
  cases he
  exact (hall e rfl).2.1

variable {properties : Properties}

theorem Consistent.createNode (h : g.Consistent view) {labels : List String}
    {node' : Node} (hr : Codecs.ReadsNode ⟨g.nextNodeId, labels, properties⟩ node' bytes)
    (hfree : ∀ label ∈ labels, NulFree label) (hroom : g.nextNodeId.toNat + 1 < 2 ^ 64) :
    (g.createNode view labels properties).2.1.Consistent (g.createNode view labels properties).2.2 := by
  have hlt := lt_add_one_of_room hroom
  have hnote := h.writeMeta (w := g.noteNodeId) rfl
  -- the number is beyond those of all nodes and of all that is left in the index
  have hsaved := (hnote.counters { g with nextNodeId := g.nextNodeId + 1 } rfl (UInt64.le_of_lt hlt)
    (UInt64.le_refl _)).saveNode hr hlt hfree (fun n hn hnid => ?_) (.inr fun k v hk hv => ?_)
  · exact hsaved
  · exact absurd (hnid ▸ hnote.lt_nextNodeId (n := n) hn) (UInt64.lt_irrefl _)
  · obtain ⟨_, _, id, _, _, hid, hidlt, _⟩ := hnote.entries k v hk
    rw [hid, idKey_inj] at hv
    exact absurd (hv ▸ hidlt) (UInt64.lt_irrefl _)

theorem Consistent.createEdge (h : g.Consistent view) {edgeType : String} {srcId dstId : UInt64}
    {edge' : Edge} (hr : Codecs.ReadsEdge ⟨g.nextEdgeId, edgeType, srcId, dstId, properties⟩ edge' bytes)
    (hfree : NulFree edgeType) (hroom : g.nextEdgeId.toNat + 1 < 2 ^ 64) :
    (g.createEdge view edgeType srcId dstId properties).2.1.Consistent
      (g.createEdge view edgeType srcId dstId properties).2.2 := by
  obtain ⟨src, hsrc, hallSrc⟩ := h.node srcId
  obtain ⟨dst, hdst, hallDst⟩ := h.node dstId
  unfold GraphStore.createEdge
  rw [hsrc, hdst]
  cases src with
  | none => exact h
  | some src =>
    cases dst with
    | none => exact h
    | some dst =>
      have hlt := lt_add_one_of_room hroom
      have hnote := h.writeMeta (w := g.noteEdgeId) rfl
      have hhas : ∀ n, g.HasNode (view.write g.noteEdgeId).seen n ↔ g.HasNode view.seen n :=
        hasNode_congr fun k => by
          rw [View.get_write, Write.at_eq_none (by simp [noteEdgeId, Write.mapName, nodesMap, metaMap])]
          rfl
      have hsaved := (hnote.counters { g with nextEdgeId := g.nextEdgeId + 1 } rfl (UInt64.le_refl _)
        (UInt64.le_of_lt hlt)).saveEdge hr hlt hfree (fun side => ?_) fun e he heid => ?_
      · exact hsaved
      · have hsrcid : src.id = srcId := (hallSrc src rfl).1
        have hdstid : dst.id = dstId := (hallDst dst rfl).1
        cases side with
        | out => exact ⟨src, (hhas src).mpr (by rw [HasNode, hsrcid, hsrc]), hsrcid⟩
        | into => exact ⟨dst, (hhas dst).mpr (by rw [HasNode, hdstid, hdst]), hdstid⟩
      · exact absurd (heid ▸ hnote.lt_nextEdgeId (e := e) he) (UInt64.lt_irrefl _)

end GraphStore

end

end H2Database.Graph
