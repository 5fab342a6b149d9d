import H2Database.Graph.Match

/-!
# The search finds the matches that pass its tests
-/

namespace H2Database.Graph

open Reasoning Mvstore Sql List

namespace GraphStore

/-! ## Edges and walks -/

def TypeWritten (edgeType : Option String) (edge : Edge) : Prop :=
  ∀ t ∈ edgeType, utf8 t ++ [0] <+: utf8 edge.edgeType ++ 0 :: idKey edge.id

theorem isPrefixOf_sideKey (side : Side) (nodeId : UInt64) (edgeType : Option String) (edge : Edge) :
    (encodeAdjKey nodeId edgeType none).isPrefixOf (side.key edge) = true ↔
      side.node edge = nodeId ∧ TypeWritten edgeType edge := by
  rw [List.isPrefixOf_iff_prefix, Side.key, TypeWritten]
  cases edgeType with
  | none =>
    change idKey nodeId <+: idKey (side.node edge) ++ _ ↔ _
    constructor
    · rintro ⟨rest, hrest⟩
      exact ⟨(idKey_append_inj hrest).1.symm, fun t ht => by cases ht⟩
    · rintro ⟨hnode, _⟩
      rw [hnode]
      exact prefix_append _ _
  | some t =>
    change idKey nodeId ++ 1 :: (utf8 t ++ [0]) <+: idKey (side.node edge) ++
      1 :: (utf8 edge.edgeType ++ 0 :: _) ↔ _
    constructor
    · rintro ⟨rest, hrest⟩
      rw [append_assoc] at hrest
      obtain ⟨hid, htail⟩ := idKey_append_inj hrest
      rw [cons_append] at htail
      injection htail with _ htail
      refine ⟨hid.symm, fun t' ht' => ?_⟩
      cases ht'
      exact ⟨rest, htail⟩
    · rintro ⟨hnode, htype⟩
      obtain ⟨rest, hrest⟩ := htype t rfl
      refine ⟨rest, ?_⟩
      rw [hnode, append_assoc, cons_append, hrest]

/-- The edge hangs on the node on the side where the pattern looks for it. -/
def touches : Direction → UInt64 → Edge → Prop
  | .outgoing, nodeId, e => e.srcId = nodeId
  | .incoming, nodeId, e => e.dstId = nodeId
  | .both, nodeId, e => e.srcId = nodeId ∨ e.dstId = nodeId

theorem joins_iff (direction : Direction) (a b : UInt64) (e : Edge) :
    direction.joins a b e ↔ touches direction a e ∧ b = otherEnd e a := by
  unfold otherEnd
  cases direction with
  | outgoing =>
    simp only [Direction.joins, touches]
    split_ifs with hsrc
    · exact and_congr_right fun _ => eq_comm
    · exact ⟨fun h => absurd h.1 hsrc, fun h => absurd h.1 hsrc⟩
  | incoming =>
    simp only [Direction.joins, touches]
    refine and_congr_right fun hdst => ?_
    split_ifs with hsrc
    · rw [hdst, hsrc]
      exact eq_comm
    · exact eq_comm
  | both =>
    simp only [Direction.joins, touches]
    split_ifs with hsrc
    · constructor
      · rintro (⟨_, hb⟩ | ⟨hdst, hb⟩)
        · exact ⟨.inl hsrc, hb.symm⟩
        · exact ⟨.inl hsrc, by rw [hdst, ← hb, hsrc]⟩
      · rintro ⟨_, rfl⟩
        exact .inl ⟨hsrc, rfl⟩
    · constructor
      · rintro (⟨ha, _⟩ | ⟨hdst, hb⟩)
        · exact absurd ha hsrc
        · exact ⟨.inr hdst, hb.symm⟩
      · rintro ⟨htouch, rfl⟩
        exact .inr ⟨htouch.resolve_left hsrc, rfl⟩

variable {edges : List Edge}

theorem mem_of_mem_dedupFrom {last e : Edge} (h : e ∈ dedupFrom last edges) : e ∈ edges := by
  induction edges generalizing last with
  | nil => cases h
  | cons e' edges ih =>
    rw [dedupFrom] at h
    split_ifs at h
    · exact mem_cons_of_mem _ (ih h)
    · rcases mem_cons.mp h with rfl | h
      · exact mem_cons_self
      · exact mem_cons_of_mem _ (ih h)

theorem id_mem_dedupFrom {last e : Edge} (h : e ∈ edges) :
    e.id = last.id ∨ e.id ∈ (dedupFrom last edges).map Edge.id := by
  induction edges generalizing last with
  | nil => cases h
  | cons e' edges ih =>
    rw [dedupFrom]
    split_ifs with hsame
    · rcases mem_cons.mp h with rfl | h
      · exact .inl hsame
      · exact ih h
    · right
      rw [map_cons, mem_cons]
      rcases mem_cons.mp h with rfl | h
      · exact .inl rfl
      · exact ih h

theorem nodup_dedupFrom {last : Edge} (h : (last :: edges).Pairwise fun a b => a.id ≤ b.id) :
    ((last :: dedupFrom last edges).map Edge.id).Nodup := by
  induction edges generalizing last with
  | nil => exact nodup_singleton _
  | cons e edges ih =>
    obtain ⟨hlast, hrest⟩ := pairwise_cons.mp h
    rw [dedupFrom]
    split_ifs with hsame
    · apply ih
      rw [pairwise_cons]
      exact ⟨fun b hb => hlast b (mem_cons_of_mem _ hb), (pairwise_cons.mp hrest).2⟩
    · rw [map_cons, nodup_cons]
      refine ⟨fun hin => ?_, ih hrest⟩
      -- the first one that stays is larger, and the others are larger still
      have hle := UInt64.le_iff_toNat_le.mp (hlast e mem_cons_self)
      have hne : e.id.toNat ≠ last.id.toNat := fun heq => hsame (UInt64.toNat_inj.mp heq)
      rw [map_cons, mem_cons] at hin
      rcases hin with heq | hin
      · exact hsame heq.symm
      · obtain ⟨b, hb, heq⟩ := mem_map.mp hin
        have hle' := UInt64.le_iff_toNat_le.mp ((pairwise_cons.mp hrest).1 b (mem_of_mem_dedupFrom hb))
        rw [heq] at hle'
        omega

theorem dedupById_spec (h : ∀ e ∈ edges, ∀ e' ∈ edges, e.id = e'.id → e = e') :
    ((dedupById (edges.mergeSort fun a b => a.id ≤ b.id)).map Edge.id).Nodup ∧
      ∀ e, e ∈ dedupById (edges.mergeSort fun a b => a.id ≤ b.id) ↔ e ∈ edges := by
  have hsorted : (edges.mergeSort fun a b => a.id ≤ b.id).Pairwise fun a b => a.id ≤ b.id := by
    have hpair : (edges.mergeSort fun a b => a.id ≤ b.id).Pairwise fun a b =>
        decide (a.id ≤ b.id) = true := by
      apply pairwise_mergeSort
      · intro a b c hab hbc
        exact decide_eq_true (UInt64.le_trans (of_decide_eq_true hab) (of_decide_eq_true hbc))
      · intro a b
        rw [Bool.or_eq_true, decide_eq_true_iff, decide_eq_true_iff]
        exact UInt64.le_total a.id b.id
    exact hpair.imp fun hle => of_decide_eq_true hle
  have hperm : ∀ e, e ∈ edges.mergeSort (fun a b => a.id ≤ b.id) ↔ e ∈ edges := fun e => mem_mergeSort
  cases hlist : edges.mergeSort fun a b => a.id ≤ b.id with
  | nil =>
    rw [hlist] at hperm
    exact ⟨nodup_nil, hperm⟩
  | cons first rest =>
    rw [hlist] at hsorted hperm
    refine ⟨nodup_dedupFrom hsorted, fun e => ?_⟩
    rw [dedupById, ← hperm e, mem_cons, mem_cons]
    constructor
    · exact Or.imp_right mem_of_mem_dedupFrom
    · rintro (rfl | he)
      · exact .inl rfl
      · have hin := (hperm e).mp (mem_cons_of_mem _ he)
        rcases @id_mem_dedupFrom rest first e he with hid | hid
        · exact .inl (h e hin first ((hperm first).mp mem_cons_self) hid)
        · obtain ⟨e', he', hid'⟩ := mem_map.mp hid
          have hin' := (hperm e').mp (mem_cons_of_mem _ (mem_of_mem_dedupFrom he'))
          rw [← h e' hin' e hin hid']
          exact .inr he'

def active (p : Match × Bindings) : Active := ⟨p.1.last, p.2, p.1.path⟩

def extend (s : EdgePattern × NodePattern) (p : Match × Bindings) (hop : Edge × Node) : Match × Bindings :=
  (p.1.snoc hop, insertAll p.2 (stepBindings s.1 s.2 hop.1 hop.2))

theorem active_extend (s : EdgePattern × NodePattern) (p : Match × Bindings) (hop : Edge × Node) :
    active (extend s p hop) = ⟨hop.2, insertAll p.2 (stepBindings s.1 s.2 hop.1 hop.2),
      ⟨(active p).path.nodes ++ [hop.2], (active p).path.edges ++ [hop.1]⟩⟩ := by
  simp [active, extend, Match.path, Match.snoc, Match.last]

theorem any_used (p : Match × Bindings) (id : UInt64) :
    ((active p).path.edges.any fun e => e.id == id) = true ↔ id ∈ p.1.used := by
  simp [active, Match.path, Match.used]

section

variable [Codecs] {g : GraphStore} {view : View} (lossy : List UInt8 → String)

/-! ## What can be read -/

/-- Nodes and edges can be read, and the adjacency maps mirror the edges.  The label index may hold
anything. -/
structure Linked (g : GraphStore) (view : View) : Prop where
  node : ∀ id, ∃ o, g.getNode view.seen id = .ok o ∧ ∀ n ∈ o, n.id = id
  edge : ∀ id, ∃ o, g.getEdge view.seen id = .ok o ∧ ∀ e ∈ o, e.id = id ∧ NulFree e.edgeType
  keys : ∀ k v, (view g.nodesMap).get k = some v → ∃ id, k = idKey id
  adjacent : ∀ (side : Side) (k : Key), ((view (side.map g)).get k).isSome ↔
    ∃ e, g.HasEdge view.seen e ∧ k = side.key e

theorem Consistent.linked (h : g.Consistent view) : g.Linked view := by
  constructor
  · intro id
    obtain ⟨o, ho, hall⟩ := h.node id
    exact ⟨o, ho, fun n hn => (hall n hn).1⟩
  · intro id
    obtain ⟨o, ho, hall⟩ := h.edge id
    exact ⟨o, ho, fun e he => ⟨(hall e he).1, (hall e he).2.2.1⟩⟩
  · exact fun k v hk => h.keys _ k v (.inl rfl) hk
  · exact h.adjacent

theorem Linked.nodesIn (h : g.Linked view) {entries : List (Key × List UInt8)}
    (hget : ∀ p ∈ entries, (view g.nodesMap).get p.1 = some p.2) (hnd : (entries.map Prod.fst).Nodup) :
    ∃ nodes, GraphStore.nodesIn entries = .ok nodes ∧ nodes.Nodup ∧
      ∀ n, n ∈ nodes ↔ g.HasNode view.seen n ∧ idKey n.id ∈ entries.map Prod.fst := by
  induction entries with
  | nil => exact ⟨[], rfl, nodup_nil, fun n => by simp⟩
  | cons p entries ih =>
    rw [map_cons, nodup_cons] at hnd
    obtain ⟨nodes, heq, hnodup, hmem⟩ := ih (fun q hq => hget q (mem_cons_of_mem _ hq)) hnd.2
    have hp := hget p mem_cons_self
    obtain ⟨id, hid⟩ := h.keys _ _ hp
    obtain ⟨o, ho, hall⟩ := h.node id
    have hdecode : ∃ n, Codecs.node.deserialize p.2 = .ok n ∧ n.id = id ∧ g.HasNode view.seen n := by
      rw [hid] at hp
      rw [getNode, View.get_seen, hp] at ho
      simp only at ho
      split at ho
      · cases ho
      · rename_i n hn
        cases ho
        have hnid : n.id = id := hall n rfl
        refine ⟨n, hn, hnid, ?_⟩
        rw [HasNode, hnid]
        exact getNode_of_some hp hn
    obtain ⟨n, hn, hnid, hhas⟩ := hdecode
    refine ⟨n :: nodes, ?_, ?_, fun n' => ?_⟩
    · simp only [GraphStore.nodesIn, hn, heq]
      rfl
    · rw [nodup_cons]
      refine ⟨fun hin => hnd.1 ?_, hnodup⟩
      rw [hid, ← hnid]
      exact ((hmem n).mp hin).2
    · rw [mem_cons, hmem n', map_cons, mem_cons]
      constructor
      · rintro (rfl | ⟨hn', hkey⟩)
        · exact ⟨hhas, Or.inl (by rw [hnid, hid])⟩
        · exact ⟨hn', Or.inr hkey⟩
      · rintro ⟨hn', hkey | hkey⟩
        · rw [hid, idKey_inj] at hkey
          exact .inl (hn'.unique hhas (hkey.trans hnid.symm))
        · exact .inr ⟨hn', hkey⟩

theorem Linked.allNodes (h : g.Linked view) : ∃ nodes, g.allNodes view.seen = .ok nodes ∧ nodes.Nodup ∧
    ∀ n, n ∈ nodes ↔ g.HasNode view.seen n := by
  have hnd : ((view.seen.scan g.nodesMap).map Prod.fst).Nodup := by
    have hall := view.nodup_map_filter_scan g.nodesMap fun _ => true
    rwa [filter_true] at hall
  obtain ⟨nodes, heq, hnodup, hmem⟩ := h.nodesIn (fun p hp => View.mem_scan.mp hp) hnd
  refine ⟨nodes, heq, hnodup, fun n => ?_⟩
  rw [hmem n]
  refine and_iff_left_of_imp fun hn => ?_
  cases hget : (view g.nodesMap).get (idKey n.id) with
  | none =>
    rw [HasNode, getNode_of_none hget] at hn
    cases hn
  | some bytes => exact mem_map.mpr ⟨(idKey n.id, bytes), View.mem_scan.mpr hget, rfl⟩

theorem Linked.nodesBehind (h : g.Linked view) (front : Key) :
    ∃ nodes, g.nodesBehind view.seen [] (view.seen.scanPrefix g.idxLabelMap front) = .ok nodes ∧ nodes.Nodup ∧
      ∀ n, n ∈ nodes ↔ g.HasNode view.seen n ∧
        ∃ k, (view g.idxLabelMap).get k = some (idKey n.id) ∧ front <+: k := by
  obtain ⟨nodes, heq, hnodup, hmem⟩ := nodesBehind_spec h.node [] (view.seen.scanPrefix g.idxLabelMap front)
  refine ⟨nodes, heq, hnodup.of_map, fun n => ?_⟩
  rw [hmem n]
  refine and_congr_right fun _ => ?_
  constructor
  · rintro ⟨_, p, hp, hkey⟩
    obtain ⟨hscan, hpre⟩ := mem_filter.mp hp
    refine ⟨p.1, ?_, isPrefixOf_iff_prefix.mp hpre⟩
    rw [← hkey]
    exact View.mem_scan.mp hscan
  · rintro ⟨k, hk, hpre⟩
    exact ⟨not_mem_nil, (k, idKey n.id),
      mem_filter.mpr ⟨View.mem_scan.mpr hk, isPrefixOf_iff_prefix.mpr hpre⟩, rfl⟩

theorem Linked.edgesAt (h : g.Linked view) (side : Side) (nodeId : UInt64) (edgeType : Option String) :
    ∃ edges, g.edgesAt lossy view.seen side nodeId edgeType = .ok edges ∧ (edges.map Edge.id).Nodup ∧
      ∀ e, e ∈ edges ↔ g.HasEdge view.seen e ∧ side.node e = nodeId ∧ TypeWritten edgeType e := by
  have hfree : ∀ e, g.HasEdge view.seen e → NulFree e.edgeType := by
    intro e he
    obtain ⟨o, ho, hall⟩ := h.edge e.id
    rw [HasEdge, ho] at he
    cases he
    exact (hall e rfl).2
  obtain ⟨edges, heq, hnodup, hmem⟩ :=
    @edgesAt_listed _ g lossy view side hfree (h.adjacent side) nodeId edgeType
  refine ⟨edges, heq, hnodup, fun e => ?_⟩
  rw [hmem e, isPrefixOf_sideKey]

theorem Linked.edgesTowards (h : g.Linked view) (nodeId : UInt64) (typeFilter : Option String)
    (direction : Direction) :
    ∃ edges, g.edgesTowards lossy view.seen nodeId typeFilter direction = .ok edges ∧
      (edges.map Edge.id).Nodup ∧
      ∀ e, e ∈ edges ↔ g.HasEdge view.seen e ∧ touches direction nodeId e ∧ TypeWritten typeFilter e := by
  cases direction with
  | outgoing => exact h.edgesAt lossy .out nodeId typeFilter
  | incoming => exact h.edgesAt lossy .into nodeId typeFilter
  | both =>
    obtain ⟨out, hout, _, hmemOut⟩ := h.edgesAt lossy .out nodeId typeFilter
    obtain ⟨inc, hinc, _, hmemInc⟩ := h.edgesAt lossy .into nodeId typeFilter
    rw [edgesAt_out] at hout
    rw [edgesAt_into] at hinc
    have hhas : ∀ e ∈ out ++ inc, g.HasEdge view.seen e := by
      intro e he
      rcases mem_append.mp he with he | he
      · exact ((hmemOut e).mp he).1
      · exact ((hmemInc e).mp he).1
    obtain ⟨hnodup, hmem⟩ := dedupById_spec fun e he e' he' => (hhas e he).unique (hhas e' he')
    refine ⟨_, ?_, hnodup, fun e => ?_⟩
    · simp only [GraphStore.edgesTowards, hout, hinc]
    · rw [hmem e, mem_append, hmemOut e, hmemInc e, ← and_or_left, ← or_and_right]
      rfl

def nextHop (g : GraphStore) (seen : Visible) (cur : UInt64) (used : List UInt64) (e : Edge) :
    Option (Edge × Node) :=
  if e.id ∈ used then none
  else
    match g.getNode seen (otherEnd e cur) with
    | .ok (some next) => some (e, next)
    | _ => none

def nextHops (g : GraphStore) (seen : Visible) (cur : UInt64) (used : List UInt64) (edges : List Edge) :
    List (Edge × Node) := edges.filterMap (g.nextHop seen cur used)

variable {cur : UInt64} {used : List UInt64}

theorem Linked.mem_nextHop (h : g.Linked view) {e : Edge} {hop : Edge × Node} :
    hop ∈ g.nextHop view.seen cur used e ↔
      hop.1 = e ∧ e.id ∉ used ∧ g.HasNode view.seen hop.2 ∧ hop.2.id = otherEnd e cur := by
  obtain ⟨o, ho, hoid⟩ := h.node (otherEnd e cur)
  rw [nextHop, ho]
  constructor
  · intro hsome
    split_ifs at hsome with hused
    · cases hsome
    · cases o with
      | none => cases hsome
      | some next =>
        cases hsome
        refine ⟨rfl, hused, ?_, hoid next rfl⟩
        rw [HasNode, hoid next rfl]
        exact ho
  · rintro ⟨hedge, hused, hn, hid⟩
    rw [HasNode, hid, ho] at hn
    cases hn
    rw [if_neg hused, ← hedge]
    rfl

theorem Linked.mem_nextHops (h : g.Linked view)
    {hop : Edge × Node} : hop ∈ g.nextHops view.seen cur used edges ↔
      hop.1 ∈ edges ∧ hop.1.id ∉ used ∧ g.HasNode view.seen hop.2 ∧ hop.2.id = otherEnd hop.1 cur := by
  rw [nextHops, mem_filterMap]
  constructor
  · rintro ⟨e, he, hhop⟩
    obtain ⟨rfl, hrest⟩ := h.mem_nextHop.mp hhop
    exact ⟨he, hrest⟩
  · rintro ⟨he, hrest⟩
    exact ⟨hop.1, he, h.mem_nextHop.mpr ⟨rfl, hrest⟩⟩

theorem Linked.nodup_nextHops (h : g.Linked view)
    (hnd : edges.Nodup) : (g.nextHops view.seen cur used edges).Nodup :=
  hnd.filterMap fun _ _ _ he he' => (h.mem_nextHop.mp he).1.symm.trans (h.mem_nextHop.mp he').1

/-! ## Candidates -/

variable [GraphJson]

theorem Linked.candidates (h : g.Linked view) (pattern : Pattern) (params : Bindings) :
    ∃ nodes, g.candidates view.seen pattern.start params = .ok nodes ∧ nodes.Nodup ∧
      ∀ n, n ∈ nodes ↔ g.HasNode view.seen n ∧ g.Indexed view pattern params n := by
  unfold GraphStore.candidates Indexed
  cases pattern.start.labels with
  | nil =>
    obtain ⟨nodes, heq, hnodup, hmem⟩ := h.allNodes
    refine ⟨nodes, heq, hnodup, fun n => ?_⟩
    rw [hmem n]
    refine (and_iff_left ?_).symm
    intro label hlabel
    cases hlabel
  | cons firstLabel labels =>
    have hfound := h.nodesBehind (encodeLabelIdxPrefix firstLabel
      (pattern.start.properties.head?.map fun p => (p.1, (evalExpr params p.2).toValue)))
    cases hprops : pattern.start.properties with
    | nil =>
      rw [hprops] at hfound
      simpa [findNodesByLabel] using hfound
    | cons p properties =>
      rw [hprops] at hfound
      simpa [findNodesByLabelAndProp] using hfound

variable [Crates]

theorem Linked.findCandidateNodes (h : g.Linked view) (pattern : Pattern) (row params : Bindings) :
    ∃ nodes, g.findCandidateNodes view.seen pattern.start row params = .ok nodes ∧ nodes.Nodup ∧
      ∀ n, n ∈ nodes ↔ nodeMatchesPattern n pattern.start params = true ∧
        match boundNode row pattern.start.variable_ with
        | some node => n = node
        | none => g.HasNode view.seen n ∧ g.Indexed view pattern params n := by
  unfold GraphStore.findCandidateNodes
  cases hbound : boundNode row pattern.start.variable_ with
  | some node =>
    refine ⟨_, rfl, ?_, fun n => ?_⟩
    · split_ifs
      · exact nodup_singleton node
      · exact nodup_nil
    · split_ifs with hmatch
      · rw [mem_singleton]
        constructor
        · rintro rfl
          exact ⟨hmatch, rfl⟩
        · exact fun hn => hn.2
      · refine iff_of_false not_mem_nil ?_
        rintro ⟨hn, rfl⟩
        exact hmatch hn
  | none =>
    obtain ⟨nodes, heq, hnodup, hmem⟩ := h.candidates pattern params
    refine ⟨nodes.filter fun n => nodeMatchesPattern n pattern.start params, ?_, hnodup.filter _, fun n => ?_⟩
    · simp only [heq]
      rfl
    · rw [mem_filter, hmem n]
      exact and_comm

/-! ## Edges -/

theorem Linked.getMatchingEdges (h : g.Linked view) (nodeId : UInt64) (edgePat : EdgePattern) :
    ∃ edges, g.getMatchingEdges lossy view.seen nodeId edgePat = .ok edges ∧ (edges.map Edge.id).Nodup ∧
      ∀ e, e ∈ edges ↔ g.HasEdge view.seen e ∧ touches edgePat.direction nodeId e ∧
        TypeWritten edgePat.edgeTypes.head? e ∧ retains edgePat e = true := by
  obtain ⟨edges, heq, hnodup, hmem⟩ := h.edgesTowards lossy nodeId edgePat.edgeTypes.head? edgePat.direction
  refine ⟨edges.filter (retains edgePat), ?_, ?_, fun e => ?_⟩
  · rw [GraphStore.getMatchingEdges, heq]
    rfl
  · exact hnodup.sublist (filter_sublist.map Edge.id)
  · rw [mem_filter, hmem e, and_assoc, and_assoc]

theorem Linked.expandEdges (h : g.Linked view) (s : EdgePattern × NodePattern) (params : Bindings)
    (p : Match × Bindings) (edges : List Edge) :
    g.expandEdges view.seen s.1 s.2 params (active p) edges =
      .ok (((g.nextHops view.seen p.1.last.id p.1.used edges).filter
        fun hop => nodeMatchesPattern hop.2 s.2 params).map fun hop => active (extend s p hop)) := by
  induction edges with
  | nil => rfl
  | cons e edges ih =>
    have hcurr : (active p).node.id = p.1.last.id := rfl
    rw [nextHops] at ih
    rw [GraphStore.expandEdges, nextHops, filterMap_cons, nextHop]
    by_cases hused : e.id ∈ p.1.used
    · rw [if_pos ((any_used p e.id).mpr hused), if_pos hused]
      exact ih
    · rw [if_neg fun hany => hused ((any_used p e.id).mp hany), if_neg hused, hcurr]
      obtain ⟨o, ho, _⟩ := h.node (otherEnd e p.1.last.id)
      cases o with
      | none =>
        simp only [ho]
        exact ih
      | some next =>
        simp only [ho, filter_cons]
        split_ifs
        · rw [map_cons, active_extend, ih]
          rfl
        · exact ih

def Takes (g : GraphStore) (view : View) (params : Bindings) (m : Match) (s : EdgePattern × NodePattern)
    (hop : Edge × Node) : Prop :=
  (g.Stepped view params m.last s hop ∧ EdgeWritten m.last s hop) ∧ hop.1.id ∉ m.used

theorem Linked.expandStep (h : g.Linked view) (s : EdgePattern × NodePattern) (params : Bindings)
    (p : Match × Bindings) :
    ∃ hops : List (Edge × Node), g.expandStep lossy view.seen s.1 s.2 params (active p) =
        .ok (hops.map fun hop => active (extend s p hop)) ∧ hops.Nodup ∧
      ∀ hop, hop ∈ hops ↔ Takes g view params p.1 s hop := by
  obtain ⟨edges, hedges, hnodup, hmemEdges⟩ := h.getMatchingEdges lossy p.1.last.id s.1
  have hnode : (active p).node.id = p.1.last.id := rfl
  refine ⟨(g.nextHops view.seen p.1.last.id p.1.used edges).filter fun hop =>
    nodeMatchesPattern hop.2 s.2 params, ?_,
    (h.nodup_nextHops hnodup.of_map).filter _, fun hop => ?_⟩
  · rw [GraphStore.expandStep, hnode, hedges]
    exact h.expandEdges s params p edges
  · rw [mem_filter, h.mem_nextHops, hmemEdges hop.1, Takes, Stepped, EdgeWritten, joins_iff]
    constructor
    · rintro ⟨⟨⟨hedge, htouch, htype, hretains⟩, hused, hn, hid⟩, hmatch⟩
      exact ⟨⟨⟨hedge, hn, ⟨htouch, hid⟩, hmatch⟩, htype, hretains⟩, hused⟩
    · rintro ⟨⟨⟨hedge, hn, ⟨htouch, hid⟩, hmatch⟩, htype, hretains⟩, hused⟩
      exact ⟨⟨⟨hedge, htouch, htype, hretains⟩, hused, hn, hid⟩, hmatch⟩

variable {ps : List (Match × Bindings)}

theorem Linked.expandAll (h : g.Linked view) (s : EdgePattern × NodePattern) (params : Bindings)
    (hnd : (ps.map Prod.fst).Nodup) :
    ∃ qs : List (Match × Bindings), g.expandAll lossy view.seen s.1 s.2 params (ps.map active) =
      .ok (qs.map active) ∧
      (qs.map Prod.fst).Nodup ∧
      ∀ q, q ∈ qs ↔ ∃ p ∈ ps, ∃ hop, Takes g view params p.1 s hop ∧ q = extend s p hop := by
  induction ps with
  | nil => exact ⟨[], rfl, nodup_nil, fun q => by simp⟩
  | cons p ps ih =>
    rw [map_cons, nodup_cons] at hnd
    obtain ⟨qs, hqs, hqnd, hqmem⟩ := ih hnd.2
    obtain ⟨hops, hhops, hhnd, hhmem⟩ := h.expandStep lossy s params p
    refine ⟨hops.map (extend s p) ++ qs, ?_, ?_, fun q => ?_⟩
    · rw [map_cons, GraphStore.expandAll, hhops]
      simp only [hqs, map_append, map_map]
      rfl
    · rw [map_append, nodup_append]
      refine ⟨?_, hqnd, ?_⟩
      · rw [map_map]
        exact hhnd.map fun hop hop' heq => (Match.snoc_inj heq).2
      · -- what comes from different matches is different
        intro m hm m' hm' hsame
        rw [map_map] at hm
        obtain ⟨hop, _, rfl⟩ := mem_map.mp hm
        obtain ⟨q, hq, rfl⟩ := mem_map.mp hm'
        obtain ⟨p', hp', hop', _, rfl⟩ := (hqmem q).mp hq
        have hfirst : p.1 = p'.1 := (Match.snoc_inj hsame).1
        exact hnd.1 (hfirst ▸ mem_map_of_mem hp')
    · rw [mem_append, mem_map, hqmem q]
      constructor
      · rintro (⟨hop, hhop, rfl⟩ | ⟨p', hp', hrest⟩)
        · exact ⟨p, mem_cons_self, hop, (hhmem hop).mp hhop, rfl⟩
        · exact ⟨p', mem_cons_of_mem _ hp', hrest⟩
      · rintro ⟨p', hp', hop, htakes, rfl⟩
        rcases mem_cons.mp hp' with rfl | hp'
        · exact .inl ⟨hop, (hhmem hop).mpr htakes, rfl⟩
        · exact .inr ⟨p', hp', hop, htakes, rfl⟩

/-! ## Chains -/

def Continues (g : GraphStore) (view : View) (params : Bindings) :
    Match → List (EdgePattern × NodePattern) → List (Edge × Node) → Prop
  | _, [], [] => True
  | m, s :: chain, hop :: hops => Takes g view params m s hop ∧
    Continues g view params (m.snoc hop) chain hops
  | _, _, _ => False

theorem continues_iff {params : Bindings} {m : Match} (hnd : m.used.Nodup)
    {chain : List (EdgePattern × NodePattern)}
    {hops : List (Edge × Node)} : Continues g view params m chain hops ↔
      AlongHops (fun cur s hop => g.Stepped view params cur s hop ∧ EdgeWritten cur s hop) m.last chain hops ∧
        (m.append hops).used.Nodup := by
  induction chain generalizing m hops with
  | nil =>
    cases hops with
    | nil =>
      rw [Match.append_nil]
      exact iff_of_true trivial ⟨trivial, hnd⟩
    | cons hop hops => exact iff_of_false (fun h => h.elim) fun h => h.1.elim
  | cons s chain ih =>
    cases hops with
    | nil => exact iff_of_false (fun h => h.elim) fun h => h.1.elim
    | cons hop hops =>
      have hsnoc : hop.1.id ∉ m.used → (m.snoc hop).used.Nodup := by
        intro hnot
        rw [Match.used_snoc]
        exact nodup_append.mpr ⟨hnd, nodup_singleton _, fun a ha b hb heq =>
          hnot (mem_singleton.mp hb ▸ heq ▸ ha)⟩
      constructor
      · rintro ⟨htakes, hrest⟩
        obtain ⟨halong, hused⟩ := (ih (hsnoc htakes.2)).mp hrest
        rw [Match.last_snoc] at halong
        rw [Match.append_snoc] at hused
        exact ⟨⟨htakes.1, halong⟩, hused⟩
      · rintro ⟨⟨hstep, halong⟩, hused⟩
        have hnot : hop.1.id ∉ m.used := by
          rw [Match.append, Match.used, map_append] at hused
          intro hin
          exact (nodup_append.mp hused).2.2 _ hin _ mem_cons_self rfl
        refine ⟨⟨hstep, hnot⟩, (ih (hsnoc hnot)).mpr ⟨?_, ?_⟩⟩
        · rw [Match.last_snoc]
          exact halong
        · rw [Match.append_snoc]
          exact hused

theorem Linked.expandChain (h : g.Linked view) (params : Bindings) (chain : List (EdgePattern × NodePattern))
    (hnd : (ps.map Prod.fst).Nodup) :
    ∃ qs : List (Match × Bindings), g.expandChain lossy view.seen params chain (ps.map active) =
      .ok (qs.map active) ∧
      (qs.map Prod.fst).Nodup ∧
      ∀ q, q ∈ qs ↔ ∃ p ∈ ps, ∃ hops, Continues g view params p.1 chain hops ∧
        q = (p.1.append hops, bindHops p.2 chain hops) := by
  induction chain generalizing ps with
  | nil =>
    refine ⟨ps, rfl, hnd, fun q => ?_⟩
    constructor
    · intro hq
      exact ⟨q, hq, [], trivial, by rw [Match.append_nil]; rfl⟩
    · rintro ⟨p, hp, hops, hcont, rfl⟩
      cases hops with
      | nil =>
        rw [Match.append_nil]
        exact hp
      | cons hop hops => cases hcont
  | cons s chain ih =>
    obtain ⟨qs, hqs, hqnd, hqmem⟩ := h.expandAll lossy s params hnd
    -- every way on begins with a step that has been found
    have hfirst : ∀ q, (∃ p ∈ ps, ∃ hops, Continues g view params p.1 (s :: chain) hops ∧
          q = (p.1.append hops, bindHops p.2 (s :: chain) hops)) ↔
        ∃ p ∈ qs, ∃ hops, Continues g view params p.1 chain hops ∧
          q = (p.1.append hops, bindHops p.2 chain hops) := by
      intro q
      constructor
      · rintro ⟨p, hp, hops, hcont, rfl⟩
        cases hops with
        | nil => cases hcont
        | cons hop hops =>
          refine ⟨extend s p hop, (hqmem _).mpr ⟨p, hp, hop, hcont.1, rfl⟩, hops, hcont.2, ?_⟩
          rw [extend, Match.append_snoc]
          rfl
      · rintro ⟨q', hq', hops, hcont, rfl⟩
        obtain ⟨p, hp, hop, htakes, rfl⟩ := (hqmem q').mp hq'
        refine ⟨p, hp, hop :: hops, ⟨htakes, hcont⟩, ?_⟩
        rw [extend, Match.append_snoc]
        rfl
    have hstep : g.expandAll lossy view.seen s.1 s.2 params (ps.map active) = .ok (qs.map active) := hqs
    cases qs with
    | nil =>
      refine ⟨[], ?_, nodup_nil, fun q => ?_⟩
      · simp only [GraphStore.expandChain, hstep]
        rfl
      · rw [hfirst q]
        refine iff_of_false not_mem_nil ?_
        rintro ⟨p, hp, _⟩
        cases hp
    | cons q qs =>
      obtain ⟨rs, hrs, hrnd, hrmem⟩ := ih hqnd
      refine ⟨rs, ?_, hrnd, fun r => ?_⟩
      · simp only [GraphStore.expandChain, hstep]
        exact hrs
      · rw [hrmem r, hfirst r]

/-! ## The search -/

theorem Linked.matchFrom (h : g.Linked view) (pattern : Pattern) (params : Bindings) {starts : List Node}
    (hnd : starts.Nodup) :
    ∃ ms : List Match, g.matchFrom lossy view.seen pattern params starts =
        .ok (ms.map fun m => active (m, m.bindings pattern)) ∧ ms.Nodup ∧
      ∀ m, m ∈ ms ↔ m.start ∈ starts ∧ Continues g view params ⟨m.start, []⟩ pattern.chain m.hops := by
  induction starts with
  | nil => exact ⟨[], rfl, nodup_nil, fun m => by simp⟩
  | cons start starts ih =>
    obtain ⟨hnot, hrest⟩ := nodup_cons.mp hnd
    obtain ⟨ms, hms, hmnd, hmmem⟩ := ih hrest
    have hone : ([((⟨start, []⟩ : Match), bindVariable pattern.start.variable_ (.node start) ∅)].map
        Prod.fst).Nodup := nodup_singleton _
    obtain ⟨qs, hqs, hqnd, hqmem⟩ := h.expandChain lossy params pattern.chain hone
    have hshape : ∀ q ∈ qs, q.1.start = start ∧ q = (q.1, q.1.bindings pattern) ∧
        Continues g view params ⟨start, []⟩ pattern.chain q.1.hops := by
      intro q hq
      obtain ⟨p, hp, hops, hcont, rfl⟩ := (hqmem q).mp hq
      rw [mem_singleton.mp hp] at hcont ⊢
      exact ⟨rfl, rfl, hcont⟩
    refine ⟨qs.map Prod.fst ++ ms, ?_, ?_, fun m => ?_⟩
    · have hactive : qs.map active = (qs.map Prod.fst).map fun m => active (m, m.bindings pattern) := by
        rw [map_map]
        exact map_congr_left fun q hq => congrArg active (hshape q hq).2.1
      have hstart : g.expandChain lossy view.seen params pattern.chain
          [⟨start, bindVariable pattern.start.variable_ (.node start) ∅, ⟨[start], []⟩⟩] =
            .ok (qs.map active) := hqs
      rw [GraphStore.matchFrom, hstart]
      simp only [hms, map_append, hactive]
      rfl
    · rw [nodup_append]
      refine ⟨hqnd, hmnd, ?_⟩
      intro m hm m' hm' hsame
      obtain ⟨q, hq, rfl⟩ := mem_map.mp hm
      apply hnot
      rw [← (hshape q hq).1, hsame]
      exact ((hmmem m').mp hm').1
    · rw [mem_append, mem_map, hmmem m, mem_cons]
      constructor
      · rintro (⟨q, hq, rfl⟩ | ⟨hin, hcont⟩)
        · obtain ⟨hqs', _, hcont⟩ := hshape q hq
          rw [hqs']
          exact ⟨.inl rfl, hcont⟩
        · exact ⟨.inr hin, hcont⟩
      · rintro ⟨hstart | hin, hcont⟩
        · left
          refine ⟨(m, m.bindings pattern), (hqmem _).mpr ⟨_, mem_singleton_self _, m.hops, ?_, ?_⟩, rfl⟩
          · rw [← hstart]
            exact hcont
          · rw [← hstart]
            rfl
        · exact .inr ⟨hin, hcont⟩

theorem Linked.matchPattern (h : g.Linked view) (pattern : Pattern) (row params : Bindings) :
    ∃ ms : List Match, g.matchPattern lossy view.seen pattern row params =
        .ok (ms.map fun m => (m.bindings pattern, m.path)) ∧ ms.Nodup ∧
      ∀ m, m ∈ ms ↔ g.Laid view pattern params m ∧ g.AsWritten view pattern row params m := by
  obtain ⟨starts, hstarts, hsnd, hsmem⟩ := h.findCandidateNodes pattern row params
  obtain ⟨ms, hms, hmnd, hmmem⟩ := h.matchFrom lossy pattern params hsnd
  refine ⟨ms, ?_, hmnd, fun m => ?_⟩
  · rw [GraphStore.matchPattern, hstarts]
    simp only [hms, Except.map, map_map]
    rfl
  · have hunused : (⟨m.start, []⟩ : Match).used.Nodup := nodup_nil
    rw [hmmem m, hsmem m.start, continues_iff hunused, alongHops_and]
    constructor
    · rintro ⟨⟨hmatch, hstart⟩, ⟨hstepped, hwritten⟩, hused⟩
      exact ⟨⟨hmatch, hstepped, hused⟩, ⟨hwritten, hstart⟩⟩
    · rintro ⟨⟨hmatch, hstepped, hused⟩, ⟨hwritten, hstart⟩⟩
      exact ⟨⟨hmatch, hstart⟩, ⟨hstepped, hwritten⟩, hused⟩

end

end GraphStore

end H2Database.Graph
