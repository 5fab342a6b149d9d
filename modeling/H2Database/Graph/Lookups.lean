import H2Database.Graph.Store
import H2Database.Reasoning.Joined

/-!
# What the graph store finds

The keys of the derived maps determine what they were made from, labels and types without zero bytes
provided: an adjacency key its ends, a key of the label index its label and its node.  From that follows
what a scan of the entries with a given front leads to.
-/

namespace H2Database.Graph

open Reasoning Mvstore Sql List

def NulFree (s : String) : Prop := (0 : UInt8) ∉ utf8 s

instance instDecidableNulFree (s : String) : Decidable (NulFree s) := inferInstanceAs (Decidable (¬ _))

theorem utf8_inj {s s' : String} (h : utf8 s = utf8 s') : s = s' := by
  have heq := congrArg fromUtf8 h
  rw [fromUtf8_utf8, fromUtf8_utf8] at heq
  exact Option.some.inj heq

variable {a b : List UInt8}

theorem utf8_cons_zero_inj {s s' : String} (hs : NulFree s) (hs' : NulFree s')
    (h : utf8 s ++ 0 :: a = utf8 s' ++ 0 :: b) : s = s' ∧ a = b := by
  rcases append_cons_eq_append_cons_iff.mp h with ⟨heq, hab⟩ | ⟨u, hu, _⟩ | ⟨u, hu, _⟩
  · exact ⟨utf8_inj heq, hab⟩
  · exact absurd (hu ▸ mem_append_right _ mem_cons_self) hs'
  · exact absurd (hu ▸ mem_append_right _ mem_cons_self) hs

theorem append_idKey_inj {id id' : UInt64} (h : a ++ idKey id = b ++ idKey id') :
    a = b ∧ id = id' := by
  obtain ⟨hab, hid⟩ := append_inj' h (by rw [length_idKey, length_idKey])
  exact ⟨hab, idKey_inj.mp hid⟩

theorem idKey_append_inj {id id' : UInt64} (h : idKey id ++ a = idKey id' ++ b) :
    id = id' ∧ a = b := by
  obtain ⟨hid, hab⟩ := append_inj h (by rw [length_idKey, length_idKey])
  exact ⟨idKey_inj.mp hid, hab⟩

theorem encodeAdjKey_eq (nodeId : UInt64) (t : String) (edgeId : UInt64) :
    encodeAdjKey nodeId (some t) (some edgeId) = (idKey nodeId ++ 1 :: (utf8 t ++ [0])) ++ idKey edgeId := by
  simp [encodeAdjKey]

theorem edgeId_of_encodeAdjKey {nodeId nodeId' edgeId edgeId' : UInt64} {t t' : String}
    (h : encodeAdjKey nodeId (some t) (some edgeId) = encodeAdjKey nodeId' (some t') (some edgeId')) :
    edgeId = edgeId' := by
  rw [encodeAdjKey_eq, encodeAdjKey_eq] at h
  exact (append_idKey_inj h).2

variable {t : String}

theorem takeWhile_utf8 (ht : NulFree t) (rest : List UInt8) :
    (utf8 t ++ 0 :: rest).takeWhile (· ≠ 0) = utf8 t := by
  rw [takeWhile_append_of_pos]
  · simp
  · intro b hb
    simpa using fun hzero : b = 0 => ht (hzero ▸ hb)

theorem ofNat_fromBe_idKey (id : UInt64) : UInt64.ofNat (fromBe (idKey id)) = id := by
  rw [fromBe_idKey, UInt64.ofNat_toNat]

theorem decodeAdjKey_encodeAdjKey (lossy : List UInt8 → String) (nodeId edgeId : UInt64)
    (ht : NulFree t) : decodeAdjKey lossy (encodeAdjKey nodeId (some t) (some edgeId)) =
      some (nodeId, lossy (utf8 t), edgeId) := by
  set rest := utf8 t ++ 0 :: idKey edgeId with hrest
  have hkey : encodeAdjKey nodeId (some t) (some edgeId) = idKey nodeId ++ 1 :: rest := rfl
  have hlong : ¬ (idKey nodeId ++ 1 :: rest).length ≤ 8 := by
    rw [length_append, length_idKey, length_cons]
    omega
  have htag : (idKey nodeId ++ 1 :: rest)[8]? = some 1 := by
    rw [getElem?_append_right (by rw [length_idKey]), length_idKey]
    rfl
  have hfront : (idKey nodeId ++ 1 :: rest).take 8 = idKey nodeId :=
    take_left' (length_idKey nodeId)
  have hdrop : (idKey nodeId ++ 1 :: rest).drop 9 = rest := by
    rw [show idKey nodeId ++ 1 :: rest = (idKey nodeId ++ [1]) ++ rest by simp]
    exact drop_left' (by rw [length_append, length_idKey]; rfl)
  have htail : rest.drop ((utf8 t).length + 1) = idKey edgeId := by
    rw [hrest, show utf8 t ++ 0 :: idKey edgeId = (utf8 t ++ [0]) ++ idKey edgeId by simp]
    exact drop_left' (by rw [length_append]; rfl)
  have hroom : (utf8 t).length < rest.length ∧ 8 ≤ (idKey edgeId).length := by
    rw [hrest, length_append, length_cons, length_idKey]
    omega
  unfold decodeAdjKey
  rw [hkey, if_neg hlong]
  simp only [htag, if_true, hdrop, hfront]
  rw [hrest, takeWhile_utf8 ht, ← hrest, htail, if_pos hroom, ofNat_fromBe_idKey,
    take_of_length_le (by rw [length_idKey]), ofNat_fromBe_idKey]

theorem idKey_ofNat_fromBe {v : List UInt8} (h : v.length = 8) : idKey (UInt64.ofNat (fromBe v)) = v := by
  have hlt : fromBe v < 2 ^ 64 := by
    have hbound := fromLe_lt v.reverse
    rw [length_reverse, h] at hbound
    exact hbound
  have hback := leBytes_fromLe v.reverse
  rw [length_reverse, h] at hback
  have hnat : (UInt64.ofNat (fromBe v)).toNat = fromBe v := UInt64.toNat_ofNat_of_lt' hlt
  rw [idKey, hnat, beBytes, fromBe, hback, reverse_reverse]

theorem isPrefixOf_encodeAdjKey {nodeId nodeId' edgeId : UInt64} {edgeType : Option String}
    (hty : ∀ t' ∈ edgeType, NulFree t') (ht : NulFree t) :
    (encodeAdjKey nodeId edgeType none).isPrefixOf (encodeAdjKey nodeId' (some t) (some edgeId)) = true ↔
      nodeId' = nodeId ∧ ∀ t' ∈ edgeType, t = t' := by
  rw [List.isPrefixOf_iff_prefix]
  cases edgeType with
  | none =>
    change idKey nodeId <+: idKey nodeId' ++ _ ↔ _
    constructor
    · rintro ⟨rest, hrest⟩
      exact ⟨(idKey_append_inj hrest).1.symm, fun _ h => by cases h⟩
    · rintro ⟨rfl, _⟩
      exact prefix_append _ _
  | some t' =>
    change idKey nodeId ++ 1 :: (utf8 t' ++ [0]) <+: idKey nodeId' ++ 1 :: (utf8 t ++ 0 :: idKey edgeId) ↔ _
    constructor
    · rintro ⟨rest, hrest⟩
      rw [append_assoc] at hrest
      obtain ⟨hid, htail⟩ := idKey_append_inj hrest
      rw [cons_append, append_assoc] at htail
      injection htail with _ htail
      obtain ⟨rfl, _⟩ := utf8_cons_zero_inj (hty t' rfl) ht htail
      refine ⟨hid.symm, fun t'' h'' => ?_⟩
      cases h''
      rfl
    · rintro ⟨rfl, hsame⟩
      rw [hsame t' rfl]
      exact ⟨idKey edgeId, by simp⟩

section

variable [Codecs]

theorem encodeLabelIdxKey_none (label : String) (id : UInt64) :
    encodeLabelIdxKey label none id = utf8 label ++ 0 :: idKey id := by
  simp [encodeLabelIdxKey, encodeLabelIdxPrefix]

theorem encodeLabelIdxKey_eq (label : String) (prop : Option (String × Value)) (id : UInt64) :
    ∃ rest, encodeLabelIdxKey label prop id = utf8 label ++ 0 :: rest := by
  cases prop with
  | none => exact ⟨idKey id, encodeLabelIdxKey_none label id⟩
  | some p => exact ⟨_, by simp [encodeLabelIdxKey, encodeLabelIdxPrefix]; rfl⟩

theorem isPrefixOf_label {label label' : String} (hl : NulFree label) (hl' : NulFree label')
    (rest : List UInt8) :
    (encodeLabelIdxPrefix label none).isPrefixOf (utf8 label' ++ 0 :: rest) = true ↔ label' = label := by
  rw [List.isPrefixOf_iff_prefix]
  constructor
  · rintro ⟨tail, htail⟩
    rw [encodeLabelIdxPrefix, append_assoc] at htail
    exact (utf8_cons_zero_inj hl hl' htail).1.symm
  · rintro rfl
    exact ⟨rest, by simp [encodeLabelIdxPrefix]⟩

/-! ## Edges behind entries -/

namespace GraphStore

variable {g : GraphStore} {seen : Visible} {lossy : List UInt8 → String}

def HasEdge (g : GraphStore) (seen : Visible) (edge : Edge) : Prop :=
  g.getEdge seen edge.id = .ok (some edge)

def HasNode (g : GraphStore) (seen : Visible) (node : Node) : Prop :=
  g.getNode seen node.id = .ok (some node)

theorem HasEdge.unique {edge edge' : Edge} (h : g.HasEdge seen edge) (h' : g.HasEdge seen edge')
    (hid : edge.id = edge'.id) : edge = edge' := by
  unfold HasEdge at h h'
  rw [hid, h'] at h
  cases h
  rfl

theorem HasNode.unique {node node' : Node} (h : g.HasNode seen node) (h' : g.HasNode seen node')
    (hid : node.id = node'.id) : node = node' := by
  unfold HasNode at h h'
  rw [hid, h'] at h
  cases h
  rfl

inductive Side where
  | out
  | into

def Side.node : Side → Edge → UInt64
  | .out, edge => edge.srcId
  | .into, edge => edge.dstId

def Side.key (side : Side) (edge : Edge) : Key :=
  encodeAdjKey (side.node edge) (some edge.edgeType) (some edge.id)

def Side.map (g : GraphStore) : Side → String
  | .out => g.adjOutMap
  | .into => g.adjInMap

/-- `get_out_edges` and `get_in_edges`. -/
def edgesAt (g : GraphStore) (lossy : List UInt8 → String) (seen : Visible) (side : Side) (nodeId : UInt64)
    (edgeType : Option String) : H2Result (List Edge) :=
  g.edgesBehind lossy seen (seen.scanPrefix (side.map g) (encodeAdjKey nodeId edgeType none))

theorem edgesAt_out (nodeId : UInt64) (edgeType : Option String) :
    g.edgesAt lossy seen .out nodeId edgeType = g.getOutEdges lossy seen nodeId edgeType := rfl

theorem edgesAt_into (nodeId : UInt64) (edgeType : Option String) :
    g.edgesAt lossy seen .into nodeId edgeType = g.getInEdges lossy seen nodeId edgeType := rfl

theorem edgesBehind_eq (lossy : List UInt8 → String) (side : Side) {entries : List (Key × List UInt8)}
    (h : ∀ p ∈ entries, ∃ edge, g.HasEdge seen edge ∧ NulFree edge.edgeType ∧ p.1 = side.key edge) :
    ∃ edges, g.edgesBehind lossy seen entries = .ok edges ∧
      edges.map side.key = entries.map Prod.fst ∧ ∀ edge ∈ edges, g.HasEdge seen edge := by
  induction entries with
  | nil =>
    refine ⟨[], rfl, rfl, fun edge hedge => ?_⟩
    cases hedge
  | cons p entries ih =>
    obtain ⟨edge, hedge, hfree, hkey⟩ := h p mem_cons_self
    obtain ⟨edges, hrest, hmap, hall⟩ := ih fun q hq => h q (mem_cons_of_mem _ hq)
    have hdecode : decodeAdjKey lossy p.1 = some (side.node edge, lossy (utf8 edge.edgeType), edge.id) := by
      rw [hkey, Side.key]
      exact decodeAdjKey_encodeAdjKey lossy _ _ hfree
    have hget : g.getEdge seen edge.id = .ok (some edge) := hedge
    refine ⟨edge :: edges, ?_, ?_, fun e he => ?_⟩
    · simp only [edgesBehind, hdecode, hget, hrest]
      rfl
    · rw [map_cons, map_cons, hmap, hkey]
    · rcases mem_cons.mp he with rfl | he
      · exact hedge
      · exact hall e he

/-- Where an adjacency map mirrors the stored edges, the lookup finds those whose keys have the front, each
once. -/
theorem edgesAt_listed {view : View} (side : Side) (hfree : ∀ edge, g.HasEdge view.seen edge →
      NulFree edge.edgeType)
    (hmirror : ∀ k, ((view (side.map g)).get k).isSome ↔
      ∃ edge, g.HasEdge view.seen edge ∧ k = side.key edge)
    (nodeId : UInt64) (edgeType : Option String) :
    ∃ edges, g.edgesAt lossy view.seen side nodeId edgeType = .ok edges ∧
      (edges.map Edge.id).Nodup ∧ ∀ edge, edge ∈ edges ↔
        g.HasEdge view.seen edge ∧ (encodeAdjKey nodeId edgeType none).isPrefixOf (side.key edge) = true := by
  set front := encodeAdjKey nodeId edgeType none with hfront
  have hentry : ∀ p ∈ view.seen.scanPrefix (side.map g) front, ∃ edge, g.HasEdge view.seen edge ∧
      NulFree edge.edgeType ∧ p.1 = side.key edge := by
    intro p hp
    have hscan := View.mem_scan.mp (mem_of_mem_filter hp)
    obtain ⟨edge, hedge, hkey⟩ := (hmirror p.1).mp (by rw [hscan]; rfl)
    exact ⟨edge, hedge, hfree edge hedge, hkey⟩
  obtain ⟨edges, heq, hmap, hall⟩ := edgesBehind_eq lossy side hentry
  refine ⟨edges, heq, ?_, fun edge => ?_⟩
  · have hkeys : (edges.map side.key).Nodup := by
      rw [hmap]
      exact view.nodup_map_filter_scan _ _
    refine (List.Nodup.of_map _ hkeys).map_on fun e he e' he' hid => ?_
    exact (hall e he).unique (hall e' he') hid
  · constructor
    · intro hedge
      have hin : side.key edge ∈ (view.seen.scanPrefix (side.map g) front).map Prod.fst := by
        rw [← hmap]
        exact mem_map_of_mem hedge
      obtain ⟨p, hp, hkey⟩ := mem_map.mp hin
      exact ⟨hall edge hedge, hkey ▸ (mem_filter.mp hp).2⟩
    · rintro ⟨hedge, hpre⟩
      obtain ⟨v, hv⟩ := Option.isSome_iff_exists.mp ((hmirror (side.key edge)).mpr ⟨edge, hedge, rfl⟩)
      have hin : side.key edge ∈ edges.map side.key := by
        rw [hmap]
        exact mem_map.mpr ⟨(_, v), mem_filter.mpr ⟨View.mem_scan.mpr hv, hpre⟩, rfl⟩
      obtain ⟨edge', hedge', hkey⟩ := mem_map.mp hin
      rw [← (hall edge' hedge').unique hedge (edgeId_of_encodeAdjKey hkey)]
      exact hedge'

theorem edgesAt_spec {view : View} (side : Side) (hfree : ∀ edge, g.HasEdge view.seen edge →
      NulFree edge.edgeType)
    (hmirror : ∀ k, ((view (side.map g)).get k).isSome ↔
      ∃ edge, g.HasEdge view.seen edge ∧ k = side.key edge)
    (nodeId : UInt64) (edgeType : Option String) (hty : ∀ t ∈ edgeType, NulFree t) :
    ∃ edges, g.edgesAt lossy view.seen side nodeId edgeType = .ok edges ∧
      (edges.map Edge.id).Nodup ∧ ∀ edge, edge ∈ edges ↔
        g.HasEdge view.seen edge ∧ side.node edge = nodeId ∧ ∀ t ∈ edgeType, edge.edgeType = t := by
  obtain ⟨edges, heq, hnodup, hmem⟩ := @edgesAt_listed _ g lossy view side hfree hmirror nodeId edgeType
  refine ⟨edges, heq, hnodup, fun edge => ?_⟩
  rw [hmem edge]
  exact and_congr_right fun hedge => isPrefixOf_encodeAdjKey hty (hfree edge hedge)

/-! ## Nodes behind entries -/

theorem nodesBehind_spec (hget : ∀ id, ∃ o, g.getNode seen id = .ok o ∧ ∀ n ∈ o, n.id = id)
    (found : List UInt64) (entries : List (Key × List UInt8)) :
    ∃ nodes, g.nodesBehind seen found entries = .ok nodes ∧ (nodes.map Node.id).Nodup ∧
      ∀ node, node ∈ nodes ↔ g.HasNode seen node ∧ node.id ∉ found ∧
        ∃ p ∈ entries, p.2 = idKey node.id := by
  induction entries generalizing found with
  | nil => exact ⟨[], rfl, nodup_nil, fun node => by simp⟩
  | cons p entries ih =>
    obtain ⟨k, v⟩ := p
    by_cases hlen : v.length = 8
    · set id := UInt64.ofNat (fromBe v) with hid
      have hv : v = idKey id := (idKey_ofNat_fromBe hlen).symm
      -- an entry of a node that has been found or is not there adds nothing
      have hskip : ∀ {nodes : List Node} {found' : List UInt64},
          (∀ node, node ∈ nodes ↔ g.HasNode seen node ∧ node.id ∉ found' ∧
            ∃ p ∈ entries, p.2 = idKey node.id) →
          (∀ node, g.HasNode seen node → (node.id ∉ found' ↔ node.id ∉ found)) →
          (∀ node, g.HasNode seen node → node.id ∉ found → node.id ≠ id) →
          ∀ node, node ∈ nodes ↔ g.HasNode seen node ∧ node.id ∉ found ∧
            ∃ p ∈ (k, v) :: entries, p.2 = idKey node.id := by
        intro nodes found' hmem hsame hne node
        rw [hmem node]
        constructor
        · rintro ⟨hnode, hnot, p, hp, hkey⟩
          exact ⟨hnode, (hsame node hnode).mp hnot, p, mem_cons_of_mem _ hp, hkey⟩
        · rintro ⟨hnode, hnot, p, hp, hkey⟩
          rcases mem_cons.mp hp with rfl | hp
          · change v = idKey node.id at hkey
            rw [hv, idKey_inj] at hkey
            exact absurd hkey.symm (hne node hnode hnot)
          · exact ⟨hnode, (hsame node hnode).mpr hnot, p, hp, hkey⟩
      simp only [nodesBehind, if_pos hlen, ← hid]
      by_cases hfound : id ∈ found
      · obtain ⟨nodes, heq, hnodup, hmem⟩ := ih found
        rw [if_pos hfound]
        refine ⟨nodes, heq, hnodup, hskip hmem (fun _ _ => Iff.rfl) fun node _ hnot heq => ?_⟩
        exact hnot (heq ▸ hfound)
      · rw [if_neg hfound]
        obtain ⟨nodes, heq, hnodup, hmem⟩ := ih (id :: found)
        obtain ⟨o, ho, hoid⟩ := hget id
        cases o with
        | none =>
          simp only [ho]
          have habsent : ∀ node, g.HasNode seen node → node.id ≠ id := by
            intro node hnode heq
            rw [HasNode, heq, ho] at hnode
            cases hnode
          refine ⟨nodes, heq, hnodup, hskip hmem (fun node hnode => ?_) fun node hnode _ =>
            habsent node hnode⟩
          rw [mem_cons, not_or]
          exact ⟨fun h => h.2, fun h => ⟨habsent node hnode, h⟩⟩
        | some n =>
          have hnid : n.id = id := hoid n rfl
          have hn : g.HasNode seen n := by
            rw [HasNode, hnid]
            exact ho
          simp only [ho, heq]
          refine ⟨n :: nodes, rfl, ?_, fun node => ?_⟩
          · rw [map_cons, nodup_cons]
            refine ⟨fun hin => ?_, hnodup⟩
            obtain ⟨node, hnode, hsame⟩ := mem_map.mp hin
            exact ((hmem node).mp hnode).2.1 (by rw [hsame, hnid]; exact mem_cons_self)
          · rw [mem_cons, hmem node]
            constructor
            · rintro (rfl | ⟨hnode, hnot, p, hp, hkey⟩)
              · exact ⟨hn, by rw [hnid]; exact hfound, (k, v), mem_cons_self, by rw [hnid]; exact hv⟩
              · exact ⟨hnode, fun h => hnot (mem_cons_of_mem _ h), p, mem_cons_of_mem _ hp, hkey⟩
            · rintro ⟨hnode, hnot, p, hp, hkey⟩
              by_cases hsame : node.id = id
              · exact .inl (hnode.unique hn (hsame.trans hnid.symm))
              · refine .inr ⟨hnode, fun h => ?_, ?_⟩
                · rcases mem_cons.mp h with heq | h
                  · exact hsame heq
                  · exact hnot h
                · rcases mem_cons.mp hp with rfl | hp
                  · change v = idKey node.id at hkey
                    rw [hv, idKey_inj] at hkey
                    exact absurd hkey.symm hsame
                  · exact ⟨p, hp, hkey⟩
    · -- a value that is no number is passed over
      obtain ⟨nodes, heq, hnodup, hmem⟩ := ih found
      refine ⟨nodes, by simp only [nodesBehind, if_neg hlen, heq], hnodup, fun node => ?_⟩
      rw [hmem node]
      refine and_congr_right fun _ => and_congr_right fun _ => ⟨?_, ?_⟩
      · rintro ⟨p, hp, hkey⟩
        exact ⟨p, mem_cons_of_mem _ hp, hkey⟩
      · rintro ⟨p, hp, hkey⟩
        rcases mem_cons.mp hp with rfl | hp
        · change v = idKey node.id at hkey
          exact absurd (hkey ▸ length_idKey node.id) hlen
        · exact ⟨p, hp, hkey⟩

end GraphStore

end

end H2Database.Graph
