import H2Database.Graph.Pattern

/-!
# What MATCH finds

A `Match` lays the pattern on the graph.  `Laid` are the conditions that the search and the meaning of a
pattern share, `Meant` what the pattern says beyond that, `AsWritten` what the search tests instead.
-/

namespace H2Database.Graph

open Reasoning Mvstore Sql List Option

/-! ## Laying a pattern on a graph -/

def Node.Same (a b : Node) : Prop :=
  a.id = b.id ∧ a.labels = b.labels ∧ ∀ k, a.properties.lookup k = b.properties.lookup k

def Edge.Same (a b : Edge) : Prop :=
  a.id = b.id ∧ a.edgeType = b.edgeType ∧ a.srcId = b.srcId ∧ a.dstId = b.dstId ∧
    ∀ k, a.properties.lookup k = b.properties.lookup k

def GraphValue.Same : GraphValue → GraphValue → Prop
  | .node a, .node b => a.Same b
  | .edge a, .edge b => a.Same b
  | _, _ => False

theorem GraphValue.Same.symm {x y : GraphValue} (h : x.Same y) : y.Same x := by
  unfold GraphValue.Same at h ⊢
  split at h
  · exact ⟨h.1.symm, h.2.1.symm, fun k => (h.2.2 k).symm⟩
  · exact ⟨h.1.symm, h.2.1.symm, h.2.2.1.symm, h.2.2.2.1.symm, fun k => (h.2.2.2.2 k).symm⟩
  · cases h

@[simp] theorem GraphValue.Same.node_refl (n : Node) : (GraphValue.node n).Same (.node n) :=
  ⟨rfl, rfl, fun _ => rfl⟩

@[simp] theorem GraphValue.Same.edge_refl (e : Edge) : (GraphValue.edge e).Same (.edge e) :=
  ⟨rfl, rfl, rfl, rfl, fun _ => rfl⟩

/-- A start, and what every step of the chain goes along and comes to. -/
structure Match where
  start : Node
  hops : List (Edge × Node)

namespace Match

def last (m : Match) : Node := m.hops.foldl (fun _ h => h.2) m.start

def path (m : Match) : Path := ⟨m.start :: m.hops.map Prod.snd, m.hops.map Prod.fst⟩

def used (m : Match) : List UInt64 := m.hops.map fun h => h.1.id

def snoc (m : Match) (h : Edge × Node) : Match := ⟨m.start, m.hops ++ [h]⟩

def append (m : Match) (hops : List (Edge × Node)) : Match := ⟨m.start, m.hops ++ hops⟩

@[simp] theorem last_snoc (m : Match) (h : Edge × Node) : (m.snoc h).last = h.2 := by
  rw [last, snoc, foldl_append]
  rfl

@[simp] theorem used_snoc (m : Match) (h : Edge × Node) : (m.snoc h).used = m.used ++ [h.1.id] := by
  rw [used, snoc, map_append]
  rfl

@[simp] theorem append_nil (m : Match) : m.append [] = m := by
  rw [append, List.append_nil]

@[simp] theorem append_snoc (m : Match) (h : Edge × Node) (hops : List (Edge × Node)) :
    (m.snoc h).append hops = m.append (h :: hops) := by
  rw [append, snoc, append, append_assoc]
  rfl

theorem snoc_inj {m m' : Match} {h h' : Edge × Node} (heq : m.snoc h = m'.snoc h') : m = m' ∧ h = h' := by
  obtain ⟨hstart, hhops⟩ := Match.mk.inj heq
  obtain ⟨hinit, hlast⟩ := append_inj' hhops rfl
  refine ⟨?_, singleton_inj.mp hlast⟩
  cases m
  cases m'
  exact congr (congrArg Match.mk hstart) hinit

theorem path_inj {m m' : Match} (h : m.path = m'.path) : m = m' := by
  obtain ⟨hnodes, hedges⟩ := Path.mk.inj h
  obtain ⟨hstart, hnodes⟩ := List.cons.inj hnodes
  cases m with
  | mk start hops =>
    cases m' with
    | mk start' hops' =>
      simp only at hstart hnodes hedges
      rw [hstart, zip_of_prod hedges hnodes]
      exact congrArg (Match.mk start') (zip_of_prod rfl rfl).symm

end Match

def AlongHops (R : Node → EdgePattern × NodePattern → Edge × Node → Prop) :
    Node → List (EdgePattern × NodePattern) → List (Edge × Node) → Prop
  | _, [], [] => True
  | cur, s :: chain, h :: hops => R cur s h ∧ AlongHops R h.2 chain hops
  | _, _, _ => False

variable {chain : List (EdgePattern × NodePattern)} {hops : List (Edge × Node)} {p : String × GraphValue}

theorem alongHops_and {R S : Node → EdgePattern × NodePattern → Edge × Node → Prop} {cur : Node} :
    AlongHops (fun cur s h => R cur s h ∧ S cur s h) cur chain hops ↔
      AlongHops R cur chain hops ∧ AlongHops S cur chain hops := by
  induction chain generalizing cur hops with
  | nil =>
    cases hops with
    | nil => exact ⟨fun _ => ⟨trivial, trivial⟩, fun _ => trivial⟩
    | cons h hops => exact ⟨fun h => h.elim, fun h => h.1.elim⟩
  | cons s chain ih =>
    cases hops with
    | nil => exact ⟨fun h => h.elim, fun h => h.1.elim⟩
    | cons h hops =>
      simp only [AlongHops, ih]
      exact and_and_and_comm

def position (variable_ : Option String) (x : GraphValue) : List (String × GraphValue) :=
  variable_.toList.map fun v => (v, x)

def hopPositions : List (EdgePattern × NodePattern) → List (Edge × Node) → List (String × GraphValue)
  | (edgePat, nodePat) :: chain, (e, n) :: hops =>
    position edgePat.variable_ (.edge e) ++ position nodePat.variable_ (.node n) ++ hopPositions chain hops
  | _, _ => []

def Match.positions (pattern : Pattern) (m : Match) : List (String × GraphValue) :=
  position pattern.start.variable_ (.node m.start) ++ hopPositions pattern.chain m.hops

def bindHops : Bindings → List (EdgePattern × NodePattern) → List (Edge × Node) → Bindings
  | b, (edgePat, nodePat) :: chain, (e, n) :: hops =>
    bindHops (insertAll b (stepBindings edgePat nodePat e n)) chain hops
  | b, _, _ => b

def Match.bindings (pattern : Pattern) (m : Match) : Bindings :=
  bindHops (bindVariable pattern.start.variable_ (.node m.start) ∅) pattern.chain m.hops

/-- Every variable of the pattern is bound, to what it stands for everywhere. -/
structure Match.Binds (pattern : Pattern) (m : Match) (b : Bindings) : Prop where
  bound : ∀ v, (b.lookup v).isSome ↔ v ∈ (m.positions pattern).map Prod.fst
  value : ∀ v x, b.lookup v = some x → ∀ y, (v, y) ∈ m.positions pattern → x.Same y

theorem lookup_foldl_insert {es : List (Sigma fun _ : String => GraphValue)} (hnd : es.NodupKeys)
    (row : Bindings)
    (v : String) :
    (es.foldl (fun row p => row.insert p.1 p.2) row).lookup v = (es.dlookup v).or (row.lookup v) := by
  induction es generalizing row with
  | nil => rfl
  | cons p es ih =>
    obtain ⟨hnot, hrest⟩ := nodupKeys_cons.mp hnd
    rw [foldl_cons, ih hrest]
    by_cases hv : v = p.1
    · rw [hv, dlookup_eq_none.mpr hnot, AList.lookup_insert, dlookup_cons_eq]
      rfl
    · rw [AList.lookup_insert_ne hv, dlookup_cons_ne _ _ hv]

theorem lookup_insertAll (row new : Bindings) (v : String) :
    (insertAll row new).lookup v = (new.lookup v).or (row.lookup v) :=
  lookup_foldl_insert new.nodupKeys row v

theorem lookup_bindVariable (variable_ : Option String) (x : GraphValue) (b : Bindings) (v : String) :
    (bindVariable variable_ x b).lookup v = if variable_ = some v then some x else b.lookup v := by
  cases variable_ with
  | none => rfl
  | some w =>
    by_cases hv : v = w
    · rw [hv, if_pos rfl]
      exact AList.lookup_insert b
    · rw [if_neg fun h => hv (Option.some.inj h).symm]
      exact AList.lookup_insert_ne hv

variable {variable_ : Option String} {x : GraphValue}

theorem mem_position :
    p ∈ position variable_ x ↔ variable_ = some p.1 ∧ p.2 = x := by
  cases variable_ with
  | none => simp [position]
  | some v =>
    rw [position, toList_some, map_singleton, mem_singleton, Option.some.injEq]
    constructor
    · rintro rfl
      exact ⟨rfl, rfl⟩
    · rintro ⟨rfl, rfl⟩
      rfl

theorem mem_of_lookup_bindHops {b : Bindings} {v : String} (h : (bindHops b chain hops).lookup v = some x) :
    (v, x) ∈ hopPositions chain hops ∨ b.lookup v = some x := by
  induction chain generalizing b hops with
  | nil => exact .inr h
  | cons s chain ih =>
    cases hops with
    | nil => exact .inr h
    | cons hop hops =>
      rcases ih h with hlater | hbefore
      · exact .inl (mem_append_right _ hlater)
      · rw [lookup_insertAll, or_eq_some_iff, stepBindings] at hbefore
        rcases hbefore with hstep | ⟨_, hold⟩
        · left
          apply mem_append_left
          rw [lookup_bindVariable, lookup_bindVariable] at hstep
          split_ifs at hstep with hnode hedge
          · cases hstep
            exact mem_append_right _ (mem_position.mpr ⟨hnode, rfl⟩)
          · cases hstep
            exact mem_append_left _ (mem_position.mpr ⟨hedge, rfl⟩)
          · cases hstep
        · exact .inr hold

theorem isSome_lookup_bindHops {b : Bindings} {v : String}
    (h : v ∈ (hopPositions chain hops).map Prod.fst ∨ (b.lookup v).isSome) :
    ((bindHops b chain hops).lookup v).isSome := by
  induction chain generalizing b hops with
  | nil => exact h.resolve_left not_mem_nil
  | cons s chain ih =>
    cases hops with
    | nil => exact h.resolve_left not_mem_nil
    | cons hop hops =>
      apply ih
      rw [lookup_insertAll, isSome_or, Bool.or_eq_true, stepBindings, lookup_bindVariable,
        lookup_bindVariable]
      rcases h with hmem | hold
      · obtain ⟨p, hp, rfl⟩ := mem_map.mp hmem
        rcases mem_append.mp hp with hstep | hlater
        · right
          left
          rcases mem_append.mp hstep with hedge | hnode
          · split_ifs
            · rfl
            · rfl
            · rename_i hno
              exact absurd (mem_position.mp hedge).1 hno
          · rw [if_pos (mem_position.mp hnode).1]
            rfl
        · exact .inl (mem_map_of_mem hlater)
      · exact .inr (.inr hold)

theorem same_self_of_mem_position (h : x.Same x) (hp : p ∈ position variable_ x) : p.2.Same p.2 := by
  rw [(mem_position.mp hp).2]
  exact h

theorem same_self_of_mem_hopPositions (hp : p ∈ hopPositions chain hops) : p.2.Same p.2 := by
  induction chain generalizing hops with
  | nil => cases hp
  | cons s chain ih =>
    cases hops with
    | nil => cases hp
    | cons h hops =>
      rcases mem_append.mp hp with hstep | hlater
      · rcases mem_append.mp hstep with hedge | hnode
        · exact same_self_of_mem_position (GraphValue.Same.edge_refl h.1) hedge
        · exact same_self_of_mem_position (GraphValue.Same.node_refl h.2) hnode
      · exact ih hlater

theorem Match.same_self {pattern : Pattern} {m : Match} (hp : p ∈ m.positions pattern) :
    p.2.Same p.2 := by
  rcases mem_append.mp hp with hstart | hhops
  · exact same_self_of_mem_position (GraphValue.Same.node_refl _) hstart
  · exact same_self_of_mem_hopPositions hhops

theorem Match.binds_bindings {pattern : Pattern} {m : Match}
    (h : (m.positions pattern).Pairwise fun p q => p.1 = q.1 → p.2.Same q.2) :
      m.Binds pattern (m.bindings pattern) := by
  have hstart : ∀ v x, (bindVariable pattern.start.variable_ (.node m.start) ∅).lookup v = some x ↔
      (v, x) ∈ position pattern.start.variable_ (.node m.start) := by
    intro v x
    rw [lookup_bindVariable, mem_position]
    constructor
    · intro hsome
      split_ifs at hsome with hv
      · cases hsome
        exact ⟨hv, rfl⟩
      · cases hsome
    · rintro ⟨hv, hx⟩
      rw [if_pos hv]
      exact congrArg some hx.symm
  have hmem : ∀ v x, (m.bindings pattern).lookup v = some x → (v, x) ∈ m.positions pattern := by
    intro v x hx
    rcases mem_of_lookup_bindHops hx with hlater | hfirst
    · exact mem_append_right _ hlater
    · exact mem_append_left _ ((hstart v x).mp hfirst)
  constructor
  · intro v
    constructor
    · intro hsome
      obtain ⟨x, hx⟩ := isSome_iff_exists.mp hsome
      exact mem_map.mpr ⟨(v, x), hmem v x hx, rfl⟩
    · intro hv
      obtain ⟨p, hp, rfl⟩ := mem_map.mp hv
      apply isSome_lookup_bindHops
      rcases mem_append.mp hp with hfirst | hlater
      · right
        rw [(hstart p.1 p.2).mpr hfirst]
        rfl
      · exact .inl (mem_map_of_mem hlater)
  · intro v x hx y hy
    have hsymm : Std.Symm fun p q : String × GraphValue => p.1 = q.1 → p.2.Same q.2 :=
      ⟨fun p q hpq heq => (hpq heq.symm).symm⟩
    exact h.forall_of_forall (fun p hp _ => Match.same_self hp) (hmem v x hx) hy rfl

/-! ## Which matches there are -/

/-- The edge leads from one node to the other in the direction of the pattern. -/
def Direction.joins : Direction → UInt64 → UInt64 → Edge → Prop
  | .outgoing, a, b, e => e.srcId = a ∧ e.dstId = b
  | .incoming, a, b, e => e.dstId = a ∧ e.srcId = b
  | .both, a, b, e => (e.srcId = a ∧ e.dstId = b) ∨ (e.dstId = a ∧ e.srcId = b)

section

variable [Crates] [Codecs] [GraphJson]

namespace GraphStore

variable (g : GraphStore) (view : View) (pattern : Pattern) (row params : Bindings)

/-- A step along an edge of the graph in the direction of the pattern, to a node of the graph with the labels
and properties of the pattern. -/
def Stepped (cur : Node) (s : EdgePattern × NodePattern) (h : Edge × Node) : Prop :=
  g.HasEdge view.seen h.1 ∧ g.HasNode view.seen h.2 ∧ s.1.direction.joins cur.id h.2.id h.1 ∧
    nodeMatchesPattern h.2 s.2 params = true

/-- The labels and properties of the nodes are those of the pattern, and no edge is gone along twice. -/
structure Laid (m : Match) : Prop where
  start : nodeMatchesPattern m.start pattern.start params = true
  hops : AlongHops (g.Stepped view params) m.start pattern.chain m.hops
  distinct : m.used.Nodup

/-- The edge has one of the types, if there are any, and the properties. -/
def EdgeMeant (_cur : Node) (s : EdgePattern × NodePattern) (h : Edge × Node) : Prop :=
  (s.1.edgeTypes = [] ∨ ∃ t ∈ s.1.edgeTypes, eqIgnoreAsciiCase t h.1.edgeType = true) ∧
    s.1.properties.all (hasProperty h.1.properties params) = true

/-- What the pattern says about types and properties of the edges and about the variables.  A start that the
row holds a node for is that node. -/
structure Meant (m : Match) : Prop where
  edges : AlongHops (EdgeMeant params) m.start pattern.chain m.hops
  start : match boundNode row pattern.start.variable_ with
    | some node => m.start = node ∧ ∃ stored, g.HasNode view.seen stored ∧ stored.Same node
    | none => g.HasNode view.seen m.start
  row : ∀ v x, (v, x) ∈ m.positions pattern → ∀ y, row.lookup v = some y → y.Same x
  again : (m.positions pattern).Pairwise fun p q => p.1 = q.1 → p.2.Same q.2

/-- The label index has an entry of the node under the first label, and under the first property, as the
pattern has them. -/
def Indexed (node : Node) : Prop :=
  ∀ label ∈ pattern.start.labels.head?, ∃ k, (view g.idxLabelMap).get k = some (idKey node.id) ∧
    encodeLabelIdxPrefix label
      (pattern.start.properties.head?.map fun p => (p.1, (evalExpr params p.2).toValue)) <+: k

/-- The key of the edge in the adjacency maps begins with the first type, as the pattern has it, and the edge
is not discarded then. -/
def EdgeWritten (_cur : Node) (s : EdgePattern × NodePattern) (h : Edge × Node) : Prop :=
  (∀ t ∈ s.1.edgeTypes.head?, utf8 t ++ [0] <+: utf8 h.1.edgeType ++ 0 :: idKey h.1.id) ∧
    retains s.1 h.1 = true

structure AsWritten (m : Match) : Prop where
  edges : AlongHops EdgeWritten m.start pattern.chain m.hops
  start : match boundNode row pattern.start.variable_ with
    | some node => m.start = node
    | none => g.HasNode view.seen m.start ∧ g.Indexed view pattern params m.start

def Admits (m : Match) : Prop := g.Laid view pattern params m ∧ g.Meant view pattern row params m

/-- The result holds the assignments, each once, and binds the variables to what they stand for. -/
def Exact (result : H2Result (List (Bindings × Path))) : Prop :=
  ∃ found, result = .ok found ∧ (found.map Prod.snd).Nodup ∧
    (∀ p, p ∈ found.map Prod.snd ↔ ∃ m, g.Admits view pattern row params m ∧ m.path = p) ∧
    ∀ m b, g.Admits view pattern row params m → (b, m.path) ∈ found → m.Binds pattern b

end GraphStore

end

end H2Database.Graph
