import H2Database.Graph.Exactness
import H2Database.Reasoning.Graphs
import Mathlib.Data.Finset.Card

/-!
# Searches along paths (`expand_var_length` and `expand_shortest_path` in `h2-graph/src/engine.rs`)

Both go breadth-first over a queue of paths that begin with the current one.  `expand_var_length` collects
the trails to matching nodes; `expand_shortest_path` passes no node twice and stops at the first match.
-/

namespace H2Database.Graph

open Reasoning Mvstore Sql GraphStore

/-- What both functions are called with. -/
structure PathSearch where
  startNode : Node
  edgePat : EdgePattern
  nodePat : NodePattern
  currPath : Path
  params : Bindings

namespace PathSearch

/-! ## The paths of a search -/

section

open List

variable (s : PathSearch) {hops : List (Edge × Node)} {hop : Edge × Node} {e : Edge}

def nextPath (p : Path) (edge : Edge) (next : Node) : Path := ⟨p.nodes ++ [next], p.edges ++ [edge]⟩

/-- A result; the variable of the edge is bound to the list of the edges behind the current path. -/
def answer (s : PathSearch) (next : Node) (path : Path) : Active :=
  let edgeList := (path.edges.drop s.currPath.edges.length).map GraphValue.edge
  ⟨next, bindVariable s.edgePat.variable_ (.list edgeList)
    (bindVariable s.nodePat.variable_ (.node next) ∅), path⟩

/-- The edge has one of the types of the pattern, if there are any. -/
def Typed (e : Edge) : Prop :=
  s.edgePat.edgeTypes = [] ∨ ∃ t ∈ s.edgePat.edgeTypes, eqIgnoreAsciiCase t e.edgeType = true

def FirstTyped (e : Edge) : Prop := ∀ t ∈ s.edgePat.edgeTypes.head?, t = e.edgeType

def node (hops : List (Edge × Node)) : Node := hops.foldl (fun _ hop => hop.2) s.startNode

def path (hops : List (Edge × Node)) : Path :=
  ⟨s.currPath.nodes ++ hops.map Prod.snd, s.currPath.edges ++ hops.map Prod.fst⟩

def answerOf (hops : List (Edge × Node)) : Active := s.answer (s.node hops) (s.path hops)

def used (s : PathSearch) (hops : List (Edge × Node)) : List UInt64 := (s.path hops).edges.map Edge.id

/-- The items are in the order of their lengths, and no two lengths are further than one apart. -/
def Layered (items : List (List (Edge × Node))) : Prop :=
  items.Pairwise fun a b => a.length ≤ b.length ∧ b.length ≤ a.length + 1

variable {s}

@[simp] theorem node_concat : s.node (hops ++ [hop]) = hop.2 := by
  rw [node, foldl_append]
  rfl

theorem id_node : (s.node hops).id = endOf (fun hop => hop.2.id) s.startNode.id hops := by
  induction hops using List.reverseRecOn with
  | nil => rfl
  | append_singleton hops hop _ => rw [node_concat, endOf_concat]

theorem path_concat : s.path (hops ++ [hop]) = nextPath (s.path hops) hop.1 hop.2 := by
  simp [path, nextPath]

theorem path_injective : Function.Injective s.path := by
  intro hops hops' heq
  obtain ⟨hnodes, hedges⟩ := Path.mk.inj heq
  have hsame : Match.path ⟨s.startNode, hops⟩ = Match.path ⟨s.startNode, hops'⟩ := by
    rw [Match.path, Match.path, append_cancel_left hnodes, append_cancel_left hedges]
  exact (Match.mk.inj (Match.path_inj hsame)).2

theorem answerOf_injective : Function.Injective s.answerOf :=
  fun _ _ heq => path_injective (Active.mk.inj heq).2.2

theorem used_eq : s.used hops = s.currPath.edges.map Edge.id ++ hops.map fun hop => hop.1.id := by
  rw [used, path, map_append, map_map]
  rfl

theorem typed_of_firstTyped (h : s.FirstTyped e) : s.Typed e := by
  unfold FirstTyped at h
  cases htypes : s.edgePat.edgeTypes with
  | nil => exact .inl htypes
  | cons t types =>
    rw [htypes] at h
    refine .inr ⟨t, by rw [htypes]; exact mem_cons_self, ?_⟩
    rw [h t rfl]
    exact beq_self_eq_true _

/-- The pattern has a direction and types only. -/
structure Plain (s : PathSearch) : Prop where
  properties : s.edgePat.properties = []
  types : ∀ t ∈ s.edgePat.edgeTypes, NulFree t

section

variable [Crates] [GraphJson]

/-- The key has the first type before a zero byte, and the edge is not discarded. -/
theorem Plain.firstTyped_iff (hs : s.Plain) (he : NulFree e.edgeType) :
    TypeWritten s.edgePat.edgeTypes.head? e ∧ retains s.edgePat e = true ↔ s.FirstTyped e := by
  rw [retains, hs.properties, TypeWritten, FirstTyped]
  cases htypes : s.edgePat.edgeTypes with
  | nil => simp
  | cons t types =>
    have ht : NulFree t := hs.types t (by rw [htypes]; exact mem_cons_self)
    simp only [head?_cons, Option.mem_some_iff, forall_eq', all_nil, Bool.and_true]
    constructor
    · rintro ⟨⟨rest, hrest⟩, _⟩
      rw [append_assoc] at hrest
      exact (utf8_cons_zero_inj ht he hrest).1
    · rintro rfl
      refine ⟨⟨idKey e.id, by rw [append_assoc]; rfl⟩, ?_⟩
      rw [any_cons, eqIgnoreAsciiCase, beq_self_eq_true, Bool.true_or, Bool.or_true]

end

theorem Layered.next {items more : List (List (Edge × Node))} (h : Layered (hops :: items))
    (hmore : ∀ item ∈ more, item.length = hops.length + 1) :
    Layered (items ++ more) := by
  obtain ⟨hhead, hrest⟩ := pairwise_cons.mp h
  refine pairwise_append.mpr ⟨hrest, pairwise_of_forall_mem_list fun a ha b hb => ?_, fun a ha b hb => ?_⟩
  · rw [hmore a ha, hmore b hb]
    omega
  · have hbounds := hhead a ha
    rw [hmore b hb]
    omega

end

/-! ## Walks on the graph -/

section

variable [Codecs] (g : GraphStore) (s : PathSearch) (view : View) (typed : Edge → Prop)

/-- An edge of the graph leads in the direction of the pattern to a node of the graph. -/
def Goes (cur : UInt64) (hop : Edge × Node) : Prop :=
  g.HasEdge view.seen hop.1 ∧ g.HasNode view.seen hop.2 ∧ s.edgePat.direction.joins cur hop.2.id hop.1 ∧
    typed hop.1

def Walks (hops : List (Edge × Node)) : Prop :=
  Walk (Goes g s view typed) (fun hop => hop.2.id) s.startNode.id hops

/-- No edge is gone along twice, or again after the current path. -/
structure Trail (hops : List (Edge × Node)) : Prop where
  walk : Walks g s view typed hops
  distinct : (hops.map fun hop => hop.1.id).Nodup
  fresh : ∀ hop ∈ hops, hop.1.id ∉ s.currPath.edges.map Edge.id

variable {g s view typed} {hops : List (Edge × Node)} {hop : Edge × Node}

theorem trail_concat : Trail g s view typed (hops ++ [hop]) ↔ Trail g s view typed hops ∧
    Goes g s view typed (s.node hops).id hop ∧ hop.1.id ∉ s.used hops := by
  have hnew : hop.1.id ∉ s.used hops ↔
      hop.1.id ∉ s.currPath.edges.map Edge.id ∧ hop.1.id ∉ hops.map fun hop => hop.1.id := by
    rw [used_eq, List.mem_append, not_or]
  rw [hnew, id_node]
  constructor
  · rintro ⟨hwalk, hdistinct, hfresh⟩
    obtain ⟨hwalk, hgoes⟩ := walk_concat.mp hwalk
    rw [List.map_append, List.nodup_append] at hdistinct
    refine ⟨⟨hwalk, hdistinct.1, fun x hx => hfresh x (List.mem_append_left _ hx)⟩, hgoes,
      hfresh hop (List.mem_append_right _ List.mem_cons_self), fun hin => ?_⟩
    exact hdistinct.2.2 _ hin _ List.mem_cons_self rfl
  · rintro ⟨⟨hwalk, hdistinct, hfresh⟩, hgoes, hcurr, hold⟩
    refine ⟨walk_concat.mpr ⟨hwalk, hgoes⟩, ?_, fun x hx => ?_⟩
    · rw [List.map_append, List.nodup_append]
      refine ⟨hdistinct, List.nodup_singleton _, fun a ha b hb heq => ?_⟩
      rw [heq, List.mem_singleton.mp hb] at ha
      exact hold ha
    · rcases List.mem_append.mp hx with hx | hx
      · exact hfresh x hx
      · rw [List.mem_singleton.mp hx]
        exact hcurr

theorem walks_iff : Walks g s view s.FirstTyped hops ↔
    Walks g s view s.Typed hops ∧ ∀ hop ∈ hops, s.FirstTyped hop.1 := by
  refine walk_and fun a hop => ?_
  constructor
  · rintro ⟨hedge, hnode, hjoins, hfirst⟩
    exact ⟨⟨hedge, hnode, hjoins, typed_of_firstTyped hfirst⟩, hfirst⟩
  · rintro ⟨⟨hedge, hnode, hjoins, _⟩, hfirst⟩
    exact ⟨hedge, hnode, hjoins, hfirst⟩

end

/-! ## The searches -/

section

variable [Crates] [Codecs] [GraphJson]

variable (g : GraphStore) (lossy : List UInt8 → String) (seen : Visible) (s : PathSearch)
    (minHops maxHops : Nat)

/-- The loop over the edges of a node: what it adds to the results, and to the queue. -/
def varLengthEdges (curr : Node) (p : Path) (hops : Nat) :
    List Edge → H2Result (List Active × List (Node × Path × Nat))
  | [] => .ok ([], [])
  | edge :: edges =>
    if p.edges.any fun e => e.id == edge.id then varLengthEdges curr p hops edges
    else
      match g.getNode seen (otherEnd edge curr.id) with
      | .error e => .error e
      | .ok none => varLengthEdges curr p hops edges
      | .ok (some next) =>
        let path := nextPath p edge next
        let found := if minHops ≤ hops + 1 ∧
          nodeMatchesPattern next s.nodePat s.params then [s.answer next path] else []
        let queued := if hops + 1 < maxHops then [(next, path, hops + 1)] else []
        (varLengthEdges curr p hops edges).map fun rest => (found ++ rest.1, queued ++ rest.2)

def varLengthVisit (results : List Active) (item : Node × Path × Nat) :
    H2Result (List Active) ⊕ (List Active × List (Node × Path × Nat)) :=
  if maxHops ≤ item.2.2 then .inr (results, [])
  else
    match g.getMatchingEdges lossy seen item.1.id s.edgePat with
    | .error e => .inl (.error e)
    | .ok edges =>
      match varLengthEdges g seen s minHops maxHops item.1 item.2.1 item.2.2 edges with
      | .error e => .inl (.error e)
      | .ok (found, queued) => .inr (results ++ found, queued)

def expandVarLength (turns : Nat) : Option (H2Result (List Active)) :=
  drain (varLengthVisit g lossy seen s minHops maxHops) .ok turns [] [(s.startNode, s.currPath, 0)]

/-- The loop over the edges of a node, which returns as soon as it comes to a node that matches. -/
def shortestEdges (curr : Node) (p : Path) (visited : Finset UInt64) :
    List Edge → H2Result (List Active) ⊕ (Finset UInt64 × List (Node × Path))
  | [] => .inr (visited, [])
  | edge :: edges =>
    if otherEnd edge curr.id ∈ visited then shortestEdges curr p visited edges
    else
      match g.getNode seen (otherEnd edge curr.id) with
      | .error e => .inl (.error e)
      | .ok none => shortestEdges curr p visited edges
      | .ok (some next) =>
        let path := nextPath p edge next
        if nodeMatchesPattern next s.nodePat s.params then .inl (.ok [s.answer next path])
        else
          match shortestEdges curr p (insert (otherEnd edge curr.id) visited) edges with
          | .inl result => .inl result
          | .inr (visited, queued) => .inr (visited, (next, path) :: queued)

def shortestVisit (visited : Finset UInt64) (item : Node × Path) :
    H2Result (List Active) ⊕ (Finset UInt64 × List (Node × Path)) :=
  match g.getMatchingEdges lossy seen item.1.id s.edgePat with
  | .error e => .inl (.error e)
  | .ok edges => shortestEdges g seen s item.1 item.2 visited edges

def expandShortestPath (turns : Nat) : Option (H2Result (List Active)) :=
  drain (shortestVisit g lossy seen s) (fun _ => .ok []) turns {s.startNode.id} [(s.startNode, s.currPath)]

/-! ## What is asked for -/

open List

variable (view : View) (typed : Edge → Prop)

def EndsAtMatch (hops : List (Edge × Node)) : Prop :=
  ∃ hop ∈ hops.getLast?, nodeMatchesPattern hop.2 s.nodePat s.params = true

/-- A trail that is asked for. -/
def Asked (hops : List (Edge × Node)) : Prop :=
  Trail g s view typed hops ∧ minHops ≤ hops.length ∧ hops.length ≤ maxHops ∧ EndsAtMatch s hops

/-- A walk from the start to another node that matches. -/
def Arrives (hops : List (Edge × Node)) : Prop :=
  Walks g s view typed hops ∧
    ∃ hop ∈ hops.getLast?, hop.2.id ≠ s.startNode.id ∧ nodeMatchesPattern hop.2 s.nodePat s.params = true

def Shortest (hops : List (Edge × Node)) : Prop :=
  Arrives g s view typed hops ∧ ∀ other, Arrives g s view typed other → hops.length ≤ other.length

def AnswersShortest (answers : List Active) : Prop :=
  (answers = [] ∧ ∀ hops, ¬Arrives g s view typed hops) ∨
    ∃ hops, answers = [s.answerOf hops] ∧ Shortest g s view typed hops

/-- Both searches come to an end.  The one returns the trails asked for, each once, and the other a walk with
the fewest edges, or nothing if there is none. -/
def Exact : Prop :=
  (∃ found : List (List (Edge × Node)), found.Nodup ∧
      (∀ hops, hops ∈ found ↔ Asked g s minHops maxHops view s.Typed hops) ∧
      ∃ turns, ∀ more, expandVarLength g lossy view.seen s minHops maxHops (turns + more) =
        some (.ok (found.map s.answerOf))) ∧
    ∃ answers, (∃ turns, ∀ more, expandShortestPath g lossy view.seen s (turns + more) = some (.ok answers)) ∧
      AnswersShortest g s view s.Typed answers

/-! ## The edges of a node -/

variable {g lossy s minHops maxHops view typed} {hops : List (Edge × Node)} {hop : Edge × Node} {e : Edge}

variable (g lossy s view) in
/-- The edges that the pattern is found along from a node. -/
def matching (cur : UInt64) : List Edge :=
  (g.getMatchingEdges lossy view.seen cur s.edgePat).toOption.getD []

theorem getMatchingEdges_eq (h : g.Linked view) (cur : UInt64) :
    g.getMatchingEdges lossy view.seen cur s.edgePat = .ok (matching g lossy s view cur) := by
  obtain ⟨edges, heq, _⟩ := h.getMatchingEdges lossy cur s.edgePat
  rw [matching, heq]
  rfl

theorem nodup_matching (h : g.Linked view) (cur : UInt64) : (matching g lossy s view cur).Nodup := by
  obtain ⟨edges, heq, hnodup, _⟩ := h.getMatchingEdges lossy cur s.edgePat
  rw [matching, heq]
  exact hnodup.of_map

theorem goes_iff (h : g.Linked view) (hs : s.Plain) {cur : UInt64} : Goes g s view s.FirstTyped cur hop ↔
    hop.1 ∈ matching g lossy s view cur ∧ g.HasNode view.seen hop.2 ∧ hop.2.id = otherEnd hop.1 cur := by
  obtain ⟨edges, heq, _, hmem⟩ := h.getMatchingEdges lossy cur s.edgePat
  have hedges : matching g lossy s view cur = edges := by
    rw [matching, heq]
    rfl
  have hfree : g.HasEdge view.seen hop.1 → NulFree hop.1.edgeType := by
    intro hedge
    obtain ⟨o, ho, hall⟩ := h.edge hop.1.id
    rw [HasEdge, ho] at hedge
    cases hedge
    exact (hall hop.1 rfl).2
  rw [hedges, hmem, Goes, joins_iff]
  constructor
  · rintro ⟨hedge, hnode, ⟨htouch, hid⟩, htyped⟩
    exact ⟨⟨hedge, htouch, (hs.firstTyped_iff (hfree hedge)).mpr htyped⟩, hnode, hid⟩
  · rintro ⟨⟨hedge, htouch, htyped⟩, hnode, hid⟩
    exact ⟨hedge, hnode, ⟨htouch, hid⟩, (hs.firstTyped_iff (hfree hedge)).mp htyped⟩

/-! ## Trails -/

variable (g lossy s view) in
def nexts (hops : List (Edge × Node)) : List (Edge × Node) :=
  g.nextHops view.seen (s.node hops).id (s.used hops) (matching g lossy s view (s.node hops).id)

theorem mem_nexts (h : g.Linked view) (hs : s.Plain) : hop ∈ nexts g lossy s view hops ↔
    Goes g s view s.FirstTyped (s.node hops).id hop ∧ hop.1.id ∉ s.used hops := by
  rw [nexts, h.mem_nextHops, goes_iff h hs]
  constructor
  · rintro ⟨hedge, hused, hnode, hid⟩
    exact ⟨⟨hedge, hnode, hid⟩, hused⟩
  · rintro ⟨⟨hedge, hnode, hid⟩, hused⟩
    exact ⟨hedge, hused, hnode, hid⟩

variable (g lossy s view) in
def longer (hops : List (Edge × Node)) : List (List (Edge × Node)) :=
  (nexts g lossy s view hops).map fun hop => hops ++ [hop]

variable (g lossy s view) in
/-- The trails with a number of hops, in the order in which the queue has them. -/
def trails : Nat → List (List (Edge × Node))
  | 0 => [[]]
  | n + 1 => (trails n).flatMap (longer g lossy s view)

variable {n : Nat}

theorem mem_trails (h : g.Linked view) (hs : s.Plain) :
    hops ∈ trails g lossy s view n ↔ hops.length = n ∧ Trail g s view s.FirstTyped hops := by
  induction n generalizing hops with
  | zero =>
    rw [trails, mem_singleton, length_eq_zero_iff]
    refine (and_iff_left_of_imp ?_).symm
    rintro rfl
    exact ⟨trivial, nodup_nil, fun x hx => absurd hx not_mem_nil⟩
  | succ n ih =>
    rw [trails, mem_flatMap]
    constructor
    · rintro ⟨hops, hmem, hnext⟩
      obtain ⟨hop, hhop, rfl⟩ := mem_map.mp hnext
      obtain ⟨hlength, htrail⟩ := ih.mp hmem
      rw [length_append, hlength]
      exact ⟨rfl, trail_concat.mpr ⟨htrail, (mem_nexts h hs).mp hhop⟩⟩
    · rintro ⟨hlength, htrail⟩
      obtain ⟨hops, hop, rfl⟩ : ∃ init hop, hops = init ++ [hop] := by
        rcases eq_nil_or_concat' hops with rfl | hconcat
        · cases hlength
        · exact hconcat
      obtain ⟨htrail, hnext⟩ := trail_concat.mp htrail
      rw [length_append, length_singleton] at hlength
      exact ⟨hops, ih.mpr ⟨Nat.succ.inj hlength, htrail⟩, mem_map_of_mem ((mem_nexts h hs).mpr hnext)⟩

theorem nodup_trails (h : g.Linked view) (n : Nat) : (trails g lossy s view n).Nodup := by
  induction n with
  | zero => exact nodup_singleton _
  | succ n ih =>
    rw [trails, nodup_flatMap]
    refine ⟨fun hops _ => ?_, ih.imp fun hne => ?_⟩
    · refine (h.nodup_nextHops (nodup_matching h _)).map fun hop hop' heq => ?_
      exact singleton_inj.mp (append_inj' heq rfl).2
    · intro x hx hx'
      obtain ⟨hop, _, rfl⟩ := mem_map.mp hx
      obtain ⟨hop', _, heq⟩ := mem_map.mp hx'
      exact hne (append_inj' heq.symm rfl).1

/-! ## Paths of variable length -/

def varLengthItem (s : PathSearch) (hops : List (Edge × Node)) : Node × Path × Nat :=
  (s.node hops, s.path hops, hops.length)

/-- A path that is among the results once the queue has come to it. -/
def counts (s : PathSearch) (minHops : Nat) (hops : List (Edge × Node)) : Bool :=
  decide (minHops ≤ hops.length) && nodeMatchesPattern (s.node hops) s.nodePat s.params

theorem varLengthEdges_eq (h : g.Linked view) (edges : List Edge) :
    varLengthEdges g view.seen s minHops maxHops (s.node hops) (s.path hops) hops.length edges =
      let next := (g.nextHops view.seen (s.node hops).id (s.used hops) edges).map fun hop => hops ++ [hop]
      .ok ((next.filter (s.counts minHops)).map s.answerOf,
        if hops.length + 1 < maxHops then next.map s.varLengthItem else []) := by
  have hany : ∀ id, ((s.path hops).edges.any fun e => e.id == id) = true ↔ id ∈ s.used hops := by
    intro id
    simp [used]
  induction edges with
  | nil => simp [varLengthEdges, nextHops]
  | cons e edges ih =>
    rw [nextHops] at ih
    rw [varLengthEdges, nextHops, filterMap_cons, nextHop]
    by_cases hused : e.id ∈ s.used hops
    · rw [if_pos ((hany e.id).mpr hused), if_pos hused]
      exact ih
    · rw [if_neg fun h => hused ((hany e.id).mp h), if_neg hused]
      obtain ⟨o, ho, _⟩ := h.node (otherEnd e (s.node hops).id)
      cases o with
      | none =>
        simp only [ho]
        exact ih
      | some next =>
        have hanswer : s.answerOf (hops ++ [(e, next)]) = s.answer next (nextPath (s.path hops) e next) := by
          rw [answerOf, node_concat, path_concat]
        have hitem : s.varLengthItem (hops ++ [(e, next)]) =
            (next, nextPath (s.path hops) e next, hops.length + 1) := by
          rw [varLengthItem, node_concat, path_concat, length_append]
          rfl
        have hcounts : s.counts minHops (hops ++ [(e, next)]) =
            (decide (minHops ≤ hops.length + 1) && nodeMatchesPattern next s.nodePat s.params) := by
          rw [counts, node_concat, length_append, length_singleton]
        simp only [ho, ih, Except.map, map_cons, filter_cons, hcounts, Bool.and_eq_true, decide_eq_true_eq]
        split_ifs <;> simp [hanswer, hitem]

theorem varLengthVisit_eq (h : g.Linked view) (hlt : hops.length < maxHops) (results : List Active) :
    varLengthVisit g lossy view.seen s minHops maxHops results (s.varLengthItem hops) =
      .inr (results ++ ((longer g lossy s view hops).filter (s.counts minHops)).map s.answerOf,
        if hops.length + 1 < maxHops then (longer g lossy s view hops).map s.varLengthItem else []) := by
  simp only [varLengthVisit, varLengthItem, getMatchingEdges_eq h, varLengthEdges_eq h]
  rw [if_neg (Nat.not_le.mpr hlt)]
  rfl

theorem mem_counting (h : g.Linked view) (hs : s.Plain) :
    hops ∈ (trails g lossy s view n).filter (s.counts minHops) ↔
      hops.length = n ∧ Trail g s view s.FirstTyped hops ∧ s.counts minHops hops = true := by
  rw [mem_filter, mem_trails h hs, and_assoc]

/-- All trails with `n` hops are taken from the queue before the longer ones. -/
theorem drains_level (h : g.Linked view) (hs : s.Plain) (hn : n < maxHops) {results : List Active}
    {result : H2Result (List Active)} (hrest : Drains (varLengthVisit g lossy view.seen s minHops maxHops) .ok
      (results ++ ((trails g lossy s view (n + 1)).filter (s.counts minHops)).map s.answerOf)
      (if n + 1 < maxHops then (trails g lossy s view (n + 1)).map s.varLengthItem else []) result) :
    Drains (varLengthVisit g lossy view.seen s minHops maxHops) .ok results
      ((trails g lossy s view n).map s.varLengthItem) result := by
  have hvisit : ∀ hops ∈ trails g lossy s view n, ∀ results,
      varLengthVisit g lossy view.seen s minHops maxHops results (s.varLengthItem hops) =
        .inr (results ++ ((longer g lossy s view hops).filter (s.counts minHops)).map s.answerOf,
          if n + 1 < maxHops then (longer g lossy s view hops).map s.varLengthItem else []) := by
    intro hops hmem results
    obtain ⟨rfl, _⟩ := (mem_trails h hs).mp hmem
    exact varLengthVisit_eq h hn results
  rw [← append_nil ((trails g lossy s view n).map s.varLengthItem)]
  refine Drains.level hvisit ?_
  rw [trails, filter_flatMap, map_flatMap] at hrest
  split_ifs at hrest ⊢
  · rw [map_flatMap] at hrest
    exact hrest
  · rw [flatMap_eq_nil_iff.mpr fun _ _ => rfl]
    exact hrest

theorem drains_trails (h : g.Linked view) (hs : s.Plain) {n left : Nat} (hleft : n + left + 1 = maxHops)
    (results : List Active) : ∃ found : List (List (Edge × Node)),
      Drains (varLengthVisit g lossy view.seen s minHops maxHops) .ok results
        ((trails g lossy s view n).map s.varLengthItem)
          (.ok (results ++ found.map s.answerOf)) ∧ found.Nodup ∧
      ∀ hops, hops ∈ found ↔
        (n < hops.length ∧ hops.length ≤ maxHops) ∧ Trail g s view s.FirstTyped hops ∧
          s.counts minHops hops = true := by
  have hnodup := (nodup_trails h (n + 1) : (trails g lossy s view (n + 1)).Nodup).filter (s.counts minHops)
  induction left generalizing n results with
  | zero =>
    refine ⟨_, drains_level h hs (by omega) ?_, hnodup, fun hops => ?_⟩
    · rw [if_neg (by omega)]
      exact Drains.nil
    · rw [mem_counting h hs]
      refine and_congr_left fun _ => ?_
      omega
  | succ left ih =>
    obtain ⟨found, hdrains, hfound, hmem⟩ := ih (by omega)
      (results ++ ((trails g lossy s view (n + 1)).filter (s.counts minHops)).map s.answerOf)
      ((nodup_trails h (n + 2)).filter _)
    refine ⟨(trails g lossy s view (n + 1)).filter (s.counts minHops) ++ found,
      drains_level h hs (by omega) ?_, ?_,
      fun hops => ?_⟩
    · rw [if_pos (by omega), map_append, ← append_assoc]
      exact hdrains
    · rw [nodup_append]
      refine ⟨hnodup, hfound, ?_⟩
      rintro hops hin _ hin' rfl
      have hlength := ((mem_counting h hs).mp hin).1
      have hlonger := ((hmem hops).mp hin').1.1
      omega
    · rw [mem_append, mem_counting h hs, hmem hops, ← or_and_right]
      refine and_congr_left fun _ => ?_
      omega

theorem asked_iff : Asked g s minHops maxHops view typed hops ↔
    (0 < hops.length ∧ hops.length ≤ maxHops) ∧ Trail g s view typed hops ∧ s.counts minHops hops = true := by
  rw [Asked, EndsAtMatch, counts, Bool.and_eq_true, decide_eq_true_eq]
  rcases eq_nil_or_concat' hops with rfl | ⟨hops, hop, rfl⟩
  · simp
  · rw [node_concat, getLast?_concat, length_append, length_singleton]
    simp only [Option.mem_some_iff, exists_eq_left']
    constructor
    · rintro ⟨htrail, hmin, hmax, hmatch⟩
      exact ⟨⟨Nat.succ_pos _, hmax⟩, htrail, hmin, hmatch⟩
    · rintro ⟨⟨_, hmax⟩, htrail, hmin, hmatch⟩
      exact ⟨htrail, hmin, hmax, hmatch⟩

/-- The search finds the trails whose edges all have the first type. -/
theorem expandVarLength_spec (h : g.Linked view) (hs : s.Plain) (lossy : List UInt8 → String)
    (minHops maxHops : Nat) :
    ∃ found : List (List (Edge × Node)), found.Nodup ∧
      (∀ hops, hops ∈ found ↔ Asked g s minHops maxHops view s.FirstTyped hops) ∧
    Drains (varLengthVisit g lossy view.seen s minHops maxHops) .ok [] [(s.startNode, s.currPath, 0)]
      (.ok (found.map s.answerOf)) := by
  have hfirst : [(s.startNode, s.currPath, 0)] = (trails g lossy s view 0).map s.varLengthItem := by
    simp [trails, varLengthItem, node, path]
  rw [hfirst]
  cases maxHops with
  | zero =>
    refine ⟨[], nodup_nil, fun hops => ?_, Drains.step rfl Drains.nil⟩
    rw [asked_iff]
    simp only [not_mem_nil, false_iff]
    omega
  | succ left =>
    have hleft : 0 + left + 1 = left + 1 := by omega
    obtain ⟨found, hdrains, hnodup, hmem⟩ := drains_trails h hs hleft []
    refine ⟨found, hnodup, fun hops => ?_, hdrains⟩
    rw [hmem, asked_iff]

/-! ## Shortest paths -/

def shortestItem (s : PathSearch) (hops : List (Edge × Node)) : Node × Path := (s.node hops, s.path hops)

variable (g s view) in
/-- What the search keeps: it has visited nodes of the graph, and none but the start matches. -/
structure Ahead (ids visited : Finset UInt64) (items : List (List (Edge × Node))) : Prop where
  frontier : Frontier (Goes g s view s.FirstTyped) (fun hop => hop.2.id) s.startNode.id visited items
  unmatched : ∀ n, g.HasNode view.seen n → n.id ∈ visited → n.id ≠ s.startNode.id →
    nodeMatchesPattern n s.nodePat s.params ≠ true
  known : visited ⊆ ids

variable {ids visited : Finset UInt64} {items : List (List (Edge × Node))}

/-- A walk to another node that matches is longer than the shortest of the items. -/
theorem Ahead.lt_of_arrives (h : Ahead g s view ids visited items) (hn : ∀ item ∈ items, n ≤ item.length)
    (harrives : Arrives g s view s.FirstTyped hops) : n < hops.length := by
  obtain ⟨hwalk, hop, hlast, hne, hmatch⟩ := harrives
  refine h.frontier.far hn hwalk fun hin => ?_
  obtain ⟨init, rfl⟩ := getLast?_eq_some_iff.mp hlast
  rw [endOf_concat] at hin
  exact h.unmatched hop.2 (walk_concat.mp hwalk).2.2.1 hin hne hmatch

theorem Ahead.shortest (h : Ahead g s view ids visited items) (hmem : hops ∈ items)
    (hfirst : ∀ item ∈ items, hops.length ≤ item.length)
    (hgoes : Goes g s view s.FirstTyped (s.node hops).id hop)
    (hnew : hop.2.id ∉ visited) (hmatch : nodeMatchesPattern hop.2 s.nodePat s.params = true) :
    Shortest g s view s.FirstTyped (hops ++ [hop]) := by
  rw [id_node] at hgoes
  refine ⟨⟨walk_concat.mpr ⟨h.frontier.walk hops hmem, hgoes⟩, hop, getLast?_concat, ?_, hmatch⟩, ?_⟩
  · intro hstart
    exact hnew (hstart ▸ h.frontier.begun)
  · intro other hother
    rw [length_append]
    exact h.lt_of_arrives hfirst hother

theorem Ahead.discover (h : Ahead g s view ids visited items) (hids : ∀ n, g.HasNode view.seen n → n.id ∈ ids)
    (hmem : hops ∈ items) (hfirst : ∀ item ∈ items, hops.length ≤ item.length)
    (hgoes : Goes g s view s.FirstTyped (s.node hops).id hop) (hnew : hop.2.id ∉ visited)
    (hmatch : nodeMatchesPattern hop.2 s.nodePat s.params ≠ true) :
    Ahead g s view ids (insert hop.2.id visited) (items ++ [hops ++ [hop]]) := by
  constructor
  · exact h.frontier.discover hmem hfirst (id_node ▸ hgoes) hnew
  · intro n hn hin hne
    rcases Finset.mem_insert.mp hin with hid | hin
    · rw [hn.unique hgoes.2.1 hid]
      exact hmatch
    · exact h.unmatched n hn hin hne
  · exact Finset.insert_subset (hids hop.2 hgoes.2.1) h.known

variable (g s view) in
/-- What the loop over edges of a node leaves that does not return: new items behind the ones there were,
and no edge that leads to what is not visited. -/
structure Passed (ids visited : Finset UInt64) (items : List (List (Edge × Node))) (hops : List (Edge × Node))
    (edges : List Edge) (visited' : Finset UInt64) (more : List (List (Edge × Node))) : Prop where
  ahead : Ahead g s view ids visited' (items ++ more)
  kept : visited ⊆ visited'
  card : visited'.card = visited.card + more.length
  longer : ∀ item ∈ more, item.length = hops.length + 1
  done : ∀ hop, Goes g s view s.FirstTyped (s.node hops).id hop → hop.1 ∈ edges → hop.2.id ∈ visited'

variable {visited' : Finset UInt64} {more : List (List (Edge × Node))} {edges : List Edge}

theorem Passed.cons (h : Passed g s view ids visited items hops edges visited' more)
    (hdone : ∀ hop, Goes g s view s.FirstTyped (s.node hops).id hop → hop.1 = e → hop.2.id ∈ visited') :
    Passed g s view ids visited items hops (e :: edges) visited' more := by
  refine ⟨h.ahead, h.kept, h.card, h.longer, fun hop hgoes hin => ?_⟩
  rcases mem_cons.mp hin with hsame | hin
  · exact hdone hop hgoes hsame
  · exact h.done hop hgoes hin

theorem Passed.discover (hnew : hop.2.id ∉ visited)
    (h : Passed g s view ids (insert hop.2.id visited) (items ++ [hops ++ [hop]]) hops edges visited' more) :
    Passed g s view ids visited items hops edges visited' ((hops ++ [hop]) :: more) := by
  obtain ⟨hahead, hkept, hcard, hlonger, hdone⟩ := h
  refine ⟨?_, (Finset.subset_insert _ _).trans hkept, ?_, ?_, hdone⟩
  · rw [append_assoc] at hahead
    exact hahead
  · rw [hcard, Finset.card_insert_of_notMem hnew, length_cons]
    omega
  · rw [forall_mem_cons, length_append]
    exact ⟨rfl, hlonger⟩

/-- From a shortest item the search comes to a match that no walk is shorter to, or goes on. -/
theorem Ahead.shortestEdges (h : g.Linked view) (hs : s.Plain)
    (hids : ∀ n, g.HasNode view.seen n → n.id ∈ ids)
    (hedges : ∀ e ∈ edges, e ∈ matching g lossy s view (s.node hops).id)
    (hA : Ahead g s view ids visited items)
    (hmem : hops ∈ items) (hfirst : ∀ item ∈ items, hops.length ≤ item.length) :
    (∃ found, PathSearch.shortestEdges g view.seen s (s.node hops) (s.path hops) visited edges =
        .inl (.ok [s.answerOf found]) ∧ Shortest g s view s.FirstTyped found) ∨
      ∃ visited' more, PathSearch.shortestEdges g view.seen s (s.node hops) (s.path hops) visited edges =
        .inr (visited', more.map s.shortestItem) ∧
          Passed g s view ids visited items hops edges visited' more := by
  induction edges generalizing visited items with
  | nil =>
    refine .inr ⟨visited, [], rfl, ?_, Finset.Subset.refl _, rfl, ?_, ?_⟩
    · rw [append_nil]
      exact hA
    · exact fun item hin => absurd hin not_mem_nil
    · exact fun hop _ hin => absurd hin not_mem_nil
  | cons e edges ih =>
    obtain ⟨he, hrest⟩ := forall_mem_cons.mp hedges
    have hid : ∀ hop, Goes g s view s.FirstTyped (s.node hops).id hop → hop.1 = e →
        g.HasNode view.seen hop.2 ∧ hop.2.id = otherEnd e (s.node hops).id := by
      intro hop hgoes hsame
      rw [← hsame]
      exact ⟨hgoes.2.1, ((joins_iff _ _ _ _).mp hgoes.2.2.1).2⟩
    rw [PathSearch.shortestEdges]
    by_cases hin : otherEnd e (s.node hops).id ∈ visited
    · rw [if_pos hin]
      rcases ih hrest hA hmem hfirst with hfound | ⟨visited', more, heq, hpassed⟩
      · exact .inl hfound
      · refine .inr ⟨visited', more, heq, hpassed.cons fun hop hgoes hsame => ?_⟩
        rw [(hid hop hgoes hsame).2]
        exact hpassed.kept hin
    · rw [if_neg hin]
      obtain ⟨o, ho, hoid⟩ := h.node (otherEnd e (s.node hops).id)
      cases o with
      | none =>
        simp only [ho]
        rcases ih hrest hA hmem hfirst with hfound | ⟨visited', more, heq, hpassed⟩
        · exact .inl hfound
        · refine .inr ⟨visited', more, heq, hpassed.cons fun hop hgoes hsame => ?_⟩
          obtain ⟨hnode, hend⟩ := hid hop hgoes hsame
          rw [HasNode, hend, ho] at hnode
          cases hnode
      | some next =>
        have hnext : next.id = otherEnd e (s.node hops).id := hoid next rfl
        have hnode : g.getNode view.seen next.id = .ok (some next) := by
          rw [hnext]
          exact ho
        have hgoes : Goes g s view s.FirstTyped (s.node hops).id (e, next) :=
          (goes_iff h hs).mpr ⟨he, hnode, hnext⟩
        rw [← hnext] at hin
        have hpath : s.path (hops ++ [(e, next)]) = nextPath (s.path hops) e next := path_concat
        simp only [← hnext, hnode, ← hpath]
        by_cases hmatch : nodeMatchesPattern next s.nodePat s.params = true
        · rw [if_pos hmatch]
          refine .inl ⟨hops ++ [(e, next)], ?_, hA.shortest hmem hfirst hgoes hin hmatch⟩
          rw [answerOf, node_concat]
        · rw [if_neg hmatch]
          have hfirst' : ∀ item ∈ items ++ [hops ++ [(e, next)]], hops.length ≤ item.length := by
            intro item hitem
            rcases mem_append.mp hitem with hitem | hitem
            · exact hfirst item hitem
            · rw [mem_singleton.mp hitem, length_append]
              exact Nat.le_add_right _ _
          rcases ih hrest (hA.discover hids hmem hfirst hgoes hin hmatch)
            (mem_append_left _ hmem) hfirst' with
            ⟨found, heq, hshortest⟩ | ⟨visited', more, heq, hpassed⟩
          · exact .inl ⟨found, by rw [heq], hshortest⟩
          · refine .inr ⟨visited', (hops ++ [(e, next)]) :: more, ?_, ?_⟩
            · rw [heq, map_cons, shortestItem, node_concat]
            · refine (hpassed.discover hin).cons fun hop hgoes' hsame => ?_
              rw [(hid hop hgoes' hsame).2, ← hnext]
              exact hpassed.kept (Finset.mem_insert_self _ _)

/-- Each turn takes one item from the queue, and what it adds are nodes that were not visited. -/
theorem drains_shortest (h : g.Linked view) (hs : s.Plain)
    (hids : ∀ n, g.HasNode view.seen n → n.id ∈ ids) {turns : Nat}
    (hturns : ids.card - visited.card + items.length ≤ turns) (hA : Ahead g s view ids visited items)
    (hlayers : Layered items) : ∃ answers, AnswersShortest g s view s.FirstTyped answers ∧
      Drains (shortestVisit g lossy view.seen s) (fun _ => .ok []) visited (items.map s.shortestItem)
        (.ok answers) := by
  induction turns generalizing visited items with
  | zero =>
    obtain rfl : items = [] := length_eq_zero_iff.mp (by omega)
    refine ⟨[], Or.inl ⟨rfl, fun hops harrives => ?_⟩, Drains.nil⟩
    exact absurd (hA.lt_of_arrives (fun item hin => absurd hin not_mem_nil) harrives) (lt_irrefl _)
  | succ turns ih =>
    cases items with
    | nil =>
      refine ⟨[], Or.inl ⟨rfl, fun hops harrives => ?_⟩, Drains.nil⟩
      exact absurd (hA.lt_of_arrives (fun item hin => absurd hin not_mem_nil) harrives) (lt_irrefl _)
    | cons hops items =>
      have hfirst : ∀ item ∈ hops :: items, hops.length ≤ item.length := by
        rw [forall_mem_cons]
        exact ⟨le_refl _, fun item hin => ((pairwise_cons.mp hlayers).1 item hin).1⟩
      have hvisit : shortestVisit g lossy view.seen s visited (s.shortestItem hops) =
          PathSearch.shortestEdges g view.seen s (s.node hops) (s.path hops) visited
            (matching g lossy s view (s.node hops).id) := by
        simp only [shortestVisit, shortestItem, getMatchingEdges_eq h]
      rcases hA.shortestEdges h hs hids (fun e he => he) mem_cons_self hfirst with
        ⟨found, heq, hshortest⟩ | ⟨visited', more, heq, hpassed⟩
      · exact ⟨_, Or.inr ⟨found, rfl, hshortest⟩, Drains.stop (hvisit.trans heq)⟩
      · have hahead := hpassed.ahead
        have hle := Finset.card_le_card hahead.known
        have hcard := hpassed.card
        have hA' : Ahead g s view ids visited' (items ++ more) := by
          refine ⟨hahead.frontier.leave fun hop hgoes => ?_, hahead.unmatched, hahead.known⟩
          rw [← id_node] at hgoes
          exact hpassed.done hop hgoes ((goes_iff h hs).mp hgoes).1
        obtain ⟨answers, hsettled, hdrains⟩ := ih (by
          rw [length_cons] at hturns
          rw [length_append]
          omega) hA' (hlayers.next hpassed.longer)
        refine ⟨answers, hsettled, Drains.step (hvisit.trans heq) ?_⟩
        rw [← map_append]
        exact hdrains

theorem expandShortestPath_spec (h : g.Linked view) (hs : s.Plain) (lossy : List UInt8 → String) :
    ∃ answers, AnswersShortest g s view s.FirstTyped answers ∧ Drains (shortestVisit g lossy view.seen
      s) (fun _ => .ok []) {s.startNode.id} [(s.startNode, s.currPath)]
      (.ok answers) := by
  obtain ⟨nodes, _, _, hnodes⟩ := h.allNodes
  have hids : ∀ n, g.HasNode view.seen n → n.id ∈ insert s.startNode.id (nodes.map Node.id).toFinset := by
    intro n hn
    rw [Finset.mem_insert, mem_toFinset]
    exact .inr (mem_map_of_mem ((hnodes n).mpr hn))
  have hA : Ahead g s view (insert s.startNode.id (nodes.map Node.id).toFinset) {s.startNode.id} [[]] := by
    refine ⟨⟨Finset.mem_singleton_self _, ?_, ?_, ?_⟩, ?_, ?_⟩
    · rw [forall_mem_singleton]
      exact trivial
    · rw [forall_mem_singleton]
      exact fun w _ _ => Nat.zero_le _
    · exact fun a hop ha _ => Or.inr ⟨[], mem_singleton_self _, (Finset.mem_singleton.mp ha).symm⟩
    · exact fun n _ hin hne => absurd (Finset.mem_singleton.mp hin) hne
    · exact Finset.singleton_subset_iff.mpr (Finset.mem_insert_self _ _)
  have hfirst : [(s.startNode, s.currPath)] = [[]].map s.shortestItem := by
    simp [shortestItem, node, path]
  rw [hfirst]
  exact drains_shortest h hs hids (le_refl _) hA (pairwise_singleton _ _)

/-! ## When the searches are exact -/

theorem asked_firstTyped : Asked g s minHops maxHops view s.FirstTyped hops ↔
    Asked g s minHops maxHops view s.Typed hops ∧ ∀ hop ∈ hops, s.FirstTyped hop.1 := by
  constructor
  · rintro ⟨⟨hwalk, hdistinct, hfresh⟩, hrest⟩
    obtain ⟨hwalk, hfirst⟩ := walks_iff.mp hwalk
    exact ⟨⟨⟨hwalk, hdistinct, hfresh⟩, hrest⟩, hfirst⟩
  · rintro ⟨⟨⟨hwalk, hdistinct, hfresh⟩, hrest⟩, hfirst⟩
    exact ⟨⟨walks_iff.mpr ⟨hwalk, hfirst⟩, hdistinct, hfresh⟩, hrest⟩

theorem arrives_of_firstTyped (h : Arrives g s view s.FirstTyped hops) : Arrives g s view s.Typed hops :=
  ⟨(walks_iff.mp h.1).1, h.2⟩

/-- The searches are exact if and only if every edge of a trail asked for has the first type of the pattern
as it is written, and for each walk to another match there is one, of such edges alone, that is not longer.
-/
theorem pathSearch_exact_iff (h : g.Linked view) (hs : s.Plain) (lossy : List UInt8 → String)
    (minHops maxHops : Nat) :
    Exact g lossy s minHops maxHops view ↔
      (∀ hops, Asked g s minHops maxHops view s.Typed hops → ∀ hop ∈ hops, s.FirstTyped hop.1) ∧
        ∀ hops, Arrives g s view s.Typed hops →
          ∃ other, Arrives g s view s.FirstTyped other ∧ other.length ≤ hops.length := by
  obtain ⟨trails, hnodup, hmem, htrails⟩ :=
    expandVarLength_spec h hs lossy minHops maxHops
  obtain ⟨settled, hsettled, hshortest⟩ := expandShortestPath_spec h hs lossy
  constructor
  · rintro ⟨⟨found, _, hfound, hrun⟩, answers, hrun', hanswers⟩
    have hsame : trails = found :=
      map_injective_iff.mpr answerOf_injective (Except.ok.inj (Drains.unique htrails hrun))
    have hsame' : settled = answers := Except.ok.inj (Drains.unique hshortest hrun')
    rw [← hsame] at hfound
    rw [← hsame'] at hanswers
    refine ⟨fun hops hasked => ?_, fun hops harrives => ?_⟩
    · exact (asked_firstTyped.mp ((hmem hops).mp ((hfound hops).mpr hasked))).2
    · rcases hanswers with ⟨_, hnone⟩ | ⟨best, hbest, hleast⟩
      · exact absurd harrives (hnone hops)
      · rcases hsettled with ⟨hempty, _⟩ | ⟨first, hfirst, hreached⟩
        · rw [hempty] at hbest
          cases hbest
        · rw [hfirst] at hbest
          rw [answerOf_injective (singleton_inj.mp hbest)] at hreached
          exact ⟨best, hreached.1, hleast.2 hops harrives⟩
  · rintro ⟨htyped, hshorter⟩
    refine ⟨⟨trails, hnodup, fun hops => ?_, htrails⟩, settled, hshortest, ?_⟩
    · rw [hmem, asked_firstTyped]
      exact and_iff_left_of_imp (htyped hops)
    · rcases hsettled with ⟨hempty, hnone⟩ | ⟨best, hbest, harrives, hleast⟩
      · refine Or.inl ⟨hempty, fun hops harrives' => ?_⟩
        obtain ⟨other, hother, _⟩ := hshorter hops harrives'
        exact hnone other hother
      · refine Or.inr ⟨best, hbest, arrives_of_firstTyped harrives, fun hops harrives' => ?_⟩
        obtain ⟨other, hother, hle⟩ := hshorter hops harrives'
        exact (hleast other hother).trans hle

end

attribute [local instance] plainCodecs plainCrates GraphState.noJson

/-- From the first node of `GraphState.oneEdge` along edges of these types. -/
def fromFirst (types : List String) : PathSearch :=
  ⟨⟨1, ["A"], ∅⟩, ⟨none, types, [], .outgoing⟩, ⟨none, [], []⟩, ⟨[⟨1, ["A"], ∅⟩], []⟩, ∅⟩

/-- Along two edges that lead to and fro. -/
theorem pathSearch_exact_twoEdges :
    Exact GraphState.twoEdges.store (fun _ => "") (fromFirst ["B"]) 1 3 GraphState.twoEdges.view := by
  have hfirst : ∀ hops, Walks GraphState.twoEdges.store (fromFirst ["B"]) GraphState.twoEdges.view
      (fromFirst ["B"]).Typed hops → ∀ hop ∈ hops, (fromFirst ["B"]).FirstTyped hop.1 := by
    intro hops hwalks hop hhop t ht
    have hgoes : ∀ a hop, Goes GraphState.twoEdges.store (fromFirst ["B"]) GraphState.twoEdges.view
        (fromFirst ["B"]).Typed a hop → hop.1.edgeType = "B" := fun _ _ h => GraphState.edgeType_twoEdges h.1
    cases ht
    exact (((walk_and fun a hop => iff_self_and.mpr (hgoes a hop)).mp hwalks).2 hop hhop).symm
  refine (pathSearch_exact_iff GraphState.sound_twoEdges.view.linked ⟨rfl, ?_⟩ (fun _ => "") 1 3).mpr ⟨?_, ?_⟩
  · decide
  · exact fun hops hasked => hfirst hops hasked.1.walk
  · intro hops harrives
    exact ⟨hops, ⟨walks_iff.mpr ⟨harrives.1, hfirst hops harrives.1⟩, harrives.2⟩, le_refl _⟩

/-- The edge has the second type of the pattern, and is not found. -/
theorem pathSearch_misses_second_type : GraphState.Sound GraphState.oneEdge ∧
    ¬Exact GraphState.oneEdge.store (fun _ => "") (fromFirst ["A", "B"]) 1 3 GraphState.oneEdge.view := by
  refine ⟨GraphState.sound_oneEdge, ?_⟩
  rintro ⟨⟨found, _, hfound, turns, hrun⟩, _⟩
  have hasked : Asked GraphState.oneEdge.store (fromFirst ["A", "B"]) 1 3 GraphState.oneEdge.view
      (fromFirst ["A", "B"]).Typed [(⟨1, "B", 1, 2, ∅⟩, ⟨2, ["A"], ∅⟩)] := by
    refine ⟨⟨⟨⟨rfl, rfl, ⟨rfl, rfl⟩, Or.inr ⟨"B", by decide, by decide +kernel⟩⟩, trivial⟩,
      List.nodup_singleton _, ?_⟩,
      by decide, by decide, _, rfl, rfl⟩
    exact fun hop _ => List.not_mem_nil
  have hnone : (some (.ok []) : Option (H2Result (List Active))) =
      some (.ok (found.map (fromFirst ["A", "B"]).answerOf)) :=
    hrun 2
  have hempty : found = [] := List.map_eq_nil_iff.mp (Except.ok.inj (Option.some.inj hnone)).symm
  have hin := (hfound _).mpr hasked
  rw [hempty] at hin
  cases hin

end PathSearch

end H2Database.Graph
