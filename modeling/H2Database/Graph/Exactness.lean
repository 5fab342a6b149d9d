import H2Database.Graph.Executors
import H2Database.Graph.Search
import H2Database.Sql.Careful

/-!
# When MATCH and MERGE are exact

The search tests the first type of an edge as it is written, and evaluates the properties of an edge without
the parameters; it binds every variable anew, except for a start that the row holds a node for; and a label
or a property of the start must be in the index as it is written.
-/

namespace H2Database.Graph

open Reasoning Mvstore Sql List

section

variable [Crates] [Codecs] [GraphJson]

/-- MERGE goes by the assignments: it creates the pattern if there is none, and else takes one. -/
structure Merges {SetItems : Type} (applySets : ApplySets SetItems) (lossy : List UInt8 → String)
    (w : Working)
    (clause : MergeClause SetItems) (row params : Bindings) : Prop where
  creates : (∀ m, ¬ w.store.Admits w.view clause.pattern row params m) →
    mergeRow applySets lossy w clause row params = mergeCreate applySets w clause row params
  finds : (∃ m, w.store.Admits w.view clause.pattern row params m) →
    ∃ m b, w.store.Admits w.view clause.pattern row params m ∧ m.Binds clause.pattern b ∧
      mergeRow applySets lossy w clause row params = mergeFound applySets w clause row params b

namespace GraphStore

variable {g : GraphStore} {view : View} {pattern : Pattern} {row params : Bindings}

theorem Exact.merges {lossy : List UInt8 → String}
    (h : g.Exact view pattern row params (g.matchPattern lossy view.seen pattern row params))
    {SetItems : Type} (applySets : ApplySets SetItems) {clause : MergeClause SetItems}
    (hclause : clause.pattern = pattern) :
    Merges applySets lossy ⟨g, view⟩ clause row params := by
  obtain ⟨found, hfound, _, hexactly, hbinds⟩ := h
  subst hclause
  constructor
  · intro hnone
    have hempty : found = [] := by
      cases found with
      | nil => rfl
      | cons first found =>
        obtain ⟨m, hm, _⟩ := (hexactly first.2).mp mem_cons_self
        exact absurd hm (hnone m)
    rw [mergeRow]
    simp only [hfound, hempty]
  · rintro ⟨m, hm⟩
    have hin : m.path ∈ found.map Prod.snd := (hexactly m.path).mpr ⟨m, hm, rfl⟩
    cases found with
    | nil => cases hin
    | cons first found =>
      obtain ⟨m', hm', hpath⟩ := (hexactly first.2).mp mem_cons_self
      refine ⟨m', first.1, hm', hbinds m' first.1 hm' ?_, ?_⟩
      · rw [hpath]
        exact mem_cons_self
      · rw [mergeRow]
        simp only [hfound]

/-- MATCH is exact, and MERGE with it, if and only if, wherever the pattern can be laid on the graph, the
tests of the search say what the pattern means. -/
theorem match_exact_iff (h : g.Linked view) (lossy : List UInt8 → String) (pattern : Pattern)
    (row params : Bindings) :
    (g.Exact view pattern row params (g.matchPattern lossy view.seen pattern row params) ∧
        ∀ (SetItems : Type) (applySets : ApplySets SetItems) (clause : MergeClause SetItems),
          clause.pattern = pattern → Merges applySets lossy ⟨g, view⟩ clause row params) ↔
      ∀ m, g.Laid view pattern params m →
        (g.AsWritten view pattern row params m ↔ g.Meant view pattern row params m) := by
  obtain ⟨ms, hms, hmnd, hmmem⟩ := h.matchPattern lossy pattern row params
  have hpaths : (ms.map fun m => (m.bindings pattern, m.path)).map Prod.snd = ms.map Match.path := by
    rw [map_map]
    rfl
  have hmem : ∀ m : Match, m.path ∈ ms.map Match.path ↔
      g.Laid view pattern params m ∧ g.AsWritten view pattern row params m := by
    intro m
    rw [mem_map_of_injective fun _ _ => Match.path_inj]
    exact hmmem m
  constructor
  · rintro ⟨⟨found, hfound, _, hexactly, _⟩, _⟩ m hlaid
    have hsame : ms.map (fun m => (m.bindings pattern, m.path)) = found := by
      rw [hms] at hfound
      exact Except.ok.inj hfound
    rw [← hsame, hpaths] at hexactly
    constructor
    · intro hwritten
      obtain ⟨m', hadmits, hpath⟩ := (hexactly m.path).mp ((hmem m).mpr ⟨hlaid, hwritten⟩)
      rw [← Match.path_inj hpath]
      exact hadmits.2
    · intro hmeant
      exact ((hmem m).mp ((hexactly m.path).mpr ⟨m, ⟨hlaid, hmeant⟩, rfl⟩)).2
  · intro hagree
    have hexact : g.Exact view pattern row params (g.matchPattern lossy view.seen pattern row params) := by
      refine ⟨_, hms, ?_, fun p => ?_, fun m b hm hin => ?_⟩
      · rw [hpaths]
        exact hmnd.map fun _ _ => Match.path_inj
      · rw [hpaths, mem_map]
        constructor
        · rintro ⟨m, hin, rfl⟩
          obtain ⟨hlaid, hwritten⟩ := (hmmem m).mp hin
          exact ⟨m, ⟨hlaid, (hagree m hlaid).mp hwritten⟩, rfl⟩
        · rintro ⟨m, hm, rfl⟩
          exact ⟨m, (hmmem m).mpr ⟨hm.1, (hagree m hm.1).mpr hm.2⟩, rfl⟩
      · obtain ⟨m', _, heq⟩ := mem_map.mp hin
        obtain ⟨hb, hpath⟩ := Prod.mk.inj heq
        rw [← hb, Match.path_inj hpath]
        exact Match.binds_bindings hm.2.again
    exact ⟨hexact, fun SetItems applySets clause hclause => hexact.merges applySets hclause⟩

end GraphStore

end

namespace GraphState

attribute [local instance] plainCodecs plainCrates

@[reducible] def noJson : GraphJson where
  list _ := ⟨[]⟩
  map _ := ⟨[]⟩

attribute [local instance] noJson

/-- Two nodes and an edge of type `B`. -/
def oneEdge : GraphState :=
  runs (step fun _ => "") (new "social") [.createNode ["A"] ∅, .createNode ["A"] ∅, .createEdge "B" 1 2 ∅]

theorem sound_oneEdge : Sound oneEdge := by
  have h₁ := (sound_new "social").step (fun _ => "") (.createNode ["A"] ∅)
    ⟨by decide +kernel, by decide, readsNode_plain 1 (by decide) (by decide)⟩ trivial
  have h₂ := h₁.step (fun _ => "") (.createNode ["A"] ∅)
    ⟨by decide +kernel, by decide, readsNode_plain 2 (by decide) (by decide)⟩ trivial
  exact h₂.step (fun _ => "") (.createEdge "B" 1 2 ∅)
    ⟨by decide +kernel, by decide, readsEdge_plain 1 1 2 (by decide)⟩ trivial

/-- And one that leads back. -/
def twoEdges : GraphState := step (fun _ => "") oneEdge (.createEdge "B" 2 1 ∅)

theorem sound_twoEdges : Sound twoEdges :=
  sound_oneEdge.step (fun _ => "") (.createEdge "B" 2 1 ∅)
    ⟨by decide +kernel, by decide, readsEdge_plain 2 2 1 (by decide)⟩ trivial

theorem edgeType_twoEdges {e : Edge} (h : twoEdges.store.HasEdge twoEdges.view.seen e) :
    e.edgeType = "B" := by
  have hall : ∀ p ∈ (twoEdges.view twoEdges.store.edgesMap).scanAll,
      (Codecs.edge.deserialize p.value).toOption.all (fun e => e.edgeType == "B") = true := by decide +kernel
  unfold GraphStore.HasEdge GraphStore.getEdge at h
  split at h
  · cases h
  · rename_i bytes hget
    have htype := hall _ ((MVTree.mem_scanAll _ _ _).mpr hget)
    split at h
    · cases h
    · rename_i hbytes
      cases h
      rw [hbytes] at htype
      exact eq_of_beq htype

/-- `(n)-[:B]->(:A)` -/
def oneHop : Pattern := ⟨⟨some "n", [], []⟩, [(⟨none, ["B"], [], .outgoing⟩, ⟨none, ["A"], []⟩)]⟩

theorem match_exact_oneHop : twoEdges.store.Exact twoEdges.view oneHop ∅ ∅
    (twoEdges.store.matchPattern (fun _ => "") twoEdges.view.seen oneHop ∅ ∅) := by
  refine ((GraphStore.match_exact_iff sound_twoEdges.view.linked (fun _ => "") oneHop ∅ ∅).mpr fun m
    hlaid => ?_).1
  have hhops := hlaid.hops
  rcases m with ⟨start, _ | ⟨⟨e, next⟩, _ | ⟨hop, hops⟩⟩⟩
  · exact hhops.elim
  · have htype : e.edgeType = "B" := edgeType_twoEdges hhops.1.1
    constructor
    · intro h
      refine ⟨⟨⟨.inr ⟨"B", by decide, ?_⟩, rfl⟩, trivial⟩, h.start.1, fun v x _ y hy => ?_,
        pairwise_singleton _ _⟩
      · rw [htype]
        exact beq_self_eq_true _
      · cases hy
    · intro h
      refine ⟨⟨⟨fun t ht => ?_, rfl⟩, trivial⟩, h.start, fun label hlabel => ?_⟩
      · cases ht
        rw [htype]
        exact ⟨idKey e.id, by simp⟩
      · cases hlabel
  · exact hhops.2.elim

/-- `()-[:A:B]->()` -/
def twoTypes : Pattern := ⟨⟨none, [], []⟩, [(⟨none, ["A", "B"], [], .outgoing⟩, ⟨none, [], []⟩)]⟩

/-- Only the first type is looked for. -/
theorem match_misses_second_type : Sound oneEdge ∧ ¬ oneEdge.store.Exact oneEdge.view twoTypes ∅ ∅
    (oneEdge.store.matchPattern (fun _ => "") oneEdge.view.seen twoTypes ∅ ∅) := by
  refine ⟨sound_oneEdge, ?_⟩
  rintro ⟨found, hfound, _, hexactly, _⟩
  have hnone : found = [] := by
    have heq : (.ok [] : H2Result (List (Bindings × Path))) = .ok found := hfound
    cases heq
    rfl
  have hstart : oneEdge.store.HasNode oneEdge.view.seen ⟨1, ["A"], ∅⟩ := rfl
  have hadmits : oneEdge.store.Admits oneEdge.view twoTypes ∅ ∅
      ⟨⟨1, ["A"], ∅⟩, [(⟨1, "B", 1, 2, ∅⟩, ⟨2, ["A"], ∅⟩)]⟩ := by
    refine ⟨⟨rfl, ⟨⟨rfl, rfl, ⟨rfl, rfl⟩, rfl⟩, trivial⟩, nodup_singleton _⟩,
      ⟨⟨Or.inr ⟨"B", by decide, by decide +kernel⟩, rfl⟩, trivial⟩, hstart, fun v x hx => ?_,
        List.Pairwise.nil⟩
    cases hx
  have hin := (hexactly _).mpr ⟨_, hadmits, rfl⟩
  rw [hnone] at hin
  cases hin

end GraphState

end H2Database.Graph
