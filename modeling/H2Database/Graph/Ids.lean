import H2Database.Graph.Store
import H2Database.Mvstore.Tx.Lifetimes

/-!
# Numbers of nodes and edges (`h2-graph/src/store.rs`)

A `GraphStore` counts from what `GraphStore::new` finds in the meta map of its graph.  It looks there for
the eight bytes of a number, but the transactions that note the number leave a versioned value, which is
longer, so that every object starts at 1.  A creation draws its number in one step and makes its writes in
the steps that follow, in which other transactions, engines and objects take theirs.
-/

namespace H2Database.Graph

open Reasoning Mvstore MVStore Sql List Option Function Nat

namespace GraphStore

/-- The number of the eight bytes under the key, and 1 where there are not eight. -/
def counterAt (s : MVStore Stored) (map : String) (key : Key) : UInt64 :=
  match s.read map key with
  | none => 1
  | some stored => if stored.bytes.length = 8 then UInt64.ofNat (fromBe stored.bytes) else 1

def new (s : MVStore Stored) (graphName : String) : GraphStore :=
  ⟨graphName, counterAt s (graphMap graphName "meta") (utf8 "next_node_id"),
    counterAt s (graphMap graphName "meta") (utf8 "next_edge_id")⟩

end GraphStore

/-! ## Creations -/

inductive IdKind where
  | node
  | edge
  deriving DecidableEq

structure Fetch where
  kind : IdKind
  store : Nat
  id : UInt64
  deriving DecidableEq

/-- A `create_node` or `create_edge` between two of its writes, and how it ends after the last one. -/
structure Creation where
  fetch : Fetch
  todo : List Write
  result : H2Result Unit

/-- Objects and engines over one store.  The object of a process that has ended is `none`. -/
structure GraphSystem where
  shared : SharedSystem
  stores : List (Option GraphStore)
  pending : Nat → Nat → Option Creation
  fetched : List Fetch
  returned : List Fetch

inductive GraphAction where
  | openStore
  | createNode (store engine tx : Nat) (labels : List String) (properties : Properties)
  | createEdge (store engine tx : Nat) (edgeType : String) (srcId dstId : UInt64)
      (properties : Properties)
  | proceed (engine tx : Nat) (remaining : Option Nat)
  | shared (a : SharedAction)
  | checkpoint (io : WriteOutcome)
  | crash (kept : Nat)

namespace GraphSystem

def new (mvstore : MVStore Stored) : GraphSystem := ⟨.new mvstore, [], fun _ _ => none, [], []⟩

def setPending (g : GraphSystem) (engine tx : Nat) (p : Option Creation) : GraphSystem :=
  { g with pending := Function.update g.pending engine (Function.update (g.pending engine) tx p) }

def settle (g : GraphSystem) (engine tx : Nat) : Response → GraphSystem
  | .wrote (.returned result) =>
    match g.pending engine tx, result with
    | none, _ => g
    | some _, .error _ => g.setPending engine tx none
    | some p, .ok _ =>
      match p.todo.tail, p.result with
      | [], .ok () => { g.setPending engine tx none with returned := p.fetch :: g.returned }
      | [], .error _ => g.setPending engine tx none
      | todo, _ => g.setPending engine tx (some { p with todo })
  | _ => g

def advance (g : GraphSystem) (engine tx : Nat) (c : Call) : GraphSystem :=
  { g with shared := g.shared.step (.call engine c) }.settle engine tx (g.shared.answer engine c)

def begins (g : GraphSystem) (store engine tx : Nat) (gs : GraphStore) (p : Creation) : GraphSystem :=
  { g.setPending engine tx (some p) with
    stores := g.stores.set store (some gs)
    fetched := p.fetch :: g.fetched }

section

variable [Codecs] (graphName : String)

/-- `get_node` finds the node. -/
def finds (s : SharedSystem) (engine tx : Nat) (id : UInt64) : Bool :=
  match s.answer engine (.get tx (graphMap graphName "nodes") (idKey id)) with
  | .read (.ok (some bytes)) => (Codecs.node.deserialize bytes).isOk
  | _ => false

/-- The nodes and edges of the graph are put by creations only, and a transaction in a creation makes no
other call. -/
def allows (g : GraphSystem) (engine : Nat) : Call → Bool
  | .put tx map _ _ _ =>
    (g.pending engine tx).isNone && map ≠ graphMap graphName "nodes" &&
      map ≠ graphMap graphName "edges"
  | .get tx .. | .remove tx .. | .commit tx _ | .rollback tx => (g.pending engine tx).isNone
  | .begin | .wake .. | .timeOut .. => true

def step (g : GraphSystem) : GraphAction → GraphSystem
  | .openStore => { g with
      shared := { g.shared with mvstore := (g.shared.mvstore.openMap (graphMap graphName "meta")).2 }
      stores := g.stores ++ [some (.new g.shared.mvstore graphName)] }
  | .createNode store engine tx labels properties =>
    match g.stores[store]?.join, g.pending engine tx with
    | some gs, none =>
      let writes := gs.saveNodeWrites ⟨gs.nextNodeId, labels, properties⟩
      g.begins store engine tx { gs with nextNodeId := gs.nextNodeId + 1 }
        ⟨⟨.node, store, gs.nextNodeId⟩, gs.noteNodeId :: (writes.toOption.getD []),
          writes.map fun _ => ()⟩
    | _, _ => g
  | .createEdge store engine tx edgeType srcId dstId properties =>
    match g.stores[store]?.join, g.pending engine tx with
    | some gs, none =>
      let found := g.shared.step (.call engine (.get tx gs.nodesMap (idKey srcId)))
      let g' := { g with shared := found.step (.call engine (.get tx gs.nodesMap (idKey dstId))) }
      if finds graphName g.shared engine tx srcId && finds graphName found engine tx dstId then
        let writes := gs.saveEdgeWrites ⟨gs.nextEdgeId, edgeType, srcId, dstId, properties⟩
        g'.begins store engine tx { gs with nextEdgeId := gs.nextEdgeId + 1 }
          ⟨⟨.edge, store, gs.nextEdgeId⟩, gs.noteEdgeId :: (writes.toOption.getD []),
            writes.map fun _ => ()⟩
      else g'
    | _, _ => g
  | .proceed engine tx remaining =>
    match (g.pending engine tx).bind fun p => p.todo.head? with
    | some (.put map key value) => g.advance engine tx (.put tx map key value remaining)
    | _ => g
  | .shared (.call engine c) =>
    if g.allows graphName engine c then
      match c with
      | .wake tx _ | .timeOut tx _ => g.advance engine tx c
      | _ => { g with shared := g.shared.step (.call engine c) }
    else g
  | .shared (.vacuumMap engine name) => { g with shared := g.shared.step (.vacuumMap engine name) }
  | .checkpoint io => { g with shared := { g.shared with mvstore := (g.shared.mvstore.checkpoint io).2 } }
  | .crash kept =>
    match openAt g.shared.mvstore.file (g.shared.mvstore.wal.take kept) with
    | .ok s => { g with
        shared := .new s
        stores := g.stores.map fun _ => none
        pending := fun _ _ => none }
    | .error _ => g

end

/-- No number is returned twice, and where a node is about to be put there is nothing. -/
structure Unique (graphName : String) (g : GraphSystem) : Prop where
  ids : ∀ kind, ((g.returned.filter fun f => f.kind = kind).map Fetch.id).Nodup
  unwritten : ∀ engine tx p key value, g.pending engine tx = some p →
    .put (graphMap graphName "nodes") key value ∈ p.todo →
    g.shared.mvstore.read (graphMap graphName "nodes") key = none

/-- All numbers of a kind are drawn from one object, whose counter does not overflow. -/
def OneCounter (g : GraphSystem) : GraphAction → Prop
  | .createNode store .. => (∀ f ∈ g.fetched, f.kind = .node → f.store = store) ∧
      ∀ gs, g.stores[store]?.join = some gs → gs.nextNodeId.toNat + 1 < 2 ^ 64
  | .createEdge store .. => (∀ f ∈ g.fetched, f.kind = .edge → f.store = store) ∧
      ∀ gs, g.stores[store]?.join = some gs → gs.nextEdgeId.toNat + 1 < 2 ^ 64
  | _ => True

def Drawn (graphName : String) (fetched : List Fetch) (n : String) (k : Key) : Prop :=
  n = graphMap graphName "nodes" → ∃ f ∈ fetched, f.kind = .node ∧ k = idKey f.id

end GraphSystem

structure Creation.Sound (graphName : String) (p : Creation) : Prop where
  own : ∀ key value, .put (graphMap graphName "nodes") key value ∈ p.todo →
    p.fetch.kind = .node ∧ key = idKey p.fetch.id
  once : (p.todo.filter fun w => w.mapName = graphMap graphName "nodes").length ≤ 1

def GraphStore.next (gs : GraphStore) : IdKind → UInt64
  | .node => gs.nextNodeId
  | .edge => gs.nextEdgeId

namespace GraphSystem

/-- The invariant, but for what stands under the keys that are about to be put. -/
structure Ordered (graphName : String) (g : GraphSystem) : Prop where
  ready : g.shared.Ready
  keys : Throughout (AtKeys (Drawn graphName g.fetched)) g.shared.mvstore
  awake : ∀ i tx t w, (g.shared.engine i).transactions.lookup tx = some t → t.waiting = some w →
    w.call.value.isSome → w.call.mapName ≠ graphMap graphName "nodes"
  names : ∀ gs, some gs ∈ g.stores → gs.graphName = graphName
  distinct : ∀ f ∈ g.fetched, ∀ f' ∈ g.fetched, f.kind = f'.kind → f.id = f'.id → f = f'
  placed : ∀ f ∈ g.fetched, f.store < g.stores.length
  below : ∀ f ∈ g.fetched, ∀ gs, g.stores[f.store]?.join = some gs → f.id < gs.next f.kind
  started : ∀ engine tx p, g.pending engine tx = some p →
    p.Sound graphName ∧ p.fetch ∈ g.fetched ∧ p.fetch ∉ g.returned
  apart : ∀ engine tx p engine' tx' p', g.pending engine tx = some p →
    g.pending engine' tx' = some p' → p.fetch = p'.fetch → engine = engine' ∧ tx = tx'
  ended : g.returned.Nodup ∧ g.returned ⊆ g.fetched

structure Counted (graphName : String) (g : GraphSystem) : Prop extends Ordered graphName g where
  unwritten : ∀ engine tx p key value, g.pending engine tx = some p →
    .put (graphMap graphName "nodes") key value ∈ p.todo →
    g.shared.mvstore.read (graphMap graphName "nodes") key = none

variable {graphName : String} {g : GraphSystem}

theorem Counted.unique (h : Counted graphName g) : Unique graphName g where
  ids kind := by
    refine List.Nodup.map_on (fun f hf f' hf' heq => ?_) (h.ended.1.filter _)
    obtain ⟨hmem, hkind⟩ := mem_filter.mp hf
    obtain ⟨hmem', hkind'⟩ := mem_filter.mp hf'
    refine h.distinct f (h.ended.2 hmem) f' (h.ended.2 hmem') ?_ heq
    rw [of_decide_eq_true hkind, of_decide_eq_true hkind']
  unwritten := h.unwritten

theorem counted_new : Counted graphName (new MVStore.new) where
  ready := SharedSystem.ready_new (fun _ _ _ h => by cases h) (le_refl 0)
  keys := .new
  awake _ _ _ _ ht := by cases ht
  names _ h := by cases h
  distinct _ h := by cases h
  placed _ h := by cases h
  below _ h := by cases h
  started _ _ _ h := by cases h
  apart _ _ _ _ _ _ h := by cases h
  ended := ⟨nodup_nil, nil_subset _⟩
  unwritten _ _ _ _ _ h := by cases h

/-- A write of the call under a node's key is one of a number that has been drawn, with nothing there. -/
def PutsFresh (graphName : String) (g : GraphSystem) (i : Nat) (c : Call) : Prop :=
  ∀ tx wc, (g.shared.engine i).target c = some (tx, wc) → wc.value.isSome →
    wc.mapName = graphMap graphName "nodes" →
    (∃ f ∈ g.fetched, f.kind = .node ∧ wc.key = idKey f.id) ∧
      g.shared.mvstore.read wc.mapName wc.key = none

variable {c : Call}

theorem Ordered.call (h : Ordered graphName g) {i : Nat} (hput : PutsFresh graphName g i c) :
    Ordered graphName { g with shared := g.shared.step (.call i c) } := by
  have he := h.ready.effect i c
  have hready := h.ready.call i c
  refine { h with ready := hready, keys := ?_, awake := ?_ }
  · exact h.keys.effect (h.ready.bound i) he fun tx wc htarget hsome hname =>
      (hput tx wc htarget hsome hname).1
  · intro j tx t w ht hw hsome hname
    by_cases hj : j = i
    · rw [hj] at ht
      change ((g.shared.step (.call i c)).engine i).transactions.lookup tx = some t at ht
      have hfind := hready.bound i tx t w ht hw
      rw [SharedSystem.engine_call_self] at ht hfind
      rcases he.sleeping ht hw with ⟨t₀, ht₀, hw₀⟩ | ⟨htarget, hmark⟩
      · exact h.awake i tx t₀ w ht₀ hw₀ hsome hname
      · -- no mark stands where the node is about to be put
        have hempty := versioned_of_read_none (hput tx w.call htarget hsome hname).2
        exact hmark hfind (congrArg VersionedValue.uncommitted hempty)
    · change ((g.shared.step (.call i c)).engine j).transactions.lookup tx = some t at ht
      rw [SharedSystem.engine_of_ne rfl hj] at ht
      exact h.awake j tx t w ht hw hsome hname

variable {engine tx : Nat} {p : Creation}

theorem Counted.read_call (h : Counted graphName g) {i : Nat} {key : Key} {value : List UInt8}
    (hp : g.pending engine tx = some p) (hmem : .put (graphMap graphName "nodes") key value ∈ p.todo)
    (hother : ∀ tx' v, (g.shared.engine i).event c ≠ some
      (.wrote tx' (graphMap graphName "nodes") key (some v))) :
    (g.shared.step (.call i c)).mvstore.read (graphMap graphName "nodes") key = none :=
  (h.ready.effect i c).read_none (h.ready.bound i) (h.unwritten engine tx p key value hp hmem) hother

theorem Counted.call (h : Counted graphName g) {i : Nat}
    (hput : ∀ tx wc, (g.shared.engine i).target c = some (tx, wc) → wc.value.isSome →
      wc.mapName ≠ graphMap graphName "nodes") :
    Counted graphName { g with shared := g.shared.step (.call i c) } := by
  refine ⟨h.toOrdered.call fun tx wc htarget hsome hname => absurd hname (hput tx wc htarget hsome),
    fun engine tx p key value hp hmem => ?_⟩
  refine h.read_call hp hmem fun tx' v hevent => ?_
  obtain ⟨_, wc, htarget, hname, _, hvalue⟩ := TxSystem.event_eq_wrote hevent
  exact hput tx' wc htarget (by rw [hvalue]; rfl) hname

theorem Counted.get (h : Counted graphName g) (engine tx : Nat) (n : String) (k : Key) :
    Counted graphName { g with shared := g.shared.step (.call engine (.get tx n k)) } :=
  h.call fun _ _ htarget => by cases htarget

theorem Counted.woken (h : Counted graphName g) {tx' : Nat} {remaining : Option Nat} {wc : WriteCall}
    (htarget : (g.shared.engine engine).target (.wake tx remaining) = some (tx', wc))
    (hsome : wc.value.isSome) : wc.mapName ≠ graphMap graphName "nodes" := by
  obtain ⟨⟨t, w⟩, hw, heq⟩ := map_eq_some_iff.mp htarget
  obtain ⟨ht, hwaiting⟩ := TxSystem.asleep_eq_some hw
  cases heq
  exact h.awake engine tx t w ht hwaiting hsome

/-! ## Creations under way -/

/-- What becomes of the creation with the answer to its write. -/
inductive Settled (g : GraphSystem) (engine tx : Nat) (r : Response) : GraphSystem → Prop where
  | same (h : (∀ result, r ≠ .wrote (.returned result)) ∨ g.pending engine tx = none) :
      Settled g engine tx r g
  | given_up : Settled g engine tx r (g.setPending engine tx none)
  | finished {p : Creation} (hp : g.pending engine tx = some p) :
      Settled g engine tx r { g.setPending engine tx none with returned := p.fetch :: g.returned }
  | goes_on {p : Creation} (hp : g.pending engine tx = some p) :
      Settled g engine tx r (g.setPending engine tx (some { p with todo := p.todo.tail }))

theorem settled (g : GraphSystem) (engine tx : Nat) (r : Response) :
    Settled g engine tx r (g.settle engine tx r) := by
  unfold settle
  split
  · split
    · rename_i hnone
      exact .same (.inr hnone)
    · exact .given_up
    · rename_i p _ hp
      split
      · exact .finished hp
      · exact .given_up
      · exact .goes_on hp
  · rename_i hother
    exact .same (.inl hother)

theorem pending_setPending (engine tx : Nat) (p : Option Creation) (engine' tx' : Nat) :
    (g.setPending engine tx p).pending engine' tx' =
      if engine' = engine ∧ tx' = tx then p else g.pending engine' tx' := by
  change Function.update g.pending engine _ engine' tx' = _
  by_cases he : engine' = engine
  · rw [he, update_self, update_apply]
    simp
  · rw [update_of_ne he, if_neg fun h => he h.1]

theorem Ordered.drop (h : Ordered graphName g) (engine tx : Nat) :
    Ordered graphName (g.setPending engine tx none) := by
  refine { h with started := fun engine' tx' p hp => ?_, apart := fun engine' tx' p e t p' hp hp' => ?_ }
  · rw [pending_setPending] at hp
    split_ifs at hp
    exact h.started engine' tx' p hp
  · rw [pending_setPending] at hp hp'
    split_ifs at hp hp'
    exact h.apart engine' tx' p e t p' hp hp'

theorem Ordered.finish (h : Ordered graphName g) (hp : g.pending engine tx = some p) : Ordered graphName
      { g.setPending engine tx none with returned := p.fetch :: g.returned } := by
  obtain ⟨_, hfetched, hnew⟩ := h.started engine tx p hp
  have hdrop := h.drop engine tx
  refine { hdrop with started := fun engine' tx' p' hp' => ?_, ended := ?_ }
  · obtain ⟨hsound, hmem, hnot⟩ := hdrop.started engine' tx' p' hp'
    refine ⟨hsound, hmem, fun hback => ?_⟩
    rcases mem_cons.mp hback with heq | hold
    · -- another creation has another number
      change (g.setPending engine tx none).pending engine' tx' = some p' at hp'
      rw [pending_setPending] at hp'
      split_ifs at hp' with hsame
      exact hsame (h.apart engine' tx' p' engine tx p hp' hp heq)
    · exact hnot hold
  · exact ⟨nodup_cons.mpr ⟨hnew, h.ended.1⟩, cons_subset.mpr ⟨hfetched, h.ended.2⟩⟩

theorem Creation.Sound.tail (h : p.Sound graphName) :
    Creation.Sound graphName { p with todo := p.todo.tail } where
  own key value hmem := h.own key value (mem_of_mem_tail hmem)
  once := by
    refine le_trans (List.Sublist.length_le ?_) h.once
    exact (tail_sublist p.todo).filter _

theorem Ordered.goOn (h : Ordered graphName g) (hp : g.pending engine tx = some p) :
    Ordered graphName (g.setPending engine tx (some { p with todo := p.todo.tail })) := by
  have hsame : ∀ engine' tx' p',
      (g.setPending engine tx (some { p with todo := p.todo.tail })).pending engine' tx' = some p' →
      ∃ old, g.pending engine' tx' = some old ∧ p'.fetch = old.fetch ∧
        (old.Sound graphName → p'.Sound graphName) := by
    intro engine' tx' p' hp'
    rw [pending_setPending] at hp'
    split_ifs at hp' with heq
    · cases hp'
      rw [heq.1, heq.2]
      exact ⟨p, hp, rfl, Creation.Sound.tail⟩
    · exact ⟨p', hp', rfl, id⟩
  refine { h with started := fun engine' tx' p' hp' => ?_, apart := fun e t q e' t' q' hq hq' heq => ?_ }
  · obtain ⟨old, hold, hfetch, hsound⟩ := hsame engine' tx' p' hp'
    obtain ⟨hs, hrest⟩ := h.started engine' tx' old hold
    rw [hfetch]
    exact ⟨hsound hs, hrest⟩
  · obtain ⟨old, hold, hfetch, _⟩ := hsame e t q hq
    obtain ⟨old', hold', hfetch', _⟩ := hsame e' t' q' hq'
    exact h.apart e t old e' t' old' hold hold' (by rw [← hfetch, ← hfetch', heq])

variable {r : Response} {g' : GraphSystem}

theorem Ordered.settled (h : Ordered graphName g) (hs : Settled g engine tx r g') : Ordered graphName g' := by
  cases hs with
  | same => exact h
  | given_up => exact h.drop engine tx
  | finished hp => exact h.finish hp
  | goes_on hp => exact h.goOn hp

theorem Settled.before (hs : Settled g engine tx r g') {engine' tx' : Nat}
    (hp : g'.pending engine' tx' = some p) :
    ∃ old, g.pending engine' tx' = some old ∧ p.todo ⊆ old.todo ∧
      (engine' = engine ∧ tx' = tx → p.todo = old.todo.tail ∨ ∀ result, r ≠ .wrote (.returned result)) := by
  cases hs with
  | same h =>
    refine ⟨p, hp, List.Subset.refl _, fun heq => ?_⟩
    rcases h with hother | hnone
    · exact .inr hother
    · rw [heq.1, heq.2, hnone] at hp
      cases hp
  | given_up =>
    rw [pending_setPending] at hp
    split_ifs at hp with heq
    exact ⟨p, hp, List.Subset.refl _, fun h => absurd h heq⟩
  | finished hp₀ =>
    change (g.setPending engine tx none).pending engine' tx' = some p at hp
    rw [pending_setPending] at hp
    split_ifs at hp with heq
    exact ⟨p, hp, List.Subset.refl _, fun h => absurd h heq⟩
  | goes_on hp₀ =>
    rw [pending_setPending] at hp
    split_ifs at hp with heq
    · cases hp
      rw [heq.1, heq.2]
      exact ⟨_, hp₀, tail_subset _, fun _ => Or.inl rfl⟩
    · exact ⟨p, hp, List.Subset.refl _, fun h => absurd h heq⟩

theorem Settled.shared (hs : Settled g engine tx r g') :
    g'.shared = g.shared := by
  cases hs <;> rfl

theorem Counted.advance (h : Counted graphName g)
    (hhead : ∀ tx' wc v, (g.shared.engine engine).target c = some (tx', wc) → wc.value = some v →
      wc.mapName = graphMap graphName "nodes" →
      ∃ p rest, g.pending engine tx = some p ∧
        p.todo = .put (graphMap graphName "nodes") wc.key v :: rest) :
    Counted graphName (g.advance engine tx c) := by
  have hput : PutsFresh graphName g engine c := by
    intro tx' wc htarget hsome hname
    obtain ⟨v, hv⟩ := isSome_iff_exists.mp hsome
    obtain ⟨p, rest, hp, htodo⟩ := hhead tx' wc v htarget hv hname
    have hmem : .put (graphMap graphName "nodes") wc.key v ∈ p.todo := by
      rw [htodo]
      exact mem_cons_self
    obtain ⟨hsound, hfetched, _⟩ := h.started engine tx p hp
    obtain ⟨hkind, hkey⟩ := hsound.own wc.key v hmem
    rw [hname]
    exact ⟨⟨p.fetch, hfetched, hkind, hkey⟩, h.unwritten engine tx p wc.key v hp hmem⟩
  have hs := GraphSystem.settled { g with shared := g.shared.step (.call engine c) } engine tx
    (g.shared.answer engine c)
  refine ⟨(h.toOrdered.call hput).settled hs, fun engine' tx' p key value hp hmem => ?_⟩
  obtain ⟨old, hold, hsub, hmine⟩ := hs.before hp
  rw [GraphSystem.advance, hs.shared]
  refine h.read_call hold (hsub hmem) fun tx'' v hevent => ?_
  -- the write that has been made would be this one, of the same creation
  obtain ⟨hanswer, wc, htarget, hname, hkey, hvalue⟩ := TxSystem.event_eq_wrote hevent
  obtain ⟨q, rest, hq, htodo⟩ := hhead tx'' wc v htarget hvalue hname
  have hq' : .put (graphMap graphName "nodes") wc.key v ∈ q.todo := by
    rw [htodo]
    exact mem_cons_self
  obtain ⟨hqsound, hqfetched, _⟩ := h.started engine tx q hq
  obtain ⟨holdsound, holdfetched, _⟩ := h.started engine' tx' old hold
  obtain ⟨hqkind, hqkey⟩ := hqsound.own wc.key v hq'
  obtain ⟨hkind, hkey'⟩ := holdsound.own key value (hsub hmem)
  have hid : q.fetch.id = old.fetch.id := by
    rw [← idKey_inj, ← hqkey, ← hkey', hkey]
  have hsame := h.distinct _ hqfetched _ holdfetched (hqkind.trans hkind.symm) hid
  obtain ⟨rfl, rfl⟩ := h.apart engine tx q engine' tx' old hq hold hsame
  rw [hq] at hold
  cases hold
  rcases hmine ⟨rfl, rfl⟩ with htail | hnone
  · -- a creation does not put its node twice
    have honce := hqsound.once
    rw [htail, htodo, tail_cons] at hmem
    rw [htodo, filter_cons_of_pos (by simp [Write.mapName]), length_cons] at honce
    have hin : .put (graphMap graphName "nodes") key value ∈
        rest.filter fun w => w.mapName = graphMap graphName "nodes" :=
      mem_filter.mpr ⟨hmem, by simp [Write.mapName]⟩
    have hpos := length_pos_of_mem hin
    omega
  · exact hnone _ hanswer

/-! ## New creations -/

theorem Counted.begins (h : Counted graphName g) {store : Nat} {gs gs' : GraphStore}
    (hstore : g.stores[store]?.join = some gs)
    (hkind : ∀ f ∈ g.fetched, f.kind = p.fetch.kind → f.store = store)
    (hfetch : p.fetch.store = store ∧ p.fetch.id = gs.next p.fetch.kind) (hsound : p.Sound graphName)
    (hname : gs'.graphName = gs.graphName) (hnext : ∀ kind, gs.next kind ≤ gs'.next kind)
    (hmore : p.fetch.id < gs'.next p.fetch.kind) :
    Counted graphName (g.begins store engine tx gs' p) := by
  have hlt : store < g.stores.length := by
    by_contra hge
    rw [getElem?_eq_none (Nat.le_of_not_lt hge)] at hstore
    cases hstore
  have hget : ∀ st, (g.stores.set store (some gs'))[st]?.join =
      if st = store then some gs' else g.stores[st]?.join := by
    intro st
    rw [getElem?_set]
    split_ifs with h₁ h₂ h₂
    · rfl
    · exact absurd h₁.symm h₂
    · exact absurd h₂.symm h₁
    · rfl
  -- the numbers drawn so far are below the counter
  have hnew : ∀ f ∈ g.fetched, f.kind = p.fetch.kind → f.id ≠ p.fetch.id := by
    intro f hf hk heq
    have hbelow := h.below f hf gs (by rw [hkind f hf hk]; exact hstore)
    rw [hk, ← hfetch.2, heq] at hbelow
    exact UInt64.lt_irrefl _ hbelow
  have hfresh : p.fetch ∉ g.fetched := fun hmem => hnew _ hmem rfl rfl
  have hold : ∀ engine' tx' q, (g.setPending engine tx (some p)).pending engine' tx' = some q →
      (engine' = engine ∧ tx' = tx ∧ q = p) ∨ g.pending engine' tx' = some q := by
    intro engine' tx' q hq
    rw [pending_setPending] at hq
    split_ifs at hq with heq
    · cases hq
      exact .inl ⟨heq.1, heq.2, rfl⟩
    · exact .inr hq
  refine ⟨⟨h.ready, ?_, h.awake, ?_, ?_, ?_, ?_, ?_, ?_, ?_⟩, ?_⟩
  · refine h.keys.mono fun n k stored hst => ⟨hst.1, fun hn => ?_⟩
    obtain ⟨f, hf, hrest⟩ := hst.2 hn
    exact ⟨f, mem_cons_of_mem _ hf, hrest⟩
  · intro gs'' hmem
    rcases mem_or_eq_of_mem_set hmem with hin | heq
    · exact h.names gs'' hin
    · cases heq
      exact hname.trans (h.names gs (mem_of_getElem? (join_eq_some_iff.mp hstore)))
  · intro f hf f' hf' hk hid
    rcases mem_cons.mp hf with rfl | hf <;> rcases mem_cons.mp hf' with rfl | hf'
    · rfl
    · exact absurd hid.symm (hnew f' hf' hk.symm)
    · exact absurd hid (hnew f hf hk)
    · exact h.distinct f hf f' hf' hk hid
  · intro f hf
    change f.store < (g.stores.set store (some gs')).length
    rw [length_set]
    rcases mem_cons.mp hf with rfl | hf
    · rw [hfetch.1]
      exact hlt
    · exact h.placed f hf
  · intro f hf gs'' hgs
    change (g.stores.set store (some gs'))[f.store]?.join = some gs'' at hgs
    rw [hget] at hgs
    rcases mem_cons.mp hf with rfl | hf
    · rw [if_pos hfetch.1] at hgs
      cases hgs
      exact hmore
    · split_ifs at hgs with hst
      · cases hgs
        exact UInt64.lt_of_lt_of_le (h.below f hf gs (by rw [hst]; exact hstore)) (hnext f.kind)
      · exact h.below f hf gs'' hgs
  · intro engine' tx' q hq
    rcases hold engine' tx' q hq with ⟨_, _, rfl⟩ | hq
    · exact ⟨hsound, mem_cons_self, fun hmem => hfresh (h.ended.2 hmem)⟩
    · obtain ⟨hs, hf, hr⟩ := h.started engine' tx' q hq
      exact ⟨hs, mem_cons_of_mem _ hf, hr⟩
  · intro e t q e' t' q' hq hq' heq
    rcases hold e t q hq with ⟨rfl, rfl, rfl⟩ | hin <;>
      rcases hold e' t' q' hq' with ⟨rfl, rfl, rfl⟩ | hin'
    · exact ⟨rfl, rfl⟩
    · exact absurd (heq ▸ (h.started e' t' q' hin').2.1) hfresh
    · exact absurd (heq ▸ (h.started e t q hin).2.1) hfresh
    · exact h.apart e t q e' t' q' hin hin' heq
  · exact ⟨h.ended.1, subset_cons_of_subset _ h.ended.2⟩
  · intro engine' tx' q key value hq hmem
    rcases hold engine' tx' q hq with ⟨_, _, rfl⟩ | hq
    · -- what stands in the map is under numbers drawn before
      obtain ⟨hnode, hkey⟩ := hsound.own key value hmem
      change g.shared.mvstore.read _ _ = none
      cases hread : g.shared.mvstore.read (graphMap graphName "nodes") key with
      | none => rfl
      | some stored =>
        obtain ⟨f, hf, hfk, hfid⟩ := (h.keys.stored _ _ _ hread).2 rfl
        rw [hkey, idKey_inj] at hfid
        exact absurd hfid.symm (hnew f hf (hfk.trans hnode.symm))
    · exact h.unwritten engine' tx' q key value hq hmem

/-! ## Other states of the store -/

theorem Counted.onStore (h : Counted graphName g) {mvstore : MVStore Stored}
    (hready : SharedSystem.Ready { g.shared with mvstore })
    (hkeys : Throughout (AtKeys (Drawn graphName g.fetched)) mvstore)
    (hread : ∀ n k, g.shared.mvstore.read n k = none → mvstore.read n k = none) :
    Counted graphName { g with shared := { g.shared with mvstore } } where
  toOrdered := { h.toOrdered with ready := hready, keys := hkeys }
  unwritten engine tx p key value hp hmem := hread _ _ (h.unwritten engine tx p key value hp hmem)

theorem Counted.crash (h : Counted graphName g) {kept : Nat} {s : MVStore Stored}
    (hopen : openAt g.shared.mvstore.file (g.shared.mvstore.wal.take kept) = .ok s) :
    Counted graphName { g with
      shared := .new s
      stores := g.stores.map fun _ => none
      pending := fun _ _ => none } := by
  have hkeys := h.keys.reopened hopen
  have hcounter : s.version ≤ s.nextCommitVersion := by rw [(openAt_versions hopen).1]
  have hgone : ∀ (st : Nat) (gs : GraphStore),
      (g.stores.map fun _ => (none : Option GraphStore))[st]?.join ≠ some gs := by
    intro st gs hgs
    obtain ⟨_, _, heq⟩ := mem_map.mp (mem_of_getElem? (join_eq_some_iff.mp hgs))
    cases heq
  refine ⟨⟨SharedSystem.ready_new hkeys.allVersioned hcounter, hkeys, ?_, ?_, h.distinct, ?_,
    ?_, ?_, ?_, h.ended⟩, ?_⟩
  · intro i tx t w ht
    cases ht
  · intro gs hgs
    obtain ⟨_, _, heq⟩ := mem_map.mp hgs
    cases heq
  · intro f hf
    rw [length_map]
    exact h.placed f hf
  · intro f hf gs hgs
    exact absurd hgs (hgone f.store gs)
  · intro engine tx p hp
    cases hp
  · intro e t p e' t' p' hp
    cases hp
  · intro engine tx p key value hp
    cases hp

end GraphSystem

section

variable [Codecs] {graphName : String} {gs : GraphStore}

theorem sound_createNode (hname : gs.graphName = graphName) (store : Nat) (node : Node)
    (result : H2Result Unit) : Creation.Sound graphName
      ⟨⟨.node, store, node.id⟩, gs.noteNodeId :: ((gs.saveNodeWrites node).toOption.getD []), result⟩ := by
  have hmaps : ∀ keys : List Key, ∀ w ∈ keys.map fun key => Write.put gs.idxLabelMap key (idKey node.id),
      w.mapName ≠ graphMap graphName "nodes" := by
    intro keys w hw
    obtain ⟨key, _, rfl⟩ := mem_map.mp hw
    simp [Write.mapName, GraphStore.idxLabelMap, hname]
  have hmeta : gs.noteNodeId.mapName ≠ graphMap graphName "nodes" := by
    simp [Write.mapName, GraphStore.noteNodeId, GraphStore.metaMap, hname]
  unfold GraphStore.saveNodeWrites
  cases Codecs.node.serialize node with
  | error e =>
    refine ⟨fun key value hmem => ?_, ?_⟩
    · exact absurd (congrArg Write.mapName (mem_singleton.mp hmem).symm) hmeta
    · exact le_trans (length_filter_le _ _) (le_refl 1)
  | ok bytes =>
    refine ⟨fun key value hmem => ?_, ?_⟩
    · rcases mem_cons.mp hmem with heq | hmem
      · exact absurd (congrArg Write.mapName heq.symm) hmeta
      · rcases mem_cons.mp hmem with heq | hmem
        · rw [Write.put.injEq] at heq
          exact ⟨rfl, heq.2.1⟩
        · exact absurd rfl (hmaps _ _ hmem)
    · -- the first write is the note of the counter, the third and later ones are entries
      have hrest : ((GraphStore.labelEntries node).map fun key =>
          Write.put gs.idxLabelMap key (idKey node.id)).filter
            (fun w => w.mapName = graphMap graphName "nodes") = [] :=
        filter_eq_nil_iff.mpr fun w hw => by simpa using hmaps _ w hw
      rw [filter_cons_of_neg (by simpa using hmeta)]
      change (List.filter _ (_ :: _)).length ≤ 1
      rw [filter_cons, hrest]
      split_ifs <;> simp

theorem sound_createEdge (hname : gs.graphName = graphName) (store : Nat) (edge : Edge)
    (result : H2Result Unit) : Creation.Sound graphName
      ⟨⟨.edge, store, edge.id⟩, gs.noteEdgeId :: ((gs.saveEdgeWrites edge).toOption.getD []), result⟩ := by
  have hmaps : ∀ w ∈ gs.noteEdgeId :: ((gs.saveEdgeWrites edge).toOption.getD []),
      w.mapName ≠ graphMap graphName "nodes" := by
    intro w hw
    unfold GraphStore.saveEdgeWrites at hw
    cases hs : Codecs.edge.serialize edge with
    | error e =>
      rw [hs] at hw
      cases mem_singleton.mp hw
      simp [Write.mapName, GraphStore.noteEdgeId, GraphStore.metaMap, hname]
    | ok bytes =>
      rw [hs] at hw
      simp only [Except.toOption, getD_some, mem_cons, not_mem_nil, or_false] at hw
      rcases hw with rfl | rfl | rfl | rfl <;>
        simp [Write.mapName, GraphStore.noteEdgeId, GraphStore.metaMap, GraphStore.edgesMap,
          GraphStore.adjOutMap, GraphStore.adjInMap, hname]
  refine ⟨fun key value hmem => absurd rfl (hmaps _ hmem), ?_⟩
  rw [filter_eq_nil_iff.mpr fun w hw => by simpa using hmaps w hw]
  exact zero_le 1

namespace GraphSystem

variable {g : GraphSystem}

attribute [local simp] GraphSystem.step

section

variable (h : Counted graphName g)

include h

theorem Counted.openStore :
    Counted graphName (step graphName g .openStore) := by
  have hread := read_openMap g.shared.mvstore (graphMap graphName "meta")
  have hmaps := onlyMaps_openMap g.shared.mvstore (graphMap graphName "meta")
  have hedited := Edited.openMap g.shared.mvstore (graphMap graphName "meta")
  have hopened : Counted graphName { g with shared := { g.shared with
      mvstore := (g.shared.mvstore.openMap (graphMap graphName "meta")).2 } } := by
    refine h.onStore ?_ ?_ ?_
    · refine h.ready.onStore (h.keys.allVersioned.congr hread) ?_ fun n id hid => hedited.find hid
      rw [hmaps]
      exact (h.ready.orderly 0).counter
    · refine h.keys.edited_unlogged hedited (by rw [hmaps]) fun n k stored hst => ?_
      rw [hread] at hst
      exact h.keys.stored n k stored hst
    · intro n k hnone
      rw [hread]
      exact hnone
  refine ⟨{ hopened.toOrdered with names := ?_, placed := ?_, below := ?_ }, hopened.unwritten⟩
  · intro gs hgs
    rcases mem_append.mp hgs with hold | hnew
    · exact h.names gs hold
    · cases mem_singleton.mp hnew
      rfl
  · intro f hf
    change f.store < (g.stores ++ _).length
    rw [length_append]
    exact Nat.lt_add_right _ (h.placed f hf)
  · intro f hf gs hgs
    change (g.stores ++ _)[f.store]?.join = some gs at hgs
    rw [getElem?_append_left (h.placed f hf)] at hgs
    exact h.below f hf gs hgs

theorem Counted.checkpoint (io : WriteOutcome) :
    Counted graphName (step graphName g (.checkpoint io)) := by
  have hread := read_checkpoint g.shared.mvstore io
  refine h.onStore ?_ (h.keys.checkpoint io) fun n k hnone => ?_
  · refine h.ready.onStore (h.keys.allVersioned.congr hread)
      (counter_checkpoint (h.ready.orderly 0).counter io) fun n id hid => ?_
    rw [find_checkpoint]
    exact hid
  · rw [hread]
    exact hnone

theorem Counted.vacuum (engine : Nat) (name : String) :
    Counted graphName (step graphName g (.shared (.vacuumMap engine name))) := by
  have hvac := TransactionStore.vacuumMap_vacuumed (g.shared.engine engine).store name
  refine h.onStore (h.ready.vacuum engine name) ?_ fun n k hnone => ?_
  · exact @Throughout.vacuumed _ (g.shared.engine engine).store _ _ h.keys hvac
  · refine (hvac.read n k).trans ?_
    change (if n = name then (g.shared.mvstore.read n k).bind _ else g.shared.mvstore.read n k) = none
    rw [hnone]
    exact ite_self _

variable {properties : Properties}

theorem Counted.createNode {store engine tx : Nat} {labels : List String}
    (hgood : OneCounter g (.createNode store engine tx labels properties)) :
    Counted graphName (step graphName g (.createNode store engine tx labels properties)) := by
  simp only [step]
  split
  · rename_i gs hstore hpending
    obtain ⟨hone, hroom⟩ := hgood
    have hnext := hroom gs hstore
    have hname := h.names gs (mem_of_getElem? (join_eq_some_iff.mp hstore))
    have hmore := lt_add_one_of_room hnext
    refine h.begins hstore (fun f hf hk => hone f hf hk) ⟨rfl, rfl⟩
      (sound_createNode hname store ⟨gs.nextNodeId, labels, properties⟩ _) rfl (fun kind => ?_) hmore
    cases kind with
    | node => exact UInt64.le_of_lt hmore
    | edge => exact UInt64.le_refl _
  · exact h

theorem Counted.createEdge {store engine tx : Nat} {edgeType : String} {srcId dstId : UInt64}
    (hgood : OneCounter g (.createEdge store engine tx edgeType srcId dstId properties)) :
    Counted graphName (step graphName g (.createEdge store engine tx edgeType srcId dstId properties)) := by
  simp only [step]
  split
  · rename_i gs hstore hpending
    have hread := (h.get engine tx gs.nodesMap (idKey srcId)).get engine tx gs.nodesMap (idKey dstId)
    split_ifs
    · obtain ⟨hone, hroom⟩ := hgood
      have hnext := hroom gs hstore
      have hname := h.names gs (mem_of_getElem? (join_eq_some_iff.mp hstore))
      have hmore := lt_add_one_of_room hnext
      refine hread.begins hstore (fun f hf hk => hone f hf hk) ⟨rfl, rfl⟩
        (sound_createEdge hname store ⟨gs.nextEdgeId, edgeType, srcId, dstId, properties⟩ _) rfl
        (fun kind => ?_) hmore
      cases kind with
      | node => exact UInt64.le_refl _
      | edge => exact UInt64.le_of_lt hmore
    · exact hread
  · exact h

theorem Counted.proceed (engine tx : Nat) (remaining : Option Nat) :
    Counted graphName (step graphName g (.proceed engine tx remaining)) := by
  simp only [step]
  split
  · rename_i map key value hhead
    obtain ⟨p, hp, htodo⟩ := bind_eq_some_iff.mp hhead
    refine h.advance fun tx' wc v htarget hvalue hname => ?_
    cases htarget
    cases hvalue
    change map = _ at hname
    refine ⟨p, p.todo.tail, hp, ?_⟩
    rw [← hname]
    exact (cons_head?_tail htodo).symm
  · exact h

theorem Counted.sharedCall (engine : Nat) (c : Call) :
    Counted graphName (step graphName g (.shared (.call engine c))) := by
  simp only [step]
  split_ifs with hallows
  · cases c with
    | begin => exact h.call fun _ _ htarget => by cases htarget
    | get tx n k => exact h.get engine tx n k
    | put tx map key value remaining =>
      simp only [allows, Bool.and_eq_true, decide_eq_true_eq, ne_eq] at hallows
      refine h.call fun tx' wc htarget _ => ?_
      cases htarget
      simpa using hallows.1.2
    | remove tx map key remaining =>
      refine h.call fun tx' wc htarget hsome => ?_
      cases htarget
      cases hsome
    | wake tx remaining =>
      refine h.advance fun tx' wc v htarget hvalue hname => ?_
      exact absurd hname (h.woken htarget (by rw [hvalue]; rfl))
    | timeOut tx remaining => exact h.advance fun _ _ _ htarget => by cases htarget
    | commit tx sync => exact h.call fun _ _ htarget => by cases htarget
    | rollback tx => exact h.call fun _ _ htarget => by cases htarget
  · exact h

theorem Counted.step (a : GraphAction) (hgood : OneCounter g a) :
    Counted graphName (GraphSystem.step graphName g a) := by
  cases a with
  | openStore => exact h.openStore
  | createNode => exact h.createNode hgood
  | createEdge => exact h.createEdge hgood
  | proceed engine tx remaining => exact h.proceed engine tx remaining
  | shared a =>
    cases a with
    | call engine c => exact h.sharedCall engine c
    | vacuumMap engine name => exact h.vacuum engine name
  | checkpoint io => exact h.checkpoint io
  | crash kept =>
    simp only [GraphSystem.step]
    split
    · rename_i hopen
      exact h.crash hopen
    · exact h

end

/-- As long as all numbers of a kind are drawn from one object, whose counter does not overflow, no
number is returned twice and no node is put over another. -/
theorem ids_unique (graphName : String) (actions : List GraphAction)
    (hgood : Meets (GraphSystem.step graphName) OneCounter (new MVStore.new) actions) :
    Unique graphName (runs (GraphSystem.step graphName) (new MVStore.new) actions) :=
  (invariant_runs (fun _ a h ha => h.step a ha) counted_new hgood).unique

end GraphSystem

end

namespace GraphSystem

attribute [local instance] plainCodecs

/-- One engine begins a transaction, creates a node through an object and commits. -/
def createsNode (store engine : Nat) : List GraphAction :=
  [.shared (.call engine .begin), .createNode store engine 1 [] ∅, .proceed engine 1 none,
    .proceed engine 1 none, .shared (.call engine (.commit 1 (.ok ())))]

def oneObject : List GraphAction := .openStore :: (createsNode 0 0 ++ createsNode 0 1)

theorem ids_unique_oneObject :
    Unique "social" (runs (GraphSystem.step "social") (new MVStore.new) oneObject) := by
  refine ids_unique "social" oneObject ?_
  refine ⟨trivial, trivial, ⟨by decide +kernel, fun gs h => ?_⟩, trivial, trivial, trivial, trivial,
    ⟨by decide +kernel, fun gs h => ?_⟩, trivial, trivial, trivial, trivial⟩
  · obtain rfl := Option.some.inj (h.symm.trans (by decide +kernel :
      _ = some ⟨"social", 1, 1⟩))
    decide
  · obtain rfl := Option.some.inj (h.symm.trans (by decide +kernel :
      _ = some ⟨"social", 2, 1⟩))
    decide

def twoObjects : List GraphAction := .openStore :: (createsNode 0 0 ++ .openStore :: createsNode 1 1)

theorem twoObjects_return_one_twice :
    ¬ Unique "social" (runs (GraphSystem.step "social") (new MVStore.new) twoObjects) := by
  intro h
  have hids := h.ids .node
  revert hids
  decide +kernel

end GraphSystem

end H2Database.Graph
