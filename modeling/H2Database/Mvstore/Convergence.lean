import H2Database.Mvstore.Replication
import H2Database.Mvstore.Tracking

/-!
# A primary and what it delivers

The primary's store with its change sink, as a step function over mutations of maps, commits and
checkpoints.  A commit empties the sink and delivers its own records; a checkpoint empties the sink and
delivers what was in it.  `Converges` says that nothing is lost between the two, and the condition is about
what the sink holds when it is emptied without a delivery.
-/

namespace H2Database.Mvstore

open Reasoning List Function

variable {V : Type}

/-- A recorded change, marked when it is an uncommitted value (or the undoing of one) that a transaction
has put into a map; such a change reaches the standby with the commit. -/
structure Recorded (V : Type) where
  change : ReplicationChange V
  transactional : Bool
  deriving DecidableEq, Repr

structure Delivery (V : Type) where
  version : Nat
  changes : List (Recorded V)
  deriving DecidableEq, Repr

/-- `made` lists the changes that are for the standby, as they are made; `uncommitted` lists the keys that
transactions have written and not committed since. -/
structure Primary (V : Type) where
  store : MVStore V
  sink : List (Recorded V)
  delivered : List (Delivery V)
  made : List (ReplicationChange V)
  uncommitted : List (String × Key)

inductive PrimaryEvent (V : Type) where
  | put (mapName : String) (key : Key) (value : V)
  | remove (mapName : String) (key : Key)
  | clear (mapName : String)
  | write (mapName : String) (key : Key) (value : Option V)
  | commit (records : List (WalRecord V)) (sync : H2Result Unit)
  | checkpoint (io : WriteOutcome)

def ReplicationChange.ofWal (c : WalChange V) : ReplicationChange V :=
  match c.value with
  | some value => .put c.mapName c.key value
  | none => .remove c.mapName c.key

namespace Primary

def start (store : MVStore V) : Primary V := ⟨store, [], [], [], []⟩

/-- `put`, `remove` or `clear` of a map opened by its name: recorded in the sink, then carried out. -/
def mutate (p : Primary V) (c : ReplicationChange V) : Primary V :=
  { p with
    store := p.store.applyReplicated c
    sink := p.sink ++ [⟨c, false⟩]
    made := p.made ++ [c] }

def write (p : Primary V) (c : ReplicationChange V) : Primary V :=
  { p with
    store := p.store.applyReplicated c
    sink := p.sink ++ [⟨c, true⟩]
    uncommitted := (c.mapName, c.key) :: p.uncommitted }

def changesOf (records : List (WalRecord V)) : List (ReplicationChange V) :=
  (records.flatMap WalRecord.changes).map .ofWal

/-- The drain of the commit queue in `commit_with`: the log is synced, the records are applied, the sink is
drained and what was in it forgotten, and the records are delivered one by one. -/
def commit (p : Primary V) (records : List (WalRecord V)) (sync : H2Result Unit) : Primary V :=
  match sync with
  | .error _ => p
  | .ok () =>
    { store := records.foldl (fun s record => (s.commitRecord record (.ok ())).2) p.store
      sink := []
      delivered := p.delivered ++ records.map fun record =>
        ⟨record.commitVersion, record.changes.map fun c => ⟨.ofWal c, false⟩⟩
      made := p.made ++ changesOf records
      uncommitted := p.uncommitted.filter fun nk =>
        (changesOf records).all fun c => decide ((c.mapName, c.key) ≠ nk) }

/-- `checkpoint`: the sink is drained before the write, and its changes are delivered at the end if the
write and the cut of the log have succeeded. -/
def checkpoint (p : Primary V) (io : WriteOutcome) : Primary V :=
  match p.store.checkpoint io with
  | (.error _, store) => { p with store := store, sink := [] }
  | (.ok version, store) =>
    { p with store := store, sink := [], delivered := p.delivered ++ [⟨version, p.sink⟩] }

def step (p : Primary V) : PrimaryEvent V → Primary V
  | .put mapName key value => p.mutate (.put mapName key value)
  | .remove mapName key => p.mutate (.remove mapName key)
  | .clear mapName => p.mutate (.clear mapName)
  | .write mapName key (some value) => p.write (.put mapName key value)
  | .write mapName key none => p.write (.remove mapName key)
  | .commit records sync => p.commit records sync
  | .checkpoint io => p.checkpoint io

/-- A standby that started equal to the primary and has applied what was delivered. -/
def replica (start : MVStore V) (delivered : List (Delivery V)) : MVStore V :=
  delivered.foldl (fun s d => (s.applyCommitRecord ⟨d.version, d.changes.map Recorded.change, 0⟩ .done).2)
    start

/-- Every change for the standby is delivered once and in order, or is still in the sink; and once the
sink has been delivered, the standby has the bindings of the primary but for what no transaction has
committed yet. -/
structure Converges (start : MVStore V) (p : Primary V) : Prop where
  once : ((p.delivered.flatMap Delivery.changes ++ p.sink).filter fun r => !r.transactional).map
    Recorded.change = p.made
  converged : p.sink = [] → ∀ n k, (n, k) ∉ p.uncommitted →
    (replica start p.delivered).read n k = p.store.read n k

def SinkIdle (p : Primary V) : Prop := ∀ r ∈ p.sink, r.transactional = true

/-- Where the sink is emptied without a delivery, it holds nothing for the standby: when a commit goes
through, and when a checkpoint fails. -/
def SinkKept (p : Primary V) : PrimaryEvent V → Prop
  | .commit _ (.ok ()) => p.SinkIdle
  | .checkpoint io => io.publish = .ok () ∧ io.clearWal = .ok () ∨ p.SinkIdle
  | _ => True

end Primary

/-! ## Changes, key by key -/

def laidOver (f : String → Key → Option V) (c : ReplicationChange V) : String → Key → Option V :=
  fun n k => if n = c.mapName ∧ (c.isClear = true ∨ k = c.key) then
    (if c.isClear then none else c.value) else f n k

namespace MVStore

theorem read_applyReplicated (s : MVStore V) (c : ReplicationChange V) :
    (s.applyReplicated c).read = laidOver s.read c := by
  funext n k
  have hfind := find_openMap_self s c.mapName
  obtain ⟨m, hm⟩ := Registry.deref_of_find hfind
  change binding (contents ((s.openMap c.mapName).2.maps.modify (s.openMap c.mapName).1 _)) n k = _
  rw [contents_modify hfind, binding]
  unfold laidOver
  by_cases hn : n = c.mapName
  · subst hn
    have hget : m.get k = s.read c.mapName k := by
      rw [← mapGet_openMap, hm, Option.bind_some]
    rw [update_self, Registry.get_of_find hfind, hm, Option.map_some, Option.bind_some]
    cases hclear : c.isClear with
    | true =>
      simp only [if_true, MVMap.clear_get, true_or, and_self]
    | false =>
      simp only [Bool.false_eq_true, if_false, false_or, true_and, applyChange_get,
        update_apply, hget]
  · rw [update_of_ne hn, if_neg fun h => hn h.1]
    change (s.openMap c.mapName).2.read n k = s.read n k
    rw [read_openMap]

theorem read_applyReplicateds (cs : List (ReplicationChange V)) (s : MVStore V) :
    (cs.foldl applyReplicated s).read = cs.foldl laidOver s.read := by
  induction cs generalizing s with
  | nil => rfl
  | cons c cs ih => rw [foldl_cons, ih, read_applyReplicated, foldl_cons]

theorem read_applyCommitRecord (s : MVStore V) (record : ReplicationCommitRecord V) :
    (s.applyCommitRecord record .done).2.read = record.changes.foldl laidOver s.read := by
  rw [← read_applyReplicateds]
  have hread := read_checkpoint
    ((record.changes.foldl applyReplicated s).setVersion (record.commitVersion - 1)) .done
  unfold applyCommitRecord
  simp only
  split
  · rename_i heq
    rw [heq] at hread
    exact hread
  · rename_i heq
    rw [heq] at hread
    exact hread

theorem applyWalChange_eq (s : MVStore V) (c : WalChange V) :
    s.applyWalChange c = s.applyReplicated (.ofWal c) := by
  unfold applyWalChange applyReplicated ReplicationChange.ofWal
  cases c.value <;> rfl

theorem read_commitRecords (records : List (WalRecord V)) (s : MVStore V) :
    (records.foldl (fun s record => (s.commitRecord record (.ok ())).2) s).read =
      (Primary.changesOf records).foldl laidOver s.read := by
  induction records generalizing s with
  | nil => rfl
  | cons record records ih =>
    have hone : (s.commitRecord record (.ok ())).2.read =
        (record.changes.map ReplicationChange.ofWal).foldl laidOver s.read := by
      rw [← read_applyReplicateds, foldl_map]
      have hfold : (fun (s : MVStore V) c => s.applyReplicated (.ofWal c)) = applyWalChange := by
        funext s c
        exact (applyWalChange_eq s c).symm
      rw [hfold]
      -- the log has grown, which is not read
      have hwal : ∀ (cs : List (WalChange V)) (s : MVStore V) (wal : List (WalRecord V)),
          (cs.foldl applyWalChange { s with wal := wal }).read = (cs.foldl applyWalChange s).read := by
        intro cs s wal
        funext n k
        rw [read_applyWalChanges, read_applyWalChanges]
        rfl
      exact hwal record.changes s _
    rw [foldl_cons, ih, hone]
    unfold Primary.changesOf
    rw [flatMap_cons, map_append, foldl_append]

end MVStore

variable {n : String}

theorem laidOver_congr {k : Key} (cs : List (ReplicationChange V))
    {f g : String → Key → Option V} (h : f n k = g n k) :
    cs.foldl laidOver f n k = cs.foldl laidOver g n k := by
  induction cs generalizing f g with
  | nil => exact h
  | cons c cs ih =>
    refine ih ?_
    unfold laidOver
    split_ifs <;> first | rfl | exact h

variable {cs : List (ReplicationChange V)}

theorem laidOver_of_mem {k : Key}
    {c : ReplicationChange V} (hc : c ∈ cs) (hn : c.mapName = n) (hk : c.key = k)
    (f g : String → Key → Option V) : cs.foldl laidOver f n k = cs.foldl laidOver g n k := by
  obtain ⟨before, after, rfl⟩ := append_of_mem hc
  simp only [foldl_append, foldl_cons]
  refine laidOver_congr after ?_
  exact (if_pos ⟨hn.symm, Or.inr hk.symm⟩).trans (if_pos ⟨hn.symm, Or.inr hk.symm⟩).symm

theorem laidOver_of_ne {k : Key}
    (h : ∀ c ∈ cs, c.isClear = false ∧ (c.mapName, c.key) ≠ (n, k)) (f : String → Key → Option V) :
    cs.foldl laidOver f n k = f n k := by
  induction cs generalizing f with
  | nil => rfl
  | cons c cs ih =>
    rw [foldl_cons, ih fun d hd => h d (mem_cons_of_mem _ hd)]
    obtain ⟨hclear, hne⟩ := h c mem_cons_self
    unfold laidOver
    rw [if_neg]
    rintro ⟨hn, hor⟩
    rw [hclear] at hor
    exact hne (Prod.ext hn.symm (hor.resolve_left Bool.false_ne_true).symm)

namespace Primary

/-- The standby is behind by what the sink holds, and by nothing else. -/
structure Sound (s₀ : MVStore V) (p : Primary V) : Prop where
  once : ((p.delivered.flatMap Delivery.changes ++ p.sink).filter fun r => !r.transactional).map
    Recorded.change = p.made
  lag : ∀ n k, (n, k) ∉ p.uncommitted →
    p.store.read n k = (p.sink.map Recorded.change).foldl laidOver (replica s₀ p.delivered).read n k
  written : ∀ r ∈ p.sink, r.transactional = true →
    r.change.isClear = false ∧ (r.change.mapName, r.change.key) ∈ p.uncommitted

variable {s₀ : MVStore V} {p : Primary V}

theorem sound_start (store : MVStore V) : Sound store (start store) := by
  refine ⟨rfl, fun _ _ _ => rfl, fun r hr => ?_⟩
  cases hr

theorem Sound.converges (hs : Sound s₀ p) : Converges s₀ p := by
  refine ⟨hs.once, fun hsink n k hnk => ?_⟩
  have hlag := hs.lag n k hnk
  rw [hsink] at hlag
  exact hlag.symm

theorem Sound.mutate (hs : Sound s₀ p) (c : ReplicationChange V) : Sound s₀ (p.mutate c) := by
  refine ⟨?_, fun n k hnk => ?_, fun r hr htr => ?_⟩
  · change (((p.delivered.flatMap Delivery.changes ++ (p.sink ++ [(⟨c, false⟩ : Recorded V)])).filter
      _).map _) = _
    rw [← append_assoc, filter_append, map_append, hs.once]
    rfl
  · change (p.store.applyReplicated c).read n k = _
    simp only [Primary.mutate, MVStore.read_applyReplicated, map_append, foldl_append,
      map_cons, map_nil]
    exact laidOver_congr [c] (hs.lag n k hnk)
  · rcases mem_append.mp hr with hold | hnew
    · exact hs.written r hold htr
    · rw [mem_singleton.mp hnew] at htr
      cases htr

theorem Sound.write (hs : Sound s₀ p) {c : ReplicationChange V} (hc : c.isClear = false) :
    Sound s₀ (p.write c) := by
  refine ⟨?_, fun n k hnk => ?_, fun r hr htr => ?_⟩
  · change (((p.delivered.flatMap Delivery.changes ++ (p.sink ++ [(⟨c, true⟩ : Recorded V)])).filter
      _).map _) = _
    rw [← append_assoc, filter_append, map_append, hs.once]
    exact append_nil _
  · change (p.store.applyReplicated c).read n k = _
    simp only [Primary.write, MVStore.read_applyReplicated, map_append, foldl_append,
      map_cons, map_nil]
    exact laidOver_congr [c] (hs.lag n k fun hmem => hnk (mem_cons_of_mem _ hmem))
  · rcases mem_append.mp hr with hold | hnew
    · exact (hs.written r hold htr).imp_right (mem_cons_of_mem _)
    · rw [mem_singleton.mp hnew]
      exact ⟨hc, mem_cons_self⟩

theorem Sound.read_eq (hs : Sound s₀ p) (hidle : p.SinkIdle) {n : String} {k : Key}
    (hnk : (n, k) ∉ p.uncommitted) : p.store.read n k = (replica s₀ p.delivered).read n k := by
  rw [hs.lag n k hnk]
  refine laidOver_of_ne (fun c hc => ?_) _
  obtain ⟨r, hr, rfl⟩ := mem_map.mp hc
  obtain ⟨hclear, hmem⟩ := hs.written r hr (hidle r hr)
  refine ⟨hclear, fun heq => hnk ?_⟩
  rwa [← heq]

theorem filter_idle (hidle : p.SinkIdle) : (p.sink.filter fun r => !r.transactional) = [] := by
  refine filter_eq_nil_iff.mpr fun r hr => ?_
  rw [hidle r hr]
  exact Bool.false_ne_true

theorem read_replica_append (start : MVStore V) (delivered new : List (Delivery V)) :
    (replica start (delivered ++ new)).read =
      ((new.flatMap Delivery.changes).map Recorded.change).foldl laidOver (replica start delivered).read := by
  unfold replica
  rw [foldl_append]
  generalize delivered.foldl _ start = s
  induction new generalizing s with
  | nil => rfl
  | cons d new ih =>
    rw [foldl_cons, ih, MVStore.read_applyCommitRecord, flatMap_cons, map_append,
      foldl_append]

def deliveriesOf (records : List (WalRecord V)) : List (Delivery V) :=
  records.map fun record => ⟨record.commitVersion, record.changes.map fun c => ⟨.ofWal c, false⟩⟩

theorem changes_deliveriesOf (records : List (WalRecord V)) :
    ((deliveriesOf records).flatMap Delivery.changes) =
      (changesOf records).map fun c => (⟨c, false⟩ : Recorded V) := by
  unfold deliveriesOf changesOf
  induction records with
  | nil => rfl
  | cons record records ih =>
    simp only [map_cons, flatMap_cons, map_append, ih, map_map]
    rfl

theorem once_deliveriesOf (records : List (WalRecord V)) :
    (((deliveriesOf records).flatMap Delivery.changes).filter fun r => !r.transactional).map
      Recorded.change = changesOf records := by
  rw [changes_deliveriesOf, filter_eq_self.mpr, map_map]
  · exact map_id _
  · intro r hr
    obtain ⟨c, -, rfl⟩ := mem_map.mp hr
    rfl

theorem Sound.commit (hs : Sound s₀ p) (hidle : p.SinkIdle) (records : List (WalRecord V)) :
    Sound s₀ (p.commit records (.ok ())) := by
  refine ⟨?_, fun n k hnk => ?_, fun r hr => by cases hr⟩
  · change (((p.delivered ++ deliveriesOf records).flatMap Delivery.changes ++ []).filter _).map _ =
      p.made ++ changesOf records
    rw [append_nil, flatMap_append, filter_append, map_append,
      once_deliveriesOf, ← hs.once, filter_append, filter_idle hidle, append_nil]
  · change (records.foldl (fun s record => (s.commitRecord record (.ok ())).2) p.store).read n k =
      (replica s₀ (p.delivered ++ deliveriesOf records)).read n k
    rw [MVStore.read_commitRecords, read_replica_append, changes_deliveriesOf, map_map]
    change _ = ((changesOf records).map id).foldl laidOver _ n k
    rw [map_id]
    by_cases hwritten : ∃ c ∈ changesOf records, (c.mapName, c.key) = (n, k)
    · obtain ⟨c, hc, heq⟩ := hwritten
      exact laidOver_of_mem hc (congrArg Prod.fst heq) (congrArg Prod.snd heq) _ _
    · refine laidOver_congr _ (hs.read_eq hidle fun hmem => hnk ?_)
      refine mem_filter.mpr ⟨hmem, all_eq_true.mpr fun c hc => decide_eq_true ?_⟩
      exact fun heq => hwritten ⟨c, hc, heq⟩

theorem Sound.checkpoint (hs : Sound s₀ p) {io : WriteOutcome}
    (hkept : io.publish = .ok () ∧ io.clearWal = .ok () ∨ p.SinkIdle) :
    Sound s₀ (p.checkpoint io) := by
  have hread := p.store.read_checkpoint io
  unfold Primary.checkpoint
  cases hres : p.store.checkpoint io with
  | mk res store =>
    rw [hres] at hread
    cases res with
    | error e =>
      have hidle : p.SinkIdle := by
        refine hkept.resolve_left fun hok => ?_
        simp only [MVStore.checkpoint, hok.1, hok.2, Prod.mk.injEq] at hres
        cases hres.1
      refine ⟨?_, fun n k hnk => ?_, fun r hr => by cases hr⟩
      · have honce := hs.once
        rw [filter_append, filter_idle hidle] at honce
        rw [filter_append]
        exact honce
      · change store.read n k = _
        rw [hread]
        exact hs.read_eq hidle hnk
    | ok version =>
      refine ⟨?_, fun n k hnk => ?_, fun r hr => by cases hr⟩
      · change (((p.delivered ++ [(⟨version, p.sink⟩ : Delivery V)]).flatMap Delivery.changes ++
          []).filter _).map _ = _
        rw [append_nil, flatMap_append, flatMap_singleton]
        exact hs.once
      · change store.read n k = (replica s₀ (p.delivered ++ [⟨version, p.sink⟩])).read n k
        rw [hread, read_replica_append, flatMap_singleton]
        exact hs.lag n k hnk

theorem Sound.step (hs : Sound s₀ p) {e : PrimaryEvent V} (hkept : p.SinkKept e) :
    Sound s₀ (p.step e) := by
  cases e with
  | put n k v => exact hs.mutate _
  | remove n k => exact hs.mutate _
  | clear n => exact hs.mutate _
  | write n k value =>
    cases value with
    | some v => exact hs.write rfl
    | none => exact hs.write rfl
  | commit records sync =>
    cases sync with
    | error e => exact hs
    | ok _ => exact hs.commit hkept records
  | checkpoint io => exact hs.checkpoint hkept

theorem Sound.sinkIdle (hs : Sound s₀ p) {new : List (Recorded V)} {cs : List (ReplicationChange V)}
    (hnew : (new.filter fun r => !r.transactional).map Recorded.change = cs)
    (h : ((p.delivered.flatMap Delivery.changes ++ new).filter fun r => !r.transactional).map
      Recorded.change = p.made ++ cs) : p.SinkIdle := by
  rw [filter_append, map_append, hnew, ← hs.once, filter_append, map_append] at h
  have hlen := congrArg List.length (append_cancel_right h)
  rw [length_append, length_map, length_map] at hlen
  have hnil : (p.sink.filter fun r => !r.transactional) = [] := length_eq_zero_iff.mp (by omega)
  intro r hr
  have := filter_eq_nil_iff.mp hnil r hr
  simpa using this

theorem Sound.sinkKept (hs : Sound s₀ p) {e : PrimaryEvent V} (h : Converges s₀ (p.step e)) :
    p.SinkKept e := by
  cases e with
  | put n k v => trivial
  | remove n k => trivial
  | clear n => trivial
  | write n k value => trivial
  | commit records sync =>
    cases sync with
    | error e => trivial
    | ok _ =>
      refine hs.sinkIdle (once_deliveriesOf records) ?_
      have honce := h.once
      change (((p.delivered ++ deliveriesOf records).flatMap Delivery.changes ++ []).filter _).map _ =
        p.made ++ changesOf records at honce
      rwa [append_nil, flatMap_append] at honce
  | checkpoint io =>
    have hlost : ∀ e store, p.store.checkpoint io = (.error e, store) → p.SinkIdle := by
      intro e store hres
      have honce := h.once
      simp only [Primary.step, Primary.checkpoint, hres] at honce
      exact hs.sinkIdle (map_nil) (honce.trans (append_nil _).symm)
    unfold SinkKept
    cases hpublish : io.publish with
    | error e => exact .inr (hlost e p.store.unpublished (by simp only [MVStore.checkpoint, hpublish]))
    | ok _ =>
      cases hclear : io.clearWal with
      | error e =>
        exact .inr (hlost e p.store.published (by simp only [MVStore.checkpoint, hpublish, hclear]))
      | ok _ => exact .inl ⟨hpublish, hclear⟩

/-- **The deliveries converge in every state of a run exactly when the sink never holds a change for the
standby at a commit that goes through or at a checkpoint that fails.** -/
theorem converges_iff_sinkKept (s₀ : MVStore V) (events : List (PrimaryEvent V)) :
    (∀ before, before <+: events → Converges s₀ (runs Primary.step (start s₀) before)) ↔
      Meets Primary.step SinkKept (start s₀) events :=
  forall_prefix_iff_meets (fun _ _ hs => hs.step) (fun _ hs => hs.converges)
    (fun _ _ hs h => hs.sinkKept h) (sound_start s₀) events

/-- A catalog entry is put, and a transaction commits before the next checkpoint. -/
def commitOverSink : List (PrimaryEvent (List UInt8)) :=
  [.put "_catalog" [1] [9], .commit [⟨1, 1, [⟨"items", [2], some [7]⟩], 0⟩] (.ok ())]

/-- The standby never hears of the entry. -/
theorem commitOverSink_not_converges :
    ¬ Converges .new (runs Primary.step (start .new) commitOverSink) := by
  intro h
  have hread := h.converged rfl "_catalog" [1] (by decide)
  revert hread
  decide +kernel

end Primary

end H2Database.Mvstore
