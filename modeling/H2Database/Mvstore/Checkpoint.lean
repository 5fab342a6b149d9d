import H2Database.Mvstore.Journaling
import H2Database.Reasoning.Run

/-!
# Writing and reading images

The steps that write the file (`checkpoint`, `reclaim_checkpoint_history`, `compact`) and the one that
reads it (`open`), each with the image it leaves and the invariant `Journaled` it establishes.
-/

namespace H2Database.Mvstore.MVStore

open Reasoning Option

variable {V : Type}

theorem lookup_modCounts (maps : Maps V) (n : String) :
    (modCounts maps).lookup n = (maps.get n).map MVMap.modCount :=
  maps.lookup_tabulate MVMap.modCount n

theorem isSome_lookup_modCounts (maps : Maps V) (n : String) :
    ((modCounts maps).lookup n).isSome ↔ (maps.find n).isSome := by
  rw [lookup_modCounts, isSome_map, isSome_iff_ne_none, isSome_iff_ne_none,
    ne_eq, ne_eq, Registry.get_eq_none]

theorem isSome_contents (maps : Maps V) (n : String) :
    (contents maps n).isSome ↔ (maps.find n).isSome := by
  rw [contents, isSome_map, isSome_iff_ne_none, isSome_iff_ne_none, ne_eq,
    ne_eq, Registry.get_eq_none]

/-! ## A freshly written image -/

/-- The store after its maps have been replaced by `f` of them, with all journals on and empty and
the names of the maps remembered. -/
structure Settled (s s' : MVStore V) (f : String → MVMap V → MVMap V) : Prop where
  find : ∀ n, s'.maps.find n = s.maps.find n
  get : ∀ n, s'.maps.get n = (s.maps.get n).map (f n)
  known : ∀ n, (s'.checkpointedMaps.lookup n).isSome ↔ (s.maps.find n).isSome
  bindings : ∀ n m, (f n m).get = m.get
  patch : ∀ n m, s.maps.get n = some m → (f n m).journal.patch = .empty
  cached : ∀ n m, m.Cached → (f n m).Cached
  enabled : ∀ n m, s.maps.get n = some m → (f n m).journal.enabled = true

variable {s : MVStore V} {f : String → MVMap V → MVMap V} {img : Contents V} {maps : Maps V}

variable {s' : MVStore V}

theorem Settled.journaled (h : Settled s s' f) (hc : s.Cached) (hf : Holds s'.file img)
    (himg : ∀ n, (img n).isSome ↔ (s.maps.find n).isSome) : Journaled s' s' img := by
  have hget : ∀ n m', s'.maps.get n = some m' → ∃ m, s.maps.get n = some m ∧ m' = f n m := by
    intro n m' hm'
    rw [h.get, map_eq_some_iff] at hm'
    obtain ⟨m, hm, rfl⟩ := hm'
    exact ⟨m, hm, rfl⟩
  -- with an empty journal a map tracks itself
  have htracks : ∀ n m', s'.maps.get n = some m' → m'.Tracks m'.get := by
    intro n m' hm'
    obtain ⟨m, hm, rfl⟩ := hget n m' hm'
    exact MVMap.tracks_of_empty (h.patch n m hm)
  refine ⟨hf, fun _ n => ?_, fun n m' hm' => ?_, fun _ n m' hm' => ?_, fun n id hn =>
    s'.maps.valid n id hn, fun _ n => ?_, ?_, fun _ n m' hm' => ⟨_, htracks n m' hm'⟩⟩
  · rw [h.known, himg]
  · obtain ⟨m, hm, rfl⟩ := hget n m' hm'
    exact h.cached n m (hc n m hm)
  · obtain ⟨m, hm, rfl⟩ := hget n m' hm'
    exact h.enabled n m hm
  · rw [h.find, himg]
  · intro _ n id m' g hn hg _ hm'
    have hgm : s'.maps.get n = some m' := (Registry.get_of_find hn).trans hm'
    have hgg : g = m'.get := by
      rw [contents, hgm] at hg
      cases hg
      rfl
    rw [hgg]
    exact htracks n m' hgm

theorem Settled.contents (h : Settled s s' f) : contents s'.maps = contents s.maps := by
  funext n
  unfold MVStore.contents
  rw [h.get, map_map]
  cases s.maps.get n with
  | none => rfl
  | some m => exact congrArg some (h.bindings n m)

/-! ## `checkpoint` -/

theorem drain_get (s : MVStore V) (n : String) (m : MVMap V) : (s.drain n m).2.get = m.get := by
  unfold drain MVMap.get
  simp only
  split_ifs
  · rw [(MVMap.getSerializedRoot_snd _).1]
    rfl
  · rw [(MVMap.getSerializedRoot_snd _).1]
    rfl
  · rfl
  · rfl

theorem drain_journal (s : MVStore V) (n : String) (m : MVMap V) :
    (s.drain n m).2.journal = ⟨m.journal.enabled || !s.hasCheckpoint, .empty⟩ := by
  unfold drain
  simp only
  split_ifs with hroot hcp hcp
  · rw [(MVMap.getSerializedRoot_snd _).2.1]
    simp [MVMap.takeJournal, MapJournal.reset, hcp]
  · rw [(MVMap.getSerializedRoot_snd _).2.1]
    simp [MVMap.takeJournal, MapJournal.reset, MVMap.setJournaling, hcp]
  · simp [MVMap.takeJournal, MapJournal.reset, hcp]
  · simp [MVMap.takeJournal, MapJournal.reset, MVMap.setJournaling, hcp]

variable {m : MVMap V}

theorem drain_cached (s : MVStore V) (n : String) (h : m.Cached) : (s.drain n m).2.Cached := by
  -- taking the journal and switching it on leave the cache alone
  unfold drain
  simp only
  split_ifs
  · exact MVMap.getSerializedRoot_cached h
  · exact MVMap.getSerializedRoot_cached h
  · exact h
  · exact h

theorem drain_fst (s : MVStore V) (n : String) (m : MVMap V) :
    (s.drain n m).1 = m.journal.patch := by
  unfold drain
  simp only
  split_ifs <;> rfl

theorem settled_published (he : s.hasCheckpoint = true → s.AllEnabled) :
    Settled s s.published fun n m => (s.drain n m).2 where
  find _ := rfl
  get n := s.maps.get_mapNamed _ n
  known n := isSome_lookup_modCounts s.maps n
  bindings := s.drain_get
  patch n m _ := by rw [drain_journal]
  cached n _ hc := s.drain_cached n hc
  enabled n m hm := by
    rw [drain_journal]
    cases hcp : s.hasCheckpoint with
    | false => simp
    | true => simp [he hcp n m hm]

theorem isSome_nextImage (hk : s.Known img) (n : String) :
    (s.nextImage img n).isSome ↔ (s.maps.find n).isSome := by
  rw [← isSome_contents]
  unfold nextImage contents
  cases hm : s.maps.get n with
  | none => exact Iff.rfl
  | some m =>
    rw [bind_some, map_some]
    split_ifs with hroot
    · exact Iff.rfl
    · obtain ⟨f, hf⟩ := hk.image (Bool.eq_false_iff.mpr hroot)
      simp only [hf, map_some, isSome_some]

theorem Journaled.published {atImage : MVStore V} (h : Journaled s atImage img) :
    Journaled s.published s.published (s.nextImage img) :=
  (settled_published h.enabled).journaled h.cached (published_holds h.cached h.holds h.known)
    (isSome_nextImage h.known)

theorem Journaled.unpublished {atImage : MVStore V} (h : Journaled s atImage img) :
    Journaled s.unpublished atImage img := by
  -- a first checkpoint that fails leaves the journals on, which does no harm
  have hjournal : ∀ n m, ((s.drain n m).2.restoreJournal (s.drain n m).1).journal.enabled =
      (m.journal.enabled || !s.hasCheckpoint) := by
    intro n m
    simp only [MVMap.restoreJournal, drain_journal]
  -- putting a journal back under the empty one gives the journal again
  have htracks : ∀ n m base, m.Tracks base →
      ((s.drain n m).2.restoreJournal (s.drain n m).1).Tracks base := by
    intro n m base ht
    have hg : ((s.drain n m).2.restoreJournal (s.drain n m).1).get = m.get := s.drain_get n m
    rw [MVMap.Tracks, hg]
    simp only [MVMap.restoreJournal, drain_journal, drain_fst, Patch.apply_restore,
      Patch.apply_empty]
    exact ht
  have hget : ∀ n m', s.unpublished.maps.get n = some m' →
      ∃ m, s.maps.get n = some m ∧ m' = (s.drain n m).2.restoreJournal (s.drain n m).1 := by
    intro n m' hm'
    change (s.maps.mapNamed fun n m => (s.drain n m).2.restoreJournal (s.drain n m).1).get n = _
      at hm'
    rw [Registry.get_mapNamed, map_eq_some_iff] at hm'
    obtain ⟨m, hm, rfl⟩ := hm'
    exact ⟨m, hm, rfl⟩
  refine ⟨h.holds, h.known, fun n m' hm' => ?_, fun hcp n m' hm' => ?_, fun n id hn => ?_, h.own,
    ?_, fun hcp n m' hm' => ?_⟩
  · obtain ⟨m, hm, rfl⟩ := hget n m' hm'
    exact s.drain_cached n (h.cached n m hm)
  · obtain ⟨m, hm, rfl⟩ := hget n m' hm'
    rw [hjournal, h.enabled hcp n m hm]
    rfl
  · simp only [MVStore.unpublished, Registry.mapNamed, List.length_mapIdx]
    exact h.handles n id hn
  · rintro hcp n id m' f hn hf ⟨n', hn'⟩ hm'
    change s.maps.find n' = some id at hn'
    change (s.maps.mapNamed fun n m => (s.drain n m).2.restoreJournal (s.drain n m).1).deref id = _
      at hm'
    rw [Registry.deref_mapNamed hn', map_eq_some_iff] at hm'
    obtain ⟨m, hm, rfl⟩ := hm'
    exact htracks n' m f (h.tracks hcp n id m f hn hf ⟨n', hn'⟩ hm)
  · obtain ⟨m, hm, rfl⟩ := hget n m' hm'
    obtain ⟨base, hb⟩ := h.based hcp n m hm
    exact ⟨base, htracks n m base hb⟩

theorem unpublished_allEnabled (s : MVStore V) (h : s.hasCheckpoint = true → s.AllEnabled) :
    s.unpublished.AllEnabled := by
  intro n m' hm'
  change (s.maps.mapNamed fun n m => (s.drain n m).2.restoreJournal (s.drain n m).1).get n = _
    at hm'
  rw [Registry.get_mapNamed, map_eq_some_iff] at hm'
  obtain ⟨m, hm, rfl⟩ := hm'
  simp only [MVMap.restoreJournal, drain_journal]
  cases hcp : s.hasCheckpoint with
  | false => simp
  | true => simp [h hcp n m hm]

/-! ## `reclaim_checkpoint_history` and `compact` -/

theorem settled_settled {s₁ : MVStore V} (hfind : ∀ n, s₁.maps.find n = s.maps.find n)
    (hget : ∀ n, s₁.maps.get n = (s.maps.get n).map (f n))
    (hf : ∀ n m, (f n m).get = m.get ∧ (f n m).journal = m.journal ∧ (m.Cached → (f n m).Cached))
    (he : s.AllEnabled) : Settled s s₁.settled fun n m => (f n m).resetJournal where
  find := hfind
  get n := by
    change (s₁.maps.mapNamed fun _ m => m.resetJournal).get n = _
    rw [Registry.get_mapNamed, hget, map_map]
    rfl
  known n := by
    change ((modCounts s₁.maps).lookup n).isSome ↔ _
    rw [isSome_lookup_modCounts, hfind]
  bindings n m := (hf n m).1
  patch _ _ _ := rfl
  cached n m hc := (hf n m).2.2 hc
  enabled n m hm := by
    change (f n m).journal.enabled = true
    rw [(hf n m).2.1]
    exact he n m hm

theorem reclaim_journaled (hc : s.Cached) (he : s.AllEnabled)
    (hs : (s.reclaimCheckpointHistory .done).2 = s') :
    Journaled s' s' (contents s.maps) ∧ contents s'.maps = contents s.maps ∧
      s'.maps.find = s.maps.find := by
  have hsettled : Settled s s' fun _ m => m.getSerializedRoot.2.resetJournal := by
    rw [← hs]
    refine settled_settled (fun _ => rfl) (fun n => s.maps.get_mapNamed _ n) (fun n m => ?_) he
    obtain ⟨htree, hjournal, _⟩ := m.getSerializedRoot_snd
    exact ⟨congrArg MVTree.get htree, hjournal, MVMap.getSerializedRoot_cached⟩
  have hfile : s'.file =
      .compactAndRewrite (.new 1 (s.version + 1) (catalogOf s.serializedRoots)) := by
    rw [← hs]
    rfl
  refine ⟨hsettled.journaled hc ?_ (isSome_contents s.maps), hsettled.contents,
    funext hsettled.find⟩
  rw [hfile, ← recorded_serializedRoots hc 1 (s.version + 1)]
  exact holds_compactAndRewrite _

/-- The bindings `compact` writes. -/
def compacted (s : MVStore Stored) : Contents Stored := fun n =>
  (s.maps.get n).map fun m => (compactTree s.version m.tree).get

theorem isSome_compacted (s : MVStore Stored) (n : String) :
    (s.compacted n).isSome ↔ (s.maps.find n).isSome := by
  rw [← isSome_contents, compacted, contents, isSome_map, isSome_map]

theorem compact_journaled {s : MVStore Stored} (hc : s.Cached) (he : s.AllEnabled)
    {s' : MVStore Stored} (hs : (s.compact .done).2 = s') :
    Journaled s' s' s.compacted ∧ contents s'.maps = contents s.maps ∧
      s'.maps.find = s.maps.find := by
  have hsettled : Settled s s' fun _ m => m.resetJournal := by
    rw [← hs]
    exact settled_settled (fun _ => rfl) (fun n => map_id'.symm) (fun n m => ⟨rfl, rfl, id⟩)
      he
  refine ⟨hsettled.journaled hc ?_ s.isSome_compacted, hsettled.contents, funext hsettled.find⟩
  have hrec : recorded (.new 1 s.version (catalogOf (s.maps.named.map fun p =>
      (p.1, compactTree s.version p.2.tree)))) = s.compacted :=
    funext (recorded_catalogOf (fun _ m => compactTree s.version m.tree) 1 s.version)
  rw [← hs, ← hrec]
  exact holds_compactAndRewrite _

/-! ## `open` -/

def Replayed (m : MVMap V) : Prop := m.Cached ∧ m.journal = ⟨false, .empty⟩

theorem replayed_new (root : Root V) : Replayed (MVMap.new root) := ⟨MVMap.new_cached root, rfl⟩

theorem Replayed.applyChange (h : Replayed m) (k : Key) (c : Option V) :
    Replayed (applyChange m k c) := by
  refine ⟨(mapStep_applyChange m k c).cached h.1, ?_⟩
  cases c with
  | none => simp [MVStore.applyChange, MVMap.remove, MapJournal.record, h.2]
  | some v => simp [MVStore.applyChange, MVMap.put, MapJournal.record, h.2]

theorem Replayed.applyMapDelta (h : Replayed m) (d : MapDelta (Root V) V) :
    Replayed (applyMapDelta m d) := by
  have hstart : Replayed (if d.clear then m.clear else m) := by
    split_ifs
    · exact ⟨(mapStep_clear m).cached h.1, by simp [MVMap.clear, h.2]⟩
    · exact h
  unfold MVStore.applyMapDelta
  generalize (if d.clear then m.clear else m) = start at hstart
  induction d.changes generalizing start with
  | nil => exact hstart
  | cons c changes ih => exact ih _ (hstart.applyChange c.1 c.2)

def AllReplayed (maps : Maps V) : Prop := ∀ id m, maps.deref id = some m → Replayed m

section

variable (h : AllReplayed maps)

include h

theorem AllReplayed.create (n : String) (hm : Replayed m) :
    AllReplayed (maps.create n m) := by
  intro id m' hm'
  rw [Registry.deref_create] at hm'
  split_ifs at hm' with hid
  · cases hm'
    exact hm
  · exact h id m' hm'

theorem AllReplayed.modify (id : Nat) {f : MVMap V → MVMap V} (hf : ∀ m, Replayed m → Replayed (f m)) :
    AllReplayed (maps.modify id f) := by
  intro i m' hm'
  rw [Registry.deref_modify] at hm'
  split_ifs at hm' with hi
  · obtain ⟨m, hm, rfl⟩ := map_eq_some_iff.mp hm'
    exact hf m (h i m hm)
  · exact h i m' hm'

theorem AllReplayed.replayMapDelta {maps' : Maps V} {d : MapDelta (Root V) V}
    (hd : replayMapDelta maps d = .ok maps') : AllReplayed maps' := by
  unfold MVStore.replayMapDelta at hd
  split at hd
  · cases hd
    exact h.create _ ((replayed_new _).applyMapDelta d)
  · split at hd
    · cases hd
    · cases hd
      exact h.modify _ fun m hm => hm.applyMapDelta d

theorem AllReplayed.foldl_remove (names : List String) :
    AllReplayed (names.foldl Registry.remove maps) := by
  induction names generalizing maps with
  | nil => exact h
  | cons n names ih =>
    have hn : AllReplayed (maps.remove n) := h
    exact ih hn

theorem AllReplayed.replayDelta {maps' : Maps V} {delta : DeltaPayload (Root V) V}
    (hd : replayDelta maps delta = .ok maps') : AllReplayed maps' :=
  foldlM_invariant (fun _ _ _ hs hstep => AllReplayed.replayMapDelta hs hstep)
    (h.foldl_remove delta.removedMaps) hd

end

theorem allReplayed_restoreMaps (payload : ChunkPayload (Catalog V)) :
    AllReplayed (restoreMaps payload) := by
  have hempty : AllReplayed (.empty : Maps V) := fun id m hm => by cases hm
  unfold restoreMaps
  generalize (.empty : Maps V) = maps at hempty
  induction payload.rootPage.scanAll generalizing maps with
  | nil => exact hempty
  | cons e es ih => exact ih _ (hempty.create e.key (replayed_new e.value))

theorem allReplayed_replayChain {chain : FileStore.Chain (Catalog V) (Root V) V}
    (h : replayChain chain = .ok maps) : AllReplayed maps := by
  refine foldlM_invariant (fun _ _ _ hs hstep => AllReplayed.replayDelta hs hstep) ?_ h
  cases chain.1 with
  | none => exact fun id m hm => by cases hm
  | some payload => exact allReplayed_restoreMaps payload

theorem dataStep_replayWalChange (s : MVStore V) (c : WalChange V) :
    DataStep s { s with maps := replayWalChange s.maps c } := by
  unfold replayWalChange
  split
  · exact dataStep_update s _ fun m => mapStep_applyChange m c.key c.value
  · exact dataStep_create s c.mapName
      ((newMap_empty fun _ => rfl).step (mapStep_applyChange _ c.key c.value))

theorem dataStep_replayWal (changes : List (WalChange V)) (s : MVStore V) :
    DataStep s { s with maps := changes.foldl replayWalChange s.maps } := by
  induction changes generalizing s with
  | nil => exact DataStep.refl s
  | cons c changes ih => exact (dataStep_replayWalChange s c).trans (ih _)

theorem openAt_nil {file : FileImage V} (h : Holds file img) :
    ∃ s, openAt file [] = .ok s ∧ Journaled s s img ∧ contents s.maps = img ∧ s.file = file := by
  obtain ⟨maps, hmaps, hcont⟩ := h
  have hall := allReplayed_replayChain hmaps
  have hrep : ∀ n m, maps.get n = some m → Replayed m := by
    intro n m hm
    cases hf : maps.find n with
    | none =>
      rw [Registry.get_eq_none.mpr hf] at hm
      cases hm
    | some id => exact hall id m ((Registry.get_of_find hf).symm.trans hm)
  -- `pre` is the store before its journals are switched on
  let pre : MVStore V := {
    file := file, wal := [], maps := maps, version := file.version, chunkIdCounter := 1
    checkpointedMaps := modCounts maps
    hasCheckpoint := file.chain.1.isSome || !file.chain.2.isEmpty
    nextCommitVersion := file.version }
  let s : MVStore V := { pre with maps := maps.mapNamed fun _ m => m.setJournaling true }
  have hopen : openAt file [] = .ok s := by
    rw [openAt, hmaps]
    rfl
  have hsettled : Settled pre s fun _ m => m.setJournaling true := by
    refine ⟨fun _ => rfl, fun n => maps.get_mapNamed _ n, fun n => isSome_lookup_modCounts maps n,
      fun _ _ => rfl, fun n m hm => ?_, fun _ _ hc => hc, fun _ _ _ => rfl⟩
    change m.journal.patch = .empty
    rw [(hrep n m hm).2]
  refine ⟨s, hopen, hsettled.journaled (fun n m hm => (hrep n m hm).1) ⟨maps, hmaps, hcont⟩
    fun n => ?_, hsettled.contents.trans hcont, rfl⟩
  rw [← hcont]
  exact isSome_contents maps n

theorem openAt_wal {file : FileImage V} {s₀ : MVStore V} (h : openAt file [] = .ok s₀)
    (wal : List (WalRecord V)) :
    ∃ s, openAt file wal = .ok s ∧ DataStep s₀ s ∧ s.wal = wal ∧
      s.maps = (wal.flatMap WalRecord.changes).foldl replayWalChange s₀.maps := by
  unfold openAt at h ⊢
  cases hmaps : replayChain file.chain with
  | error e =>
    rw [hmaps] at h
    cases h
  | ok maps =>
    rw [hmaps] at h
    cases h
    have hstep := dataStep_replayWal (wal.flatMap WalRecord.changes)
      { file := file, wal := [], maps := maps.mapNamed fun _ m => m.setJournaling true,
        version := file.version, chunkIdCounter := 1, checkpointedMaps := modCounts maps,
        hasCheckpoint := file.chain.1.isSome || !file.chain.2.isEmpty,
        nextCommitVersion := file.version }
    exact ⟨_, rfl, ⟨hstep.file, hstep.hasCheckpoint, hstep.checkpointedMaps, hstep.objects,
      hstep.live⟩, rfl, rfl⟩

end H2Database.Mvstore.MVStore
