import H2Database.Mvstore.Recovery

/-!
# The journals of a store against its last image

`DataStep` says once what the operations that do not write the file can do to the maps; `Journaled` is
the invariant between the store, the store as it was when the last image was written, and the image:
the journal of a map that was in the image is its difference from the bindings it had then.
-/

namespace H2Database.Mvstore.MVStore

open Reasoning Nat

variable {V : Type}

/-! ## Steps of one map -/

structure MapStep (m m' : MVMap V) : Prop where
  cached : m.Cached → m'.Cached
  enabled : m'.journal.enabled = m.journal.enabled
  tracks : m.journal.enabled = true → ∀ base, m.Tracks base → m'.Tracks base

theorem MapStep.refl (m : MVMap V) : MapStep m m := ⟨id, rfl, fun _ _ h => h⟩

theorem MapStep.trans {m m' m'' : MVMap V} (h : MapStep m m') (h' : MapStep m' m'') :
    MapStep m m'' :=
  ⟨fun hc => h'.cached (h.cached hc), h'.enabled.trans h.enabled,
    fun hon base ht => h'.tracks (h.enabled.trans hon) base (h.tracks hon base ht)⟩

theorem mapStep_put (m : MVMap V) (k : Key) (v : V) : MapStep m (m.put k v) :=
  ⟨fun hc => hc.modified rfl rfl, m.put_enabled k v, fun hon _ ht => ht.put hon k v⟩

theorem mapStep_remove (m : MVMap V) (k : Key) : MapStep m (m.remove k).1 :=
  ⟨fun hc => hc.modified rfl rfl, m.remove_enabled k, fun hon _ ht => ht.remove hon k⟩

theorem mapStep_clear (m : MVMap V) : MapStep m m.clear :=
  ⟨fun hc => hc.modified rfl rfl, m.clear_enabled, fun hon base _ => MVMap.Tracks.clear hon base⟩

theorem mapStep_applyChange (m : MVMap V) (k : Key) (c : Option V) :
    MapStep m (applyChange m k c) := by
  cases c with
  | none => exact mapStep_remove m k
  | some v => exact mapStep_put m k v

/-- A map created by a store with or without a checkpoint, and used since. -/
structure NewMap (hasCheckpoint : Bool) (m : MVMap V) : Prop where
  cached : m.Cached
  enabled : hasCheckpoint = true → m.journal.enabled = true
  tracks : m.journal.enabled = true → m.Tracks fun _ => none

theorem newMap_empty {hasCheckpoint enabled : Bool} (h : hasCheckpoint = true → enabled = true) :
    NewMap hasCheckpoint ((MVMap.new (.empty : Root V)).setJournaling enabled) := by
  refine ⟨MVMap.new_cached _, h, fun _ => ?_⟩
  funext k
  exact (MVTree.get_empty k).symm

theorem NewMap.step {hasCheckpoint : Bool} {m m' : MVMap V} (h : NewMap hasCheckpoint m)
    (hs : MapStep m m') : NewMap hasCheckpoint m' :=
  ⟨hs.cached h.cached, fun hc => hs.enabled.trans (h.enabled hc), fun hon =>
    hs.tracks (hs.enabled ▸ hon) _ (h.tracks (hs.enabled ▸ hon))⟩

/-! ## Steps that do not write the file -/

/-- Every named map was named before and has taken a map step, or is new. -/
structure DataStep (s s' : MVStore V) : Prop where
  file : s'.file = s.file
  hasCheckpoint : s'.hasCheckpoint = s.hasCheckpoint
  checkpointedMaps : s'.checkpointedMaps = s.checkpointedMaps
  objects : s.maps.objects.length ≤ s'.maps.objects.length
  live : ∀ n id m', s'.maps.find n = some id → s'.maps.deref id = some m' →
    (∃ n₀ m, s.maps.find n₀ = some id ∧ s.maps.deref id = some m ∧ MapStep m m') ∨
      (s.maps.objects.length ≤ id ∧ NewMap s.hasCheckpoint m')

theorem DataStep.refl (s : MVStore V) : DataStep s s :=
  ⟨rfl, rfl, rfl, le_refl _, fun n _ m hn hm => Or.inl ⟨n, m, hn, hm, MapStep.refl m⟩⟩

theorem DataStep.trans {s s' s'' : MVStore V} (h : DataStep s s') (h' : DataStep s' s'') :
    DataStep s s'' := by
  refine ⟨h'.file.trans h.file, h'.hasCheckpoint.trans h.hasCheckpoint,
    h'.checkpointedMaps.trans h.checkpointedMaps, le_trans h.objects h'.objects, ?_⟩
  intro n id m'' hn hm
  rcases h'.live n id m'' hn hm with ⟨n₁, m', hn', hm', hs'⟩ | ⟨hid, hnew⟩
  · rcases h.live n₁ id m' hn' hm' with ⟨n₀, m, hn₀, hm₀, hs⟩ | ⟨hid, hnew⟩
    · exact .inl ⟨n₀, m, hn₀, hm₀, hs.trans hs'⟩
    · exact .inr ⟨hid, hnew.step hs'⟩
  · exact .inr ⟨le_trans h.objects hid, h.hasCheckpoint ▸ hnew⟩

theorem dataStep_update (s : MVStore V) (id : Nat) {f : MVMap V → MVMap V}
    (hf : ∀ m, MapStep m (f m)) : DataStep s (s.update id f) := by
  refine ⟨rfl, rfl, rfl, ?_, fun n i m' hn hm => ?_⟩
  · simp only [update, Registry.modify, List.length_modify]
    exact le_refl _
  · simp only [update, Registry.find_modify, Registry.deref_modify] at hn hm
    split_ifs at hm with hi
    · obtain ⟨m, hm₀, rfl⟩ := Option.map_eq_some_iff.mp hm
      exact .inl ⟨n, m, hn, hm₀, hf m⟩
    · exact .inl ⟨n, m', hn, hm, MapStep.refl m'⟩

theorem dataStep_create (s : MVStore V) (name : String) {m : MVMap V}
    (hnew : NewMap s.hasCheckpoint m) : DataStep s { s with maps := s.maps.create name m } := by
  refine ⟨rfl, rfl, rfl, ?_, fun n i m' hn hm => ?_⟩
  · simp only [Registry.create, List.length_append]
    omega
  · simp only [Registry.find_create, Registry.deref_create] at hn hm
    split_ifs at hm with hi
    · cases hm
      exact .inr ⟨le_of_eq hi.symm, hnew⟩
    · split_ifs at hn with hname
      · cases hn
        exact absurd rfl hi
      · exact .inl ⟨n, m', hn, hm, MapStep.refl m'⟩

theorem dataStep_openMap (s : MVStore V) (name : String) : DataStep s (s.openMap name).2 := by
  unfold openMap
  split
  · exact DataStep.refl s
  · exact dataStep_create s name (newMap_empty fun h => h)

theorem dataStep_renameMap (s : MVStore V) (oldName newName : String) :
    DataStep s (s.renameMap oldName newName).2 := by
  unfold renameMap
  split
  · rename_i maps hmaps
    obtain ⟨⟨id, hid, hfind⟩, hderef, hobj⟩ := Registry.rename_eq_some hmaps
    refine ⟨rfl, rfl, rfl, le_of_eq (congrArg List.length hobj).symm, fun n i m' hn hm => ?_⟩
    change maps.find n = some i at hn
    change maps.deref i = some m' at hm
    rw [hfind] at hn
    rw [hderef] at hm
    split_ifs at hn with hnew hold
    · cases hn
      exact .inl ⟨oldName, m', hid, hm, MapStep.refl m'⟩
    · exact .inl ⟨n, m', hn, hm, MapStep.refl m'⟩
  · exact DataStep.refl s

theorem dataStep_removeMap (s : MVStore V) (name : String) : DataStep s (s.removeMap name).2 := by
  refine ⟨rfl, rfl, rfl, le_refl _, fun n i m' hn hm => ?_⟩
  simp only [removeMap, Registry.find_remove, Registry.deref_remove] at hn hm
  split_ifs at hn
  exact .inl ⟨n, m', hn, hm, MapStep.refl m'⟩

theorem dataStep_clearMap (s : MVStore V) (name : String) : DataStep s (s.clearMap name) := by
  unfold clearMap
  split
  · exact dataStep_update s _ mapStep_clear
  · exact DataStep.refl s

theorem dataStep_applyWalChange (s : MVStore V) (c : WalChange V) :
    DataStep s (s.applyWalChange c) :=
  (dataStep_openMap s c.mapName).trans
    (dataStep_update _ _ fun m => mapStep_applyChange m c.key c.value)

theorem dataStep_applyWalChanges (changes : List (WalChange V)) (s : MVStore V) :
    DataStep s (changes.foldl applyWalChange s) := by
  induction changes generalizing s with
  | nil => exact DataStep.refl s
  | cons c changes ih => exact (dataStep_applyWalChange s c).trans (ih _)

theorem dataStep_commitRecord (s : MVStore V) (record : WalRecord V) (sync : H2Result Unit) :
    DataStep s (s.commitRecord record sync).2 := by
  unfold commitRecord
  split
  · exact DataStep.refl s
  · have h := dataStep_applyWalChanges record.changes { s with wal := s.wal ++ [record] }
    exact ⟨h.file, h.hasCheckpoint, h.checkpointedMaps, h.objects, h.live⟩

def AllEnabled (s : MVStore V) : Prop :=
  ∀ n m, s.maps.get n = some m → m.journal.enabled = true

/-- `atImage` is the store as it was when the image in the file was written or read. -/
structure Journaled (s atImage : MVStore V) (img : Contents V) : Prop where
  holds : Holds s.file img
  known : s.Known img
  cached : s.Cached
  enabled : s.hasCheckpoint = true → s.AllEnabled
  handles : ∀ n id, atImage.maps.find n = some id → id < s.maps.objects.length
  own : s.hasCheckpoint = true → ∀ n, (img n).isSome ↔ (atImage.maps.find n).isSome
  tracks : s.hasCheckpoint = true → ∀ n id m f, atImage.maps.find n = some id →
    contents atImage.maps n = some f → s.maps.Live id → s.maps.deref id = some m → m.Tracks f
  based : s.hasCheckpoint = true → ∀ n m, s.maps.get n = some m → ∃ base, m.Tracks base

variable {s s' : MVStore V}

theorem DataStep.get (h : DataStep s s') {n : String} {m' : MVMap V} (hm : s'.maps.get n = some m') :
    (∃ n₀ m, s.maps.get n₀ = some m ∧ MapStep m m') ∨ NewMap s.hasCheckpoint m' := by
  cases hf : s'.maps.find n with
  | none =>
    rw [Registry.get_eq_none.mpr hf] at hm
    cases hm
  | some id =>
    rw [Registry.get_of_find hf] at hm
    rcases h.live n id m' hf hm with ⟨n₀, m, hn₀, hm₀, hs⟩ | ⟨_, hnew⟩
    · exact .inl ⟨n₀, m, (Registry.get_of_find hn₀).trans hm₀, hs⟩
    · exact .inr hnew

theorem DataStep.allEnabled (h : DataStep s s') (hcp : s.hasCheckpoint = true)
    (he : s.AllEnabled) : s'.AllEnabled := by
  intro n m' hm
  rcases h.get hm with ⟨n₀, m, hm₀, hs⟩ | hnew
  · exact hs.enabled.trans (he n₀ m hm₀)
  · exact hnew.enabled hcp

theorem DataStep.cached (h : DataStep s s') (hc : s.Cached) : s'.Cached := by
  intro n m' hm
  rcases h.get hm with ⟨n₀, m, hm₀, hs⟩ | hnew
  · exact hs.cached (hc n₀ m hm₀)
  · exact hnew.cached

theorem Journaled.dataStep {s s' atImage : MVStore V} {img : Contents V}
    (h : Journaled s atImage img) (hs : DataStep s s') : Journaled s' atImage img := by
  have hcp : s'.hasCheckpoint = true → s.hasCheckpoint = true := fun hc => hs.hasCheckpoint ▸ hc
  refine ⟨hs.file ▸ h.holds, ?_, hs.cached h.cached, fun hc => hs.allEnabled (hcp hc)
    (h.enabled (hcp hc)), fun n id hn => lt_of_lt_of_le (h.handles n id hn) hs.objects,
    fun hc => h.own (hcp hc), ?_, ?_⟩
  · intro hc n
    rw [hs.checkpointedMaps]
    exact h.known (hcp hc) n
  · rintro hc n id m' f hn hf ⟨n', hn'⟩ hm'
    rcases hs.live n' id m' hn' hm' with ⟨n₀, m, hn₀, hm, hstep⟩ | ⟨hid, _⟩
    · have hon : m.journal.enabled = true :=
        h.enabled (hcp hc) n₀ m ((Registry.get_of_find hn₀).trans hm)
      exact hstep.tracks hon f (h.tracks (hcp hc) n id m f hn hf ⟨n₀, hn₀⟩ hm)
    · -- the handle belongs to an object that existed when the image was written
      exact absurd (h.handles n id hn) (not_lt.mpr hid)
  · intro hc n m' hm'
    rcases hs.get hm' with ⟨n₀, m, hm, hstep⟩ | hnew
    · obtain ⟨base, hb⟩ := h.based (hcp hc) n₀ m hm
      exact ⟨base, hstep.tracks (h.enabled (hcp hc) n₀ m hm) base hb⟩
    · exact ⟨_, hnew.tracks (hnew.enabled (hcp hc))⟩

theorem Journaled.withWal {s atImage : MVStore V} {img : Contents V} (h : Journaled s atImage img)
    (wal wal' : List (WalRecord V)) :
    Journaled { s with wal := wal } { atImage with wal := wal' } img :=
  ⟨h.holds, h.known, h.cached, h.enabled, h.handles, h.own, h.tracks, h.based⟩

end H2Database.Mvstore.MVStore
