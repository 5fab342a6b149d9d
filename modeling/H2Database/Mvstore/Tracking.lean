import H2Database.Mvstore.Edits

/-!
# Tracked keys across checkpoints, dropped maps and recovery

What the next image has right about a key, `Tracked`, is kept by a checkpoint, by `clear_map` and by
`remove_map` of a map the last image does not have, and holds of every key of a store that has just
been opened.
-/

namespace H2Database.Mvstore.MVStore

open Reasoning Option Function

variable {V : Type}

variable {s : MVStore V} {img : Contents V} {n : String} {k : Key}

variable {atImage : MVStore V}

theorem nextRead_cases (h : Journaled s atImage img) (n : String) (k : Key) :
    s.nextRead img n k = s.read n k ∨ s.nextRead img n k = binding img n k := by
  cases hroot : s.needsRoot n with
  | true => exact .inl (nextRead_of_needsRoot hroot img k)
  | false =>
    cases hm : s.maps.get n with
    | none =>
      left
      rw [nextRead_of_get_none hm, read_of_find_none (Registry.get_eq_none.mp hm)]
    | some m =>
      obtain ⟨base, hbase⟩ := h.based (needsRoot_eq_false.mp hroot).1 n m hm
      exact (nextRead_of_tracks h.known hm hbase k).imp_right And.right

theorem needsRoot_published (s : MVStore V) (n : String) :
    s.published.needsRoot n = (s.maps.find n).isNone := by
  have hknown := isSome_lookup_modCounts s.maps n
  change (!true || ((modCounts s.maps).lookup n).isNone) = _
  rw [Bool.not_true, Bool.false_or, Bool.eq_iff_iff, isNone_iff_eq_none,
    isNone_iff_eq_none, ← not_iff_not, ← ne_eq, ← ne_eq, ← isSome_iff_ne_none,
    ← isSome_iff_ne_none]
  exact hknown

theorem contents_published (s : MVStore V) : contents s.published.maps = contents s.maps :=
  contents_mapNamed s.drain_get

theorem contents_unpublished (s : MVStore V) : contents s.unpublished.maps = contents s.maps :=
  contents_mapNamed fun n m => s.drain_get n m

theorem read_published (s : MVStore V) : s.published.read = s.read := by
  funext n k
  rw [read, contents_published]
  rfl

theorem read_unpublished (s : MVStore V) : s.unpublished.read = s.read := by
  funext n k
  rw [read, contents_unpublished]
  rfl

theorem read_checkpoint (s : MVStore V) (io : WriteOutcome) :
    (s.checkpoint io).2.read = s.read := by
  unfold checkpoint
  split
  · exact s.read_unpublished
  · exact s.read_published
  · exact s.read_published

theorem nextRead_published (h : Journaled s atImage img) (n : String) (k : Key) :
    s.published.nextRead (s.nextImage img) n k = s.nextRead img n k := by
  have hsettled := settled_published h.enabled
  cases hm : s.maps.get n with
  | none =>
    have hget : s.published.maps.get n = none := by rw [hsettled.get, hm, map_none]
    rw [nextRead_of_get_none hget, nextRead_of_get_none hm]
  | some m =>
    have hget : s.published.maps.get n = some (s.drain n m).2 := by
      rw [hsettled.get, hm, map_some]
    have hroot : s.published.needsRoot n = false := by
      rw [needsRoot_published, isNone_eq_false_iff, isSome_iff_ne_none, ne_eq,
        ← Registry.get_eq_none, hm]
      exact some_ne_none m
    -- every live map is now in the image, and its journal is empty
    obtain ⟨f, hf, hnext⟩ := nextRead_of_known h.published.known hroot hget
    rw [hnext, hsettled.patch n m hm, Patch.apply_empty, nextRead, binding, hf, bind_some]

theorem Tracked.published (h : Journaled s atImage img) (ht : s.Tracked img n k) :
    s.published.Tracked (s.nextImage img) n k := by
  refine ⟨?_, fun hnone => ?_⟩
  · rw [nextRead_published h, ht.1, read_published]
  · rw [needsRoot_published, show s.maps.find n = none from hnone]
    rfl

theorem Tracked.unpublished (ht : s.Tracked img n k) : s.unpublished.Tracked img n k := by
  have hget : s.unpublished.maps.get n = (s.maps.get n).map fun m =>
      (s.drain n m).2.restoreJournal (s.drain n m).1 := s.maps.get_mapNamed _ n
  have hdrain : ∀ m, ((s.drain n m).2.restoreJournal (s.drain n m).1).get = m.get := s.drain_get n
  have hpatch : ∀ m base, ((s.drain n m).2.restoreJournal (s.drain n m).1).journal.patch.apply base =
      m.journal.patch.apply base := by
    intro m base
    simp only [MVMap.restoreJournal, drain_journal, drain_fst, Patch.apply_restore,
      Patch.apply_empty]
  refine ⟨?_, ht.2⟩
  have hnext : s.unpublished.nextRead img n k = s.nextRead img n k := by
    have hroot : s.unpublished.needsRoot n = s.needsRoot n := rfl
    unfold nextRead binding nextImage
    rw [hget, hroot]
    cases s.maps.get n with
    | none => rfl
    | some m => simp only [map_some, bind_some, hdrain, funext (hpatch m)]
  rw [hnext, ht.1, read_unpublished]

/-! ## `clear_map` and `remove_map` -/

theorem read_clearMap (s : MVStore V) (name n : String) (k : Key) :
    (s.clearMap name).read n k = if n = name then none else s.read n k := by
  unfold clearMap
  cases hf : s.maps.find name with
  | none =>
    simp only
    split_ifs with hn
    · exact read_of_find_none (hn ▸ hf) k
    · rfl
  | some id =>
    change binding (contents (s.maps.modify id MVMap.clear)) n k = _
    rw [contents_modify hf, binding]
    by_cases hn : n = name
    · subst hn
      obtain ⟨m, hm⟩ := Registry.deref_of_find hf
      rw [update_self, if_pos rfl, Registry.get_of_find hf, hm, map_some,
        bind_some, MVMap.clear_get]
    · rw [update_of_ne hn, if_neg hn]
      rfl

theorem Tracked.clearMap (ha : Armed s img) (ht : s.Tracked img n k) (name : String) :
    (s.clearMap name).Tracked img n k := by
  refine ⟨?_, fun hnone => ?_⟩
  · rw [read_clearMap]
    unfold MVStore.clearMap
    cases hf : s.maps.find name with
    | none =>
      simp only
      rw [ht.1]
      split_ifs with hn
      · exact read_of_find_none (hn ▸ hf) k
      · rfl
    | some id =>
      simp only
      obtain ⟨m, hm⟩ := Registry.deref_of_find hf
      by_cases hn : n = name
      · subst hn
        rw [if_pos rfl]
        have hget : (s.update id MVMap.clear).maps.get n = some m.clear := by
          change (s.maps.modify id MVMap.clear).get n = _
          rw [Registry.get_modify hf, if_pos rfl, Registry.get_of_find hf, hm, map_some]
        cases hroot : s.needsRoot n with
        | true =>
          rw [nextRead_of_needsRoot (s := s.update id MVMap.clear) hroot, read_of_get hget,
            MVMap.clear_get]
        | false =>
          have hcp := (needsRoot_eq_false.mp hroot).1
          have hon := ha.enabled hcp n m ((Registry.get_of_find hf).trans hm)
          obtain ⟨f, hf', hnext⟩ := nextRead_of_known (s := s.update id MVMap.clear) ha.known hroot
            hget
          -- the clear flag of the journal empties the map in the image too
          rw [hnext, MVMap.Tracks.clear hon f, MVMap.clear_get]
      · rw [if_neg hn, ← ht.1]
        have hget : (s.update id MVMap.clear).maps.get n = s.maps.get n := by
          change (s.maps.modify id MVMap.clear).get n = _
          rw [Registry.get_modify hf, if_neg hn]
        exact nextRead_congr hget rfl img k
  · unfold MVStore.clearMap at hnone ⊢
    split at hnone
    · exact ht.2 hnone
    · exact ht.2 hnone

theorem read_removeMap (s : MVStore V) (name n : String) (k : Key) :
    (s.removeMap name).2.read n k = if n = name then none else s.read n k := by
  change binding (contents (s.maps.remove name)) n k = _
  rw [contents_remove, binding]
  by_cases hn : n = name
  · subst hn
    rw [update_self, if_pos rfl]
    rfl
  · rw [update_of_ne hn, if_neg hn]
    rfl

theorem Tracked.removeMap (ht : s.Tracked img n k) {name : String}
    (hname : n = name → s.needsRoot name = true) :
    (s.removeMap name).2.Tracked img n k := by
  by_cases hn : n = name
  · have hroot : (s.removeMap name).2.needsRoot n = true := hn ▸ hname hn
    exact ⟨nextRead_of_needsRoot hroot img k, fun _ => hroot⟩
  · have hget : (s.removeMap name).2.maps.get n = s.maps.get n := by
      change (s.maps.remove name).get n = _
      rw [Registry.get_remove, if_neg hn]
    refine ⟨?_, fun hnone => ht.2 ?_⟩
    · rw [read_removeMap, if_neg hn, ← ht.1]
      exact nextRead_congr hget rfl img k
    · rw [← Registry.get_eq_none, ← hget]
      exact Registry.get_eq_none.mpr hnone

/-! ## Recovery -/

theorem tracked_of_journaled (h : Journaled s s img) (hc : contents s.maps = img) (n : String) (k : Key) :
    s.Tracked img n k := by
  refine ⟨?_, fun hnone => ?_⟩
  · cases hroot : s.needsRoot n with
    | true => exact nextRead_of_needsRoot hroot img k
    | false =>
      cases hf : s.maps.find n with
      | none =>
        rw [nextRead_of_get_none (Registry.get_eq_none.mpr hf), read_of_find_none hf]
      | some id =>
        obtain ⟨m, hm⟩ := Registry.deref_of_find hf
        have hget : s.maps.get n = some m := (Registry.get_of_find hf).trans hm
        have hcont : contents s.maps n = some m.get := by
          rw [contents, hget]
          rfl
        have hcp := (needsRoot_eq_false.mp hroot).1
        obtain ⟨f, himg, hnext⟩ := nextRead_of_known h.known hroot hget
        rw [← hc, hcont] at himg
        cases himg
        -- the journal is empty over contents that are the image itself
        rw [hnext, h.tracks hcp n id m m.get hf hcont ⟨n, hf⟩ hm, read_of_get hget]
  · cases hcp : s.hasCheckpoint with
    | false => rw [needsRoot, hcp]; rfl
    | true =>
      have hlookup : s.checkpointedMaps.lookup n = none := by
        rw [← not_isSome_iff_eq_none, h.known hcp n, ← hc, isSome_contents, hnone]
        exact Bool.false_ne_true
      rw [needsRoot, hlookup]
      simp

theorem Tracked.replayWalChange (ha : Armed s img) (h : s.Tracked img n k) (c : WalChange V) :
    Tracked { s with maps := replayWalChange s.maps c } img n k := by
  unfold MVStore.replayWalChange
  split
  · rename_i id hid
    exact h.change ha id c.key c.value
  · rename_i hnone
    exact h.create hnone _

theorem Tracked.replayWal {changes : List (WalChange V)} (ha : Armed s img) (h : s.Tracked img n k) :
    Tracked { s with maps := changes.foldl MVStore.replayWalChange s.maps } img n k := by
  induction changes generalizing s with
  | nil => exact h
  | cons c changes ih =>
    exact ih (s := { s with maps := MVStore.replayWalChange s.maps c })
      (ha.dataStep (dataStep_replayWalChange s c)) (h.replayWalChange ha c)

theorem tracked_openAt {file : FileImage V} (h : Holds file img) {wal : List (WalRecord V)}
    (hopen : openAt file wal = .ok s) (n : String) (k : Key) : s.Tracked img n k := by
  obtain ⟨s₀, hopen₀, hj, hcont, _⟩ := openAt_nil h
  obtain ⟨s', hopen', hstep, _, hmaps⟩ := openAt_wal hopen₀ wal
  cases hopen.symm.trans hopen'
  have htracked : Tracked { s₀ with maps := s.maps } img n k := by
    rw [hmaps]
    exact (tracked_of_journaled hj hcont n k).replayWal hj.armed
  unfold Tracked nextRead binding nextImage needsRoot at htracked ⊢
  rw [hstep.hasCheckpoint, hstep.checkpointedMaps]
  exact htracked

end H2Database.Mvstore.MVStore
