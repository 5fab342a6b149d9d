import H2Database.Mvstore.Checkpoint

/-!
# Edits of a store, key by key

`read` is a store seen through names and keys.  `Edited` says that a store comes from another one by
opening maps and by puts and removals through handles, which is all that transactions and recovery do
between two images.  What such edits keep is proved here once: names, the invariant of the journals,
and `Tracked`, the agreement of one key with the next image.
-/

namespace H2Database.Mvstore.MVStore

open Reasoning List Function
open Option hiding or or_assoc

variable {V : Type}

def read (s : MVStore V) (n : String) (k : Key) : Option V := binding (contents s.maps) n k

variable {s s' : MVStore V} {n : String} {id : Nat} {changes : List (WalChange V)} {k : Key}
  {img : Contents V}

theorem read_of_find (h : s.maps.find n = some id) (k : Key) :
    s.read n k = (s.maps.deref id).bind fun m => m.get k := by
  rw [read, binding, contents, Registry.get_of_find h]
  cases s.maps.deref id <;> rfl

theorem read_of_find_none (h : s.maps.find n = none) (k : Key) :
    s.read n k = none := by
  rw [read, binding, contents, Registry.get_eq_none.mpr h]
  rfl

variable {m : MVMap V}

theorem read_of_get (h : s.maps.get n = some m) (k : Key) :
    s.read n k = m.get k := by
  rw [read, binding, contents, h]
  rfl

theorem read_congr (h : s'.maps = s.maps) : s'.read = s.read := by
  funext n k
  rw [read, read, h]

/-! ## `open_map` -/

theorem find_openMap_self (s : MVStore V) (n : String) :
    (s.openMap n).2.maps.find n = some (s.openMap n).1 := by
  unfold openMap
  split
  · assumption
  · change (s.maps.create n _).find n = some s.maps.objects.length
    rw [Registry.find_create, if_pos rfl]

theorem find_openMap {name : String} (h : s.maps.find n = some id) :
    (s.openMap name).2.maps.find n = some id := by
  unfold openMap
  split
  · exact h
  · rename_i hnone
    change (s.maps.create name _).find n = some id
    rw [Registry.find_create, if_neg, h]
    rintro rfl
    rw [hnone] at h
    cases h

theorem find_applyWalChanges (h : s.maps.find n = some id) :
    (changes.foldl applyWalChange s).maps.find n = some id := by
  induction changes generalizing s with
  | nil => exact h
  | cons c changes ih => exact ih (find_openMap h)

theorem find_replayWal {maps : Maps V} (h : maps.find n = some id) :
    (changes.foldl replayWalChange maps).find n = some id := by
  induction changes generalizing maps with
  | nil => exact h
  | cons c changes ih =>
    refine ih ?_
    unfold replayWalChange
    split
    · exact h
    · rename_i hnone
      rw [Registry.find_create, if_neg, h]
      rintro rfl
      rw [hnone] at h
      cases h

theorem read_openMap (s : MVStore V) (name : String) : (s.openMap name).2.read = s.read := by
  unfold openMap
  split
  · rfl
  · rename_i hnone
    funext n k
    change binding (contents (s.maps.create name _)) n k = _
    rw [contents_create]
    by_cases hn : n = name
    · subst hn
      rw [read_of_find_none hnone, binding, update_self, bind_some]
      exact MVTree.get_empty k
    · rw [binding, update_of_ne hn]
      rfl

theorem mapGet_openMap (s : MVStore V) (n : String) (k : Key) :
    ((s.openMap n).2.maps.deref (s.openMap n).1).bind (fun m => m.get k) = s.read n k := by
  rw [← read_of_find (find_openMap_self s n) k, read_openMap]

/-! ## Puts and removals through a handle -/

/-- `MVMap::put` or `MVMap::remove`. -/
def change (s : MVStore V) (id : Nat) (k : Key) (c : Option V) : MVStore V :=
  s.update id fun m => applyChange m k c

@[simp] theorem find_change (s : MVStore V) (id : Nat) (k : Key) (c : Option V) (n : String) :
    (s.change id k c).maps.find n = s.maps.find n := rfl

theorem read_change (h : s.maps.find n = some id) (k : Key) (c : Option V) (n' : String) (k' : Key) :
    (s.change id k c).read n' k' = if n' = n ∧ k' = k then c else s.read n' k' := by
  change binding (contents (s.maps.modify id _)) n' k' = _
  rw [contents_modify h, binding]
  by_cases hn : n' = n
  · subst hn
    obtain ⟨m, hm⟩ := Registry.deref_of_find h
    rw [update_self, Registry.get_of_find h, hm, map_some, bind_some,
      applyChange_get, update_apply, read_of_find h, hm, bind_some]
    simp only [true_and]
  · rw [update_of_ne hn, if_neg fun hc => hn hc.1]
    rfl

theorem contents_change_of_not_live (h : ¬ s.maps.Live id) (k : Key) (c : Option V) :
    contents (s.change id k c).maps = contents s.maps := by
  funext n
  unfold contents Registry.get
  change ((s.maps.find n).bind (s.maps.modify id _).deref).map _ = _
  cases hf : s.maps.find n with
  | none => rfl
  | some i =>
    have hi : i ≠ id := by
      rintro rfl
      exact h ⟨n, hf⟩
    rw [bind_some, bind_some, Registry.deref_modify, if_neg hi]

theorem read_applyWalChange (s : MVStore V) (c : WalChange V) (n : String) (k : Key) :
    (s.applyWalChange c).read n k =
      if n = c.mapName ∧ k = c.key then c.value else s.read n k := by
  have h := read_change (find_openMap_self s c.mapName) c.key c.value n k
  rw [read_openMap] at h
  exact h

def lastChange (n : String) (k : Key) : List (WalChange V) → Option (Option V)
  | [] => none
  | c :: changes =>
    (lastChange n k changes).or (if n = c.mapName ∧ k = c.key then some c.value else none)

theorem lastChange_append (n : String) (k : Key) (cs ds : List (WalChange V)) :
    lastChange n k (cs ++ ds) = (lastChange n k ds).or (lastChange n k cs) := by
  induction cs with
  | nil => simp [lastChange]
  | cons c cs ih => simp only [cons_append, lastChange, ih, Option.or_assoc]

theorem exists_of_lastChange {value : Option V} (h : lastChange n k changes = some value) :
    ⟨n, k, value⟩ ∈ changes := by
  induction changes with
  | nil => cases h
  | cons c changes ih =>
    rw [lastChange, or_eq_some_iff] at h
    -- the last change is in the tail, or is this one
    rcases h with h | ⟨_, h⟩
    · exact mem_cons_of_mem _ (ih h)
    · split_ifs at h with hc
      cases h
      rw [hc.1, hc.2]
      exact mem_cons_self

theorem lastChange_eq_none :
    lastChange n k changes = none ↔ ∀ value, ⟨n, k, value⟩ ∉ changes := by
  constructor
  · induction changes with
    | nil => exact fun _ _ hmem => absurd hmem not_mem_nil
    | cons c changes ih =>
      intro h value hmem
      rw [lastChange, or_eq_none_iff] at h
      rcases mem_cons.mp hmem with rfl | hmem
      · simp at h
      · exact ih h.1 value hmem
  · intro h
    cases hc : lastChange n k changes with
    | none => rfl
    | some value => exact absurd (exists_of_lastChange hc) (h value)

theorem read_applyWalChanges (changes : List (WalChange V)) (s : MVStore V) (n : String) (k : Key) :
    (changes.foldl applyWalChange s).read n k = (lastChange n k changes).getD (s.read n k) := by
  induction changes generalizing s with
  | nil => rfl
  | cons c changes ih =>
    rw [foldl_cons, ih, read_applyWalChange, lastChange]
    -- a later change of the key hides this one
    cases lastChange n k changes with
    | some value => rfl
    | none => by_cases h : n = c.mapName ∧ k = c.key <;> simp [h]

/-! ## Replaying a log -/

theorem read_replayWalChange (s : MVStore V) (c : WalChange V) (n : String) (k : Key) :
    MVStore.read { s with maps := replayWalChange s.maps c } n k =
      if n = c.mapName ∧ k = c.key then c.value else s.read n k := by
  unfold replayWalChange
  split
  · rename_i id hid
    exact read_change hid c.key c.value n k
  · rename_i hnone
    change binding (contents (s.maps.create c.mapName _)) n k = _
    -- a record may name a map that the image does not have
    rw [contents_create]
    by_cases hn : n = c.mapName
    · subst hn
      rw [binding, update_self, bind_some, applyChange_get, update_apply,
        read_of_find_none hnone]
      simp only [true_and]
      split_ifs
      · rfl
      · exact MVTree.get_empty k
    · rw [binding, update_of_ne hn, if_neg fun hc => hn hc.1]
      rfl

theorem read_replayWal (changes : List (WalChange V)) (s : MVStore V) (n : String) (k : Key) :
    MVStore.read { s with maps := changes.foldl replayWalChange s.maps } n k =
      (lastChange n k changes).getD (s.read n k) := by
  induction changes generalizing s with
  | nil => rfl
  | cons c changes ih =>
    have hrest := ih { s with maps := replayWalChange s.maps c }
    rw [read_replayWalChange] at hrest
    rw [foldl_cons, lastChange]
    refine hrest.trans ?_
    cases lastChange n k changes with
    | some value => rfl
    | none => by_cases h : n = c.mapName ∧ k = c.key <;> simp [h]

variable {file : FileImage V}

theorem read_openAt (h : Holds file img) (wal : List (WalRecord V)) :
    ∃ s₀ s, openAt file [] = .ok s₀ ∧ openAt file wal = .ok s ∧ Journaled s₀ s₀ img ∧
      DataStep s₀ s ∧ s.wal = wal ∧ (∀ n id, s₀.maps.find n = some id → s.maps.find n = some id) ∧
      ∀ n k, s.read n k = (lastChange n k (wal.flatMap WalRecord.changes)).getD (binding img n k) := by
  obtain ⟨s₀, hopen₀, hj, hcont, _⟩ := openAt_nil h
  obtain ⟨s, hopen, hstep, hwal, hmaps⟩ := openAt_wal hopen₀ wal
  refine ⟨s₀, s, hopen₀, hopen, hj, hstep, hwal, fun n id hn => ?_, fun n k => ?_⟩
  · rw [hmaps]
    exact find_replayWal hn
  · have hread := read_replayWal (wal.flatMap WalRecord.changes) s₀ n k
    have himg : s₀.read n k = binding img n k := by rw [read, hcont]
    rw [← hmaps, himg] at hread
    exact hread

variable {wal : List (WalRecord V)}

theorem openAt_versions (h : openAt file wal = .ok s) :
    s.nextCommitVersion = s.version ∧ s.version =
      wal.foldl (fun v r => if v < r.commitVersion then r.commitVersion else v) file.version := by
  unfold openAt at h
  split at h
  · cases h
  · cases h
    exact ⟨rfl, rfl⟩

theorem openAt_file (h : openAt file wal = .ok s) :
    s.file = file := by
  unfold openAt at h
  split at h
  · cases h
  · cases h
    rfl

inductive Edited : MVStore V → MVStore V → Prop where
  | frame {s s' : MVStore V} (maps : s'.maps = s.maps) (file : s'.file = s.file)
      (hasCheckpoint : s'.hasCheckpoint = s.hasCheckpoint)
      (checkpointedMaps : s'.checkpointedMaps = s.checkpointedMaps) : Edited s s'
  | openMap (s : MVStore V) (name : String) : Edited s (s.openMap name).2
  | change (s : MVStore V) (id : Nat) (k : Key) (c : Option V) : Edited s (s.change id k c)
  | trans {s s' s'' : MVStore V} : Edited s s' → Edited s' s'' → Edited s s''

theorem Edited.refl (s : MVStore V) : Edited s s := .frame rfl rfl rfl rfl

theorem Edited.applyWalChange (s : MVStore V) (c : WalChange V) : Edited s (s.applyWalChange c) :=
  (Edited.openMap s c.mapName).trans (Edited.change _ _ c.key c.value)

theorem Edited.foldl {α : Type} {f : MVStore V → α → MVStore V} (hf : ∀ s a, Edited s (f s a))
    (as : List α) (s : MVStore V) : Edited s (as.foldl f s) := by
  induction as generalizing s with
  | nil => exact Edited.refl s
  | cons a as ih => exact (hf s a).trans (ih _)

theorem Edited.find (h : Edited s s') (hn : s.maps.find n = some id) : s'.maps.find n = some id := by
  induction h with
  | frame maps => rw [maps, hn]
  | openMap s name => exact find_openMap hn
  | change s id k c => exact hn
  | trans _ _ ih ih' => exact ih' (ih hn)

theorem Edited.dataStep (h : Edited s s') : DataStep s s' := by
  induction h with
  | @frame s s' maps file hasCheckpoint checkpointedMaps =>
    refine ⟨file, hasCheckpoint, checkpointedMaps, by rw [maps], fun n id m hn hm => ?_⟩
    rw [maps] at hn hm
    exact .inl ⟨n, m, hn, hm, MapStep.refl m⟩
  | openMap s name => exact dataStep_openMap s name
  | change s id k c => exact dataStep_update s id fun m => mapStep_applyChange m k c
  | trans _ _ ih ih' => exact ih.trans ih'

/-! ## Keys the next image has right -/

def nextRead (s : MVStore V) (img : Contents V) (n : String) (k : Key) : Option V :=
  binding (s.nextImage img) n k

/-- The next image has the key as the store has it, and goes on having it when the map is created. -/
def Tracked (s : MVStore V) (img : Contents V) (n : String) (k : Key) : Prop :=
  s.nextRead img n k = s.read n k ∧ (s.maps.find n = none → s.needsRoot n = true)

/-- What `Tracked` needs of the journals. -/
structure Armed (s : MVStore V) (img : Contents V) : Prop where
  known : s.Known img
  enabled : s.hasCheckpoint = true → s.AllEnabled

theorem Journaled.armed {atImage : MVStore V} (h : Journaled s atImage img) :
    Armed s img := ⟨h.known, h.enabled⟩

theorem Armed.dataStep (h : Armed s img) (hd : DataStep s s') : Armed s' img := by
  refine ⟨fun hcp n => ?_, fun hcp => ?_⟩
  · rw [hd.checkpointedMaps]
    exact h.known (hd.hasCheckpoint ▸ hcp) n
  · exact hd.allEnabled (hd.hasCheckpoint ▸ hcp) (h.enabled (hd.hasCheckpoint ▸ hcp))

theorem nextRead_of_needsRoot {s : MVStore V} (h : s.needsRoot n = true)
    (img : Contents V) (k : Key) : s.nextRead img n k = s.read n k := by
  unfold nextRead read binding nextImage contents
  simp only [h, if_true]
  cases s.maps.get n <;> rfl

theorem nextRead_of_get_none (h : s.maps.get n = none) (img : Contents V) (k : Key) :
    s.nextRead img n k = none := by
  rw [nextRead, binding, nextImage, h]
  rfl

theorem nextRead_congr (hget : s'.maps.get n = s.maps.get n) (hroot : s'.needsRoot n = s.needsRoot n)
    (img : Contents V) (k : Key) :
    s'.nextRead img n k = s.nextRead img n k := by
  unfold nextRead binding nextImage
  rw [hget, hroot]

theorem nextRead_of_known {s : MVStore V} (hk : s.Known img)
    (h : s.needsRoot n = false) (hm : s.maps.get n = some m) :
    ∃ f, img n = some f ∧ ∀ k, s.nextRead img n k = m.journal.patch.apply f k := by
  obtain ⟨f, hf⟩ := hk.image h
  refine ⟨f, hf, fun k => ?_⟩
  unfold nextRead binding nextImage
  rw [hm, bind_some, h, if_neg Bool.false_ne_true, hf, map_some, bind_some]

theorem nextRead_of_tracks (hk : s.Known img) (hm : s.maps.get n = some m)
    {base : Key → Option V} (hb : m.Tracks base) (k : Key) :
    s.nextRead img n k = s.read n k ∨
      (s.read n k = base k ∧ s.nextRead img n k = binding img n k) := by
  cases hroot : s.needsRoot n with
  | true => exact .inl (nextRead_of_needsRoot hroot img k)
  | false =>
    obtain ⟨f, hf, hnext⟩ := nextRead_of_known hk hroot hm
    have hread : s.read n k = m.journal.patch.apply base k := by rw [hb, read_of_get hm]
    rw [hnext, hread]
    -- the journal has an entry for the key, or begins with a clear, or says nothing about it
    cases hlookup : m.journal.patch.changes.lookup k with
    | some c =>
      left
      rw [Patch.apply_eq_of_lookup hlookup, Patch.apply_eq_of_lookup hlookup]
    | none =>
      rw [Patch.apply_eq_of_none hlookup, Patch.apply_eq_of_none hlookup]
      split_ifs
      · exact .inl rfl
      · right
        rw [binding, hf]
        exact ⟨rfl, rfl⟩

theorem applyChange_patch (hon : m.journal.enabled = true) (k : Key) (c : Option V) :
    (applyChange m k c).journal.patch = m.journal.patch.set k c ∨
      (c = none ∧ m.get k = none ∧ (applyChange m k c).journal.patch = m.journal.patch) := by
  cases c with
  | some v =>
    left
    simp only [applyChange, MVMap.put, MapJournal.record, hon, if_true]
  | none =>
    have hsnd : (m.tree.remove k).2 = m.get k := m.remove_snd k
    cases hk : m.get k with
    | none =>
      right
      refine ⟨rfl, rfl, ?_⟩
      simp [applyChange, MVMap.remove, hsnd, hk]
    | some v =>
      left
      simp [applyChange, MVMap.remove, hsnd, hk, MapJournal.record, hon]

/-- Through a live handle the next image changes with the store, but for the removal of a key that is
not there. -/
theorem nextRead_change (ha : Armed s img) (h : s.maps.find n = some id) (k : Key) (c : Option V)
    (n' : String) (k' : Key) :
    (s.change id k c).nextRead img n' k' = (if n' = n ∧ k' = k then c else s.nextRead img n' k') ∨
      (c = none ∧ s.read n k = none ∧
        (s.change id k c).nextRead img n' k' = s.nextRead img n' k') := by
  by_cases hn : n' = n
  · subst hn
    obtain ⟨m, hm⟩ := Registry.deref_of_find h
    have hget : s.maps.get n' = some m := (Registry.get_of_find h).trans hm
    have hget' : (s.change id k c).maps.get n' = some (applyChange m k c) := by
      change (s.maps.modify id _).get n' = _
      rw [Registry.get_modify h, if_pos rfl, hget, map_some]
    cases hroot : s.needsRoot n' with
    | true =>
      left
      rw [nextRead_of_needsRoot (s := s.change id k c) hroot, read_change h,
        nextRead_of_needsRoot hroot]
    | false =>
      have hon : m.journal.enabled = true :=
        ha.enabled (needsRoot_eq_false.mp hroot).1 n' m hget
      obtain ⟨f, hf, hnext⟩ := nextRead_of_known ha.known hroot hget
      obtain ⟨f', hf', hnext'⟩ := nextRead_of_known (s := s.change id k c) ha.known hroot hget'
      cases hf.symm.trans hf'
      rw [hnext', hnext]
      -- removing a key that is not there is not journaled; the image may still have it
      rcases applyChange_patch hon k c with hp | ⟨hc, hk, hp⟩
      · left
        rw [hp, Patch.apply_set, update_apply]
        simp only [true_and]
      · right
        refine ⟨hc, ?_, by rw [hp]⟩
        rw [read_of_find h, hm, bind_some, hk]
  · left
    rw [if_neg fun hc => hn hc.1]
    have hget' : (s.change id k c).maps.get n' = s.maps.get n' := by
      change (s.maps.modify id _).get n' = _
      rw [Registry.get_modify h, if_neg hn]
    exact nextRead_congr hget' rfl img k'

theorem nextImage_change_of_not_live (h : ¬ s.maps.Live id) (k : Key) (c : Option V) (img : Contents V) :
    (s.change id k c).nextImage img = s.nextImage img := by
  funext n
  have hget : (s.change id k c).maps.get n = s.maps.get n := by
    unfold Registry.get
    change (s.maps.find n).bind (s.maps.modify id _).deref = _
    cases hf : s.maps.find n with
    | none => rfl
    | some i =>
      have hi : i ≠ id := by
        rintro rfl
        exact h ⟨n, hf⟩
      rw [bind_some, bind_some, Registry.deref_modify, if_neg hi]
  unfold nextImage
  rw [hget]
  rfl

theorem Tracked.change (ha : Armed s img) (h : s.Tracked img n k) (id : Nat) (k' : Key) (c : Option V) :
    (s.change id k' c).Tracked img n k := by
  refine ⟨?_, h.2⟩
  -- a handle whose map was dropped reaches neither the store nor the image
  by_cases hlive : s.maps.Live id
  · obtain ⟨n', hn'⟩ := hlive
    rw [read_change hn']
    rcases nextRead_change ha hn' k' c n k with hnext | ⟨rfl, hnone, hnext⟩
    · rw [hnext, h.1]
    · rw [hnext, h.1]
      -- the removal of an absent key changes nothing on either side
      split_ifs with heq
      · rw [heq.1, heq.2, hnone]
      · rfl
  · rw [nextRead, nextImage_change_of_not_live hlive, read, contents_change_of_not_live hlive]
    exact h.1

theorem tracked_put (ha : Armed s img) (h : s.maps.find n = some id) (k : Key) (v : V) :
    (s.change id k (some v)).Tracked img n k := by
  refine ⟨?_, fun hnone => ?_⟩
  · rcases nextRead_change ha h k (some v) n k with hnext | ⟨hc, _⟩
    · rw [hnext, read_change h, if_pos ⟨rfl, rfl⟩, if_pos ⟨rfl, rfl⟩]
    · cases hc
  · rw [find_change, h] at hnone
    cases hnone

theorem Tracked.create (h : s.Tracked img n k) {name : String} (hnone : s.maps.find name = none)
    (m : MVMap V) :
    Tracked { s with maps := s.maps.create name m } img n k := by
  by_cases hn : n = name
  · subst hn
    have hroot := h.2 hnone
    exact ⟨nextRead_of_needsRoot (s := { s with maps := s.maps.create n m }) hroot img k,
      fun _ => hroot⟩
  · have hget : (s.maps.create name m).get n = s.maps.get n := by
      rw [Registry.get_create, if_neg hn]
    refine ⟨?_, fun hf => ?_⟩
    · have hread : MVStore.read { s with maps := s.maps.create name m } n k = s.read n k := by
        unfold read binding contents
        rw [hget]
      rw [hread, ← h.1]
      refine nextRead_congr ?_ ?_ img k
      · exact hget
      · rfl
    · refine h.2 ?_
      change (s.maps.create name m).find n = none at hf
      rwa [Registry.find_create, if_neg hn] at hf

theorem Tracked.openMap (h : s.Tracked img n k) (name : String) : (s.openMap name).2.Tracked img n k := by
  unfold MVStore.openMap
  split
  · exact h
  · rename_i hnone
    exact h.create hnone _

theorem Tracked.edited (ha : Armed s img) (h : s.Tracked img n k) (he : Edited s s') :
    s'.Tracked img n k := by
  induction he with
  | @frame s s' maps file hasCheckpoint checkpointedMaps =>
    unfold Tracked nextRead binding nextImage needsRoot
    rw [read_congr maps, maps, hasCheckpoint, checkpointedMaps]
    exact h
  | openMap s name => exact h.openMap name
  | change s id k' c => exact h.change ha id k' c
  | trans he _ ih ih' => exact ih' (ha.dataStep he.dataStep) (ih ha h)

end H2Database.Mvstore.MVStore
