import H2Database.Mvstore.Edits

/-!
# Runs of a store

Runs of the store's operations in any order.  A `Traced` state keeps, beside the store, the store as it
was when the image in the file was last written or read; `journaled_step` carries the invariant of the
journals over a run.
-/

namespace H2Database.Mvstore.MVStore

open Reasoning

variable {V : Type}

/-- The operations of a store.  Maps are reached by handle or by name; `publish` and `sync` are the
answers to the writes. -/
inductive StoreOp where
  | openMap (name : String)
  | put (handle : Nat) (key : Key) (value : Stored)
  | remove (handle : Nat) (key : Key)
  | clear (handle : Nat)
  | clearMap (name : String)
  | renameMap (oldName newName : String)
  | removeMap (name : String)
  | commit (txId : Nat) (changes : List (WalChange Stored)) (sync : H2Result Unit)
  | checkpoint (publish : H2Result Unit)
  | reclaim (publish : H2Result Unit)
  | compact (publish : H2Result Unit)
  | reopen

def StoreOp.keepsFile : StoreOp → Bool
  | .checkpoint _ | .reclaim _ | .compact _ | .reopen => false
  | _ => true

def step (s : MVStore Stored) : StoreOp → MVStore Stored
  | .openMap name => (s.openMap name).2
  | .put handle key value => s.update handle fun m => m.put key value
  | .remove handle key => s.update handle fun m => (m.remove key).1
  | .clear handle => s.update handle MVMap.clear
  | .clearMap name => s.clearMap name
  | .renameMap oldName newName => (s.renameMap oldName newName).2
  | .removeMap name => (s.removeMap name).2
  | .commit txId changes sync => (s.commitWith txId (fun _ s => (.ok changes, s)) sync).2
  | .checkpoint publish => (s.checkpoint ⟨publish, .ok ()⟩).2
  | .reclaim publish => (s.reclaimCheckpointHistory ⟨publish, .ok ()⟩).2
  | .compact publish => (s.compact ⟨publish, .ok ()⟩).2
  | .reopen => (openAt s.file s.wal).toOption.getD s

/-- The store, and the store as it was when the image in its file was written or read. -/
structure Traced where
  store : MVStore Stored
  atImage : MVStore Stored

namespace Traced

def init : Traced := ⟨new, new⟩

def step (t : Traced) (op : StoreOp) : Traced where
  store := t.store.step op
  atImage :=
    match op with
    | .checkpoint (.ok ()) | .reclaim (.ok ()) | .compact (.ok ()) => t.store.step op
    | .reopen => (openAt t.store.file []).toOption.getD t.atImage
    | _ => t.atImage

def imageAfter (t : Traced) (img : Contents Stored) : StoreOp → Contents Stored
  | .checkpoint (.ok ()) => t.store.nextImage img
  | .reclaim (.ok ()) => contents t.store.maps
  | .compact (.ok ()) => t.store.compacted
  | _ => img

/-- The condition on the two operations that write an image without switching journals on. -/
def JournalsOn (t : Traced) : StoreOp → Prop
  | .reclaim (.ok ()) | .compact (.ok ()) => t.store.AllEnabled
  | _ => True

end Traced

variable {op : StoreOp}

theorem dataStep_step (s : MVStore Stored) (h : op.keepsFile = true) :
    DataStep s (s.step op) := by
  cases op with
  | openMap name => exact dataStep_openMap s name
  | put handle key value => exact dataStep_update s handle fun m => mapStep_put m key value
  | remove handle key => exact dataStep_update s handle fun m => mapStep_remove m key
  | clear handle => exact dataStep_update s handle mapStep_clear
  | clearMap name => exact dataStep_clearMap s name
  | renameMap oldName newName => exact dataStep_renameMap s oldName newName
  | removeMap name => exact dataStep_removeMap s name
  | commit txId changes sync =>
    have hc := dataStep_commitRecord { s with nextCommitVersion := s.nextCommitVersion + 1 }
      { txId, commitVersion := s.nextCommitVersion + 1, changes } sync
    exact ⟨hc.file, hc.hasCheckpoint, hc.checkpointedMaps, hc.objects, hc.live⟩
  | checkpoint publish => cases h
  | reclaim publish => cases h
  | compact publish => cases h
  | reopen => cases h

theorem Traced.step_of_keepsFile (t : Traced) (h : op.keepsFile = true) (img : Contents Stored) :
    (t.step op).atImage = t.atImage ∧ t.imageAfter img op = img := by
  cases op <;> first | exact ⟨rfl, rfl⟩ | cases h

theorem journaled_init : Journaled Traced.init.store Traced.init.atImage fun _ => none where
  holds := holds_new
  known h := by cases h
  cached _ _ hm := by cases hm
  enabled h := by cases h
  handles _ _ h := by cases h
  own h := by cases h
  tracks h := by cases h
  based h := by cases h

theorem dataStep_cache (s : MVStore V) :
    DataStep s { s with maps := s.maps.mapNamed fun _ m => m.getSerializedRoot.2 } := by
  refine ⟨rfl, rfl, rfl, ?_, fun n id m' hn hm' => ?_⟩
  · simp only [Registry.mapNamed, List.length_mapIdx]
    exact Nat.le_refl _
  · change s.maps.find n = some id at hn
    change (s.maps.mapNamed fun _ m => m.getSerializedRoot.2).deref id = some m' at hm'
    rw [Registry.deref_mapNamed hn, Option.map_eq_some_iff] at hm'
    obtain ⟨m, hm, rfl⟩ := hm'
    obtain ⟨htree, hjournal, _⟩ := m.getSerializedRoot_snd
    refine .inl ⟨n, m, hn, hm, MVMap.getSerializedRoot_cached, by rw [hjournal], ?_⟩
    intro _ base ht
    have hget : m.getSerializedRoot.2.get = m.get := congrArg MVTree.get htree
    rw [MVMap.Tracks, hget, hjournal]
    exact ht

theorem journaled_step {t : Traced} {img : Contents Stored}
    (h : Journaled t.store t.atImage img) (hop : t.JournalsOn op) :
    Journaled (t.step op).store (t.step op).atImage (t.imageAfter img op) := by
  by_cases hkeeps : op.keepsFile = true
  · obtain ⟨himage, himg⟩ := t.step_of_keepsFile hkeeps img
    rw [himage, himg]
    exact h.dataStep (dataStep_step t.store hkeeps)
  cases op with
  | checkpoint publish =>
    cases publish with
    | error e => exact h.unpublished
    | ok _ =>
      -- the store a checkpoint leaves is its own image store
      exact h.published.withWal [] []
  | reclaim publish =>
    cases publish with
    | error e => exact h.dataStep (dataStep_cache t.store)
    -- the two rewrites do not switch journals on, hence their condition
    | ok _ => exact (reclaim_journaled h.cached hop rfl).1
  | compact publish =>
    cases publish with
    | error e => exact h
    | ok _ => exact (compact_journaled h.cached hop rfl).1
  | reopen =>
    -- the image store is the file alone; the log comes on top of it as a data step
    obtain ⟨s₀, hopen₀, hj, _, _⟩ := openAt_nil h.holds
    obtain ⟨s, hopen, hdata, _, _⟩ := openAt_wal hopen₀ t.store.wal
    have hstore : (t.step .reopen).store = s := by
      simp only [Traced.step, MVStore.step, hopen]
      rfl
    have himage : (t.step .reopen).atImage = s₀ := by
      simp only [Traced.step, hopen₀]
      rfl
    rw [hstore, himage]
    exact hj.dataStep hdata
  | openMap | put | remove | clear | clearMap | renameMap | removeMap | commit =>
    exact absurd rfl hkeeps

end H2Database.Mvstore.MVStore
