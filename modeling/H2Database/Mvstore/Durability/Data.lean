import H2Database.Mvstore.Durability.Lifecycle

/-!
# Data operations on a fixed set of maps
-/

namespace H2Database.Mvstore.MVStore

open Reasoning

variable {V : Type}

/-- Puts, removals and clears through handles, checkpoints and rewrites of the history. -/
def StoreOp.isData : StoreOp → Bool
  | .put _ _ _ | .remove _ _ | .clear _ | .checkpoint _ | .reclaim _ => true
  | _ => false

def StoreOp.isPersistent : StoreOp → Bool
  | .checkpoint _ | .reclaim _ | .compact _ => true
  | _ => false

/-- The first persistent operation, if there is one, is `checkpoint`. -/
def firstIsCheckpoint : List StoreOp → Bool
  | [] => true
  | .checkpoint _ :: _ => true
  | op :: ops => !op.isPersistent && firstIsCheckpoint ops

structure Unstarted (t : Traced) : Prop where
  exact_ : Exact t
  wal : t.store.wal = []
  hasCheckpoint : t.store.hasCheckpoint = false

/-- A checkpoint has been tried: all journals are on, and the names have not moved since the image was
written. -/
structure Started (t : Traced) : Prop where
  exact_ : Exact t
  wal : t.store.wal = []
  enabled : t.store.AllEnabled
  names : t.store.hasCheckpoint = true → t.store.maps.find = t.atImage.maps.find

variable {t : Traced}

theorem Unstarted.step {op : StoreOp} (h : Unstarted t) (hkeeps : op.keepsFile = true)
    (hop : op.isLifecycle = true) : Unstarted (t.step op) := by
  have hdata := dataStep_step t.store hkeeps
  refine ⟨?_, wal_step hop h.wal, hdata.hasCheckpoint.trans h.hasCheckpoint⟩
  rw [Exact, (t.step_of_keepsFile hkeeps (contents t.atImage.maps)).1]
  exact Journaled.dataStep h.exact_ hdata

theorem Unstarted.checkpoint (h : Unstarted t) (publish : H2Result Unit) :
    Started (t.step (.checkpoint publish)) := by
  have hoff : t.store.hasCheckpoint = true → t.store.AllEnabled := fun hcp => by
    rw [h.hasCheckpoint] at hcp
    cases hcp
  cases publish with
  | error e =>
    refine ⟨Journaled.unpublished h.exact_, h.wal, t.store.unpublished_allEnabled hoff, ?_⟩
    intro hcp
    exact absurd (h.hasCheckpoint.symm.trans hcp) Bool.false_ne_true
  | ok _ =>
    have hexact := exact_checkpoint h.exact_ (nextImage_first h.hasCheckpoint _)
    exact ⟨hexact, rfl, Journaled.enabled hexact rfl, fun _ => rfl⟩

theorem allEnabled_update {s : MVStore V} (h : s.AllEnabled) (id : Nat) {f : MVMap V → MVMap V}
    (hf : ∀ m, MapStep m (f m)) : (s.update id f).AllEnabled := by
  intro n m' hm'
  obtain ⟨m, hm, rfl | rfl⟩ := Registry.get_modify_eq_some hm'
  · exact h n m' hm
  · exact (hf m).enabled.trans (h n m hm)

theorem Started.update (h : Started t) (id : Nat)
    {f : MVMap Stored → MVMap Stored} (hf : ∀ m, MapStep m (f m)) :
    Started ⟨t.store.update id f, t.atImage⟩ :=
  ⟨Journaled.dataStep h.exact_ (dataStep_update t.store id hf), h.wal,
    allEnabled_update h.enabled id hf, h.names⟩

theorem Started.checkpoint (h : Started t) (publish : H2Result Unit) :
    Started (t.step (.checkpoint publish)) := by
  cases publish with
  | error e =>
    exact ⟨Journaled.unpublished h.exact_, h.wal, t.store.unpublished_allEnabled fun _ => h.enabled,
      h.names⟩
  | ok _ =>
    have hnext : t.store.nextImage (contents t.atImage.maps) = contents t.store.maps := by
      cases hcp : t.store.hasCheckpoint with
      | false => exact nextImage_first hcp _
      | true => exact nextImage_exact h.exact_ fun n id m hn _ _ => Or.inl (h.names hcp ▸ hn)
    have hexact := exact_checkpoint h.exact_ hnext
    exact ⟨hexact, rfl, Journaled.enabled hexact rfl, fun _ => rfl⟩

theorem Started.reclaim (h : Started t) (publish : H2Result Unit) :
    Started (t.step (.reclaim publish)) := by
  have hj : Journaled t.store t.atImage (contents t.atImage.maps) := h.exact_
  cases publish with
  | error e =>
    refine ⟨hj.dataStep (dataStep_cache t.store), h.wal, fun n m' hm' => ?_, h.names⟩
    change (t.store.maps.mapNamed fun _ m => m.getSerializedRoot.2).get n = some m' at hm'
    rw [Registry.get_mapNamed, Option.map_eq_some_iff] at hm'
    obtain ⟨m, hm, rfl⟩ := hm'
    rw [m.getSerializedRoot_snd.2.1]
    exact h.enabled n m hm
  | ok _ =>
    obtain ⟨hj', hcont, _⟩ := reclaim_journaled hj.cached h.enabled rfl
    refine ⟨?_, rfl, hj'.enabled rfl, fun _ => rfl⟩
    change Journaled _ _ (contents (t.store.reclaimCheckpointHistory .done).2.maps)
    rw [hcont]
    exact hj'

theorem Started.step {op : StoreOp} (h : Started t) (hop : op.isData = true) :
    Started (t.step op) := by
  cases op with
  | put handle key value => exact h.update handle fun m => mapStep_put m key value
  | remove handle key => exact h.update handle fun m => mapStep_remove m key
  | clear handle => exact h.update handle mapStep_clear
  | checkpoint publish => exact h.checkpoint publish
  | reclaim publish => exact h.reclaim publish
  | openMap | clearMap | renameMap | removeMap | commit | compact | reopen => cases hop

theorem Started.runs {ops : List StoreOp} (h : Started t)
    (hops : ∀ op ∈ ops, op.isData = true) : Started (runs Traced.step t ops) := by
  induction ops generalizing t with
  | nil => exact h
  | cons op ops ih =>
    exact ih (h.step (hops op List.mem_cons_self)) fun o ho => hops o (List.mem_cons_of_mem _ ho)

theorem Unstarted.runs {ops : List StoreOp} (h : Unstarted t)
    (hops : ∀ op ∈ ops, op.isData = true) (hfirst : firstIsCheckpoint ops = true) :
    Exact (runs Traced.step t ops) ∧ (runs Traced.step t ops).store.wal = [] := by
  induction ops generalizing t with
  | nil => exact ⟨h.exact_, h.wal⟩
  | cons op ops ih =>
    have hop := hops op List.mem_cons_self
    have hrest : ∀ o ∈ ops, o.isData = true := fun o ho => hops o (List.mem_cons_of_mem _ ho)
    cases op with
    | checkpoint publish =>
      have hs := (h.checkpoint publish).runs hrest
      exact ⟨hs.exact_, hs.wal⟩
    | put handle key value => exact ih (h.step rfl rfl) hrest hfirst
    | remove handle key => exact ih (h.step rfl rfl) hrest hfirst
    | clear handle => exact ih (h.step rfl rfl) hrest hfirst
    | reclaim publish => cases hfirst
    | openMap | clearMap | renameMap | removeMap | commit | compact | reopen => cases hop

theorem unstarted_openMaps (names : List String) (h : Unstarted t) :
    Unstarted (runs Traced.step t (names.map StoreOp.openMap)) := by
  induction names generalizing t with
  | nil => exact h
  | cons name names ih => exact ih (h.step rfl rfl)

/-- For data operations on a fixed set of maps, starting on a new file with `checkpoint` as the first
persistent operation, the file always opens to exactly the bindings of the last checkpoint. -/
theorem reopen_data (names : List String) (ops : List StoreOp)
    (hops : ∀ op ∈ ops, op.isData = true) (hfirst : firstIsCheckpoint ops = true) :
    let t := runs Traced.step Traced.init (names.map StoreOp.openMap ++ ops)
    ∃ s, openAt t.store.file t.store.wal = .ok s ∧
      contents s.maps = contents t.atImage.maps := by
  intro t
  have hstart : Unstarted Traced.init := ⟨exact_init, rfl, rfl⟩
  obtain ⟨h, hw⟩ := (unstarted_openMaps names hstart).runs hops hfirst
  rw [← runs_append] at h hw
  exact h.reopen hw

/-- A removal of an absent key, a clear and a rewrite of the history between two checkpoints. -/
theorem reopen_data_sample :
    let ops : List StoreOp := [.put 0 [1] (.raw [7]), .checkpoint (.ok ()), .remove 0 [9],
      .clear 0, .reclaim (.ok ()), .put 1 [2] (.raw [8]), .checkpoint (.ok ()), .remove 1 [2]]
    let t := runs Traced.step Traced.init (["a", "b"].map StoreOp.openMap ++ ops)
    binding (contents t.atImage.maps) "b" [2] = some (.raw [8]) ∧
      ∃ s, openAt t.store.file t.store.wal = .ok s ∧
        contents s.maps = contents t.atImage.maps := by
  intro ops t
  exact ⟨by decide +kernel, reopen_data ["a", "b"] ops (by decide) (by decide)⟩

end H2Database.Mvstore.MVStore
