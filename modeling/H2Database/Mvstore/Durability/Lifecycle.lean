import H2Database.Mvstore.Durability.Journals

/-!
# The life cycle of maps

A delta knows a map by its name.  It says the right thing about a map that had this name when the last
image was written, and about one that was cleared since.
-/

namespace H2Database.Mvstore.MVStore

open Reasoning

def StoreOp.isLifecycle : StoreOp → Bool
  | .commit _ _ _ | .reclaim _ | .compact _ | .reopen => false
  | _ => true

/-- Every map the last image knew by name is the object it was then, or has been emptied since. -/
def SameObjects (t : Traced) : Prop :=
  ∀ n id m, t.store.maps.find n = some id → t.store.maps.deref id = some m →
    (t.store.checkpointedMaps.lookup n).isSome →
    t.atImage.maps.find n = some id ∨ m.journal.patch.clear = true

def Traced.SameAtCheckpoint (t : Traced) : StoreOp → Prop
  | .checkpoint (.ok ()) => SameObjects t
  | _ => True

/-- The file holds the bindings of the store when the image was written. -/
def Exact (t : Traced) : Prop := Journaled t.store t.atImage (contents t.atImage.maps)

variable {t : Traced}

theorem nextImage_exact (h : Exact t) (hsame : SameObjects t) :
    t.store.nextImage (contents t.atImage.maps) = contents t.store.maps := by
  funext n
  unfold nextImage
  cases hm : t.store.maps.get n with
  | none => simp [contents, hm]
  | some m =>
    have hlive : contents t.store.maps n = some m.get := by rw [contents, hm]; rfl
    rw [Option.bind_some, hlive]
    by_cases hroot : t.store.needsRoot n = true
    · rw [if_pos hroot]
    · rw [if_neg hroot]
      have hroot := Bool.eq_false_iff.mpr hroot
      obtain ⟨hcp, hknown⟩ := needsRoot_eq_false.mp hroot
      obtain ⟨f, hf⟩ := h.known.image hroot
      rw [hf, Option.map_some]
      congr 1
      cases hid : t.store.maps.find n with
      | none =>
        rw [Registry.get_eq_none.mpr hid] at hm
        cases hm
      | some id =>
        have hderef := (Registry.get_of_find hid).symm.trans hm
        -- the journal is a difference to the contents of the image, or begins with a clear
        rcases hsame n id m hid hderef hknown with hown | hclear
        · exact h.tracks hcp n id m f hown hf ⟨n, hid⟩ hderef
        · obtain ⟨base, hb⟩ := h.based hcp n m hm
          exact hb.of_clear hclear f

theorem exact_checkpoint (h : Exact t)
    (hnext : t.store.nextImage (contents t.atImage.maps) = contents t.store.maps) :
    Exact (t.step (.checkpoint (.ok ()))) := by
  have hj : Journaled (t.step (.checkpoint (.ok ()))).store (t.step (.checkpoint (.ok ()))).atImage
      (t.store.nextImage (contents t.atImage.maps)) := journaled_step h trivial
  have hcont : contents (t.step (.checkpoint (.ok ()))).atImage.maps =
      t.store.nextImage (contents t.atImage.maps) := by
    rw [hnext]
    exact (settled_published h.enabled).contents
  rw [Exact, hcont]
  exact hj

theorem wal_step {s : MVStore Stored} {op : StoreOp} (hop : op.isLifecycle = true)
    (h : s.wal = []) : (s.step op).wal = [] := by
  cases op with
  | openMap name =>
    simp only [step, openMap]
    split <;> exact h
  | put handle key value => exact h
  | remove handle key => exact h
  | clear handle => exact h
  | clearMap name =>
    simp only [step, clearMap]
    split <;> exact h
  | renameMap oldName newName =>
    simp only [step, renameMap]
    split <;> exact h
  | removeMap name => exact h
  | checkpoint publish =>
    cases publish with
    | error e => exact h
    | ok _ => rfl
  | commit | reclaim | compact | reopen => cases hop

theorem exact_step {op : StoreOp} (h : Exact t) (hop : op.isLifecycle = true)
    (hsame : t.SameAtCheckpoint op) : Exact (t.step op) := by
  by_cases hkeeps : op.keepsFile = true
  · rw [Exact, (t.step_of_keepsFile hkeeps (contents t.atImage.maps)).1]
    exact h.dataStep (dataStep_step t.store hkeeps)
  cases op with
  | checkpoint publish =>
    cases publish with
    | error e => exact h.unpublished
    | ok _ => exact exact_checkpoint h (nextImage_exact h hsame)
  | openMap | put | remove | clear | clearMap | renameMap | removeMap => exact absurd rfl hkeeps
  | commit | reclaim | compact | reopen => cases hop

theorem exact_init : Exact Traced.init := journaled_init

theorem Exact.reopen (h : Exact t) (hw : t.store.wal = []) :
    ∃ s, openAt t.store.file t.store.wal = .ok s ∧
      contents s.maps = contents t.atImage.maps := by
  obtain ⟨s, hopen, _, hcont, _⟩ := openAt_nil h.holds
  exact ⟨s, by rw [hw, hopen], hcont⟩

/-- In every run of map operations whose checkpoints find the same objects under the names of the last
image, the file opens to exactly the maps and bindings of the last checkpoint. -/
theorem reopen_lifecycle (ops : List StoreOp) (hops : ∀ op ∈ ops, op.isLifecycle = true)
    (hm : Meets Traced.step Traced.SameAtCheckpoint Traced.init ops) :
    let t := runs Traced.step Traced.init ops
    ∃ s, openAt t.store.file t.store.wal = .ok s ∧
      contents s.maps = contents t.atImage.maps := by
  intro t
  have hstep : ∀ (t : Traced) (op : StoreOp), (Exact t ∧ t.store.wal = []) →
      (op.isLifecycle = true ∧ t.SameAtCheckpoint op) →
      Exact (t.step op) ∧ (t.step op).store.wal = [] := by
    intro t op hexact hop
    exact ⟨exact_step hexact.1 hop.1 hop.2, wal_step hop.1 hexact.2⟩
  obtain ⟨h, hw⟩ := invariant_runs hstep ⟨exact_init, rfl⟩ (hm.and_mem hops)
  exact h.reopen hw

theorem sameObjects_iff (t : Traced) :
    SameObjects t ↔ ∀ e ∈ t.store.maps.names.entries,
      (t.store.checkpointedMaps.lookup e.1).isSome →
      t.atImage.maps.find e.1 = some e.2 ∨
        (t.store.maps.deref e.2).any (fun m => m.journal.patch.clear) = true := by
  constructor
  · intro h e he hknown
    have hf : t.store.maps.find e.1 = some e.2 := AList.mem_lookup_iff.mpr he
    obtain ⟨m, hm⟩ := Registry.deref_of_find hf
    refine (h e.1 e.2 m hf hm hknown).imp id fun hclear => ?_
    rw [hm]
    exact hclear
  · intro h n id m hf hm hknown
    refine (h ⟨n, id⟩ (AList.mem_lookup_iff.mp hf) hknown).imp (fun h => h) fun hclear => ?_
    rw [hm] at hclear
    exact hclear

instance (t : Traced) : Decidable (SameObjects t) := decidable_of_iff' _ (sameObjects_iff t)

/-- A map is renamed, dropped and created again, and emptied before the second checkpoint. -/
theorem reopen_lifecycle_sample :
    let ops : List StoreOp := [.openMap "a", .put 0 [1] (.raw [7]), .checkpoint (.ok ()),
      .renameMap "a" "b", .openMap "a", .clearMap "a", .put 1 [2] (.raw [8]),
      .checkpoint (.ok ())]
    Meets Traced.step Traced.SameAtCheckpoint Traced.init ops ∧
      ∃ s, openAt (runs Traced.step Traced.init ops).store.file
          (runs Traced.step Traced.init ops).store.wal = .ok s ∧
        contents s.maps = contents (runs Traced.step Traced.init ops).atImage.maps := by
  intro ops
  have hm : Meets Traced.step Traced.SameAtCheckpoint Traced.init ops :=
    ⟨trivial, trivial, by change SameObjects _; decide +kernel, trivial, trivial, trivial, trivial,
      by change SameObjects _; decide +kernel, trivial⟩
  exact ⟨hm, reopen_lifecycle ops (by decide) hm⟩

/-- A map dropped and created again between two checkpoints comes back with the old key. -/
theorem recreated_map_keeps_key :
    let t := runs Traced.step Traced.init [.openMap "a", .put 0 [1] (.raw [7]),
      .checkpoint (.ok ()), .removeMap "a", .openMap "a", .checkpoint (.ok ())]
    binding (contents t.atImage.maps) "a" [1] = none ∧
      (openAt t.store.file t.store.wal).toOption.map
        (fun s => binding (contents s.maps) "a" [1]) = some (some (.raw [7])) := by
  decide +kernel

end H2Database.Mvstore.MVStore
