import H2Database.Mvstore.FailedCheckpoint

/-!
# Runs with failing checkpoints
-/

namespace H2Database.Mvstore

open Reasoning List Function

variable {V : Type}

def SharedOp.isCheckpoint : SharedOp V → Bool
  | .call _ | .advance _ _ => true
  | .begin _ _ | .finish _ => false

namespace Shared

def Unpublished (t : Shared V) (op : SharedOp V) : Prop :=
  ∀ drained cut, t.stage = .write drained → op ≠ .advance (.ok ()) cut

structure SameFile (s s' : MVStore V) : Prop where
  file : s'.file = s.file
  wal : s'.wal = s.wal
  version : s'.version = s.version

theorem SameFile.refl (s : MVStore V) : SameFile s s := ⟨rfl, rfl, rfl⟩

theorem SameFile.trans {s₁ s₂ s₃ : MVStore V} (h : SameFile s₁ s₂) (h' : SameFile s₂ s₃) : SameFile s₁ s₃ :=
  ⟨h'.file.trans h.file, h'.wal.trans h.wal, h'.version.trans h.version⟩

theorem sameFile_updateNamed (s : MVStore V) (name : String) (f : MVMap V → MVMap V) :
    SameFile s (updateNamed s name f) :=
  have h := updateNamed_fields s name f
  ⟨h.1, h.2.1, h.2.2.1⟩

variable {t : Shared V} {img c : Contents V} {acts : List (SharedOp V)} {drained : List (Drained V)}
  {todo : List String}

theorem sameFile_advance {result cut : H2Result Unit}
    (h : ∀ drained, t.stage = .write drained → result ≠ .ok ()) :
    SameFile t.store (t.advance result cut).store := by
  unfold advance
  split
  · exact .refl _
  · exact .refl _
  · split
    · exact .refl _
    · split_ifs
      · exact .refl _
      · exact .refl _
      · exact sameFile_updateNamed _ _ _
  · split
    · exact .refl _
    · split_ifs
      · exact .refl _
      · exact sameFile_updateNamed _ _ _
      · exact sameFile_updateNamed _ _ _
  · split
    · exact .refl _
    · split
      · split_ifs
        · exact .refl _
        · exact .refl _
      · exact .refl _
  · split
    · exact .refl _
    · exact .refl _
    · exact sameFile_updateNamed _ _ _
  · rename_i drained hstage
    split
    · exact .refl _
    · exact absurd rfl (h drained hstage)
  · exact .refl _
  · split_ifs
    · exact .refl _
    · exact sameFile_updateNamed _ _ _

variable {op : SharedOp V}

theorem sameFile_step (h : Unpublished t op) : SameFile t.store (t.step op).store := by
  cases op with
  | begin name μ =>
    simp only [step]
    split
    · exact sameFile_updateNamed _ _ _
    · exact .refl _
  | finish name =>
    simp only [step]
    split
    · exact sameFile_updateNamed _ _ _
    · exact .refl _
  | call order =>
    simp only [step]
    split
    · split_ifs
      · exact ⟨rfl, rfl, rfl⟩
      · exact .refl _
    · exact .refl _
  | advance result cut =>
    apply sameFile_advance
    intro drained hstage hresult
    exact h drained cut hstage (by rw [hresult])

theorem Sound.step {img : Contents V} (h : Sound t img) (hcalm : Calm t op) :
    ∃ img', Sound (t.step op) img' ∧ (Unpublished t op → img' = img) := by
  have hkept : Sound (t.step op) img → ∃ img', Sound (t.step op) img' ∧ (Unpublished t op → img' = img) :=
    fun hsound => ⟨img, hsound, fun _ => rfl⟩
  cases op with
  | begin name μ => exact hkept (h.begin name μ)
  | finish name => exact hkept (h.finish name)
  | call order => exact hkept (h.call order)
  | advance result cut =>
    cases hstage : t.stage with
    | idle =>
      have hsame : t.step (.advance result cut) = t := by
        rw [Shared.step, advance, hstage]
      rw [hsame] at hkept ⊢
      exact hkept h
    | visit todo drained => exact hkept (h.visit result cut hstage)
    | take name count todo drained => exact hkept (h.take result cut hstage)
    | load name count journal todo drained => exact hkept (h.load result cut hstage)
    | serialize name count journal loaded todo drained =>
      apply hkept
      apply h.serialize result cut hstage
      intro hok m hm hwriter
      rw [hok, Calm, hstage] at hcalm
      exact hcalm m hm hwriter
    | restore left => exact hkept (h.restoring result cut hstage)
    | write drained =>
      cases result with
      | error e => exact hkept (h.unwritten cut hstage e)
      | ok _ => exact ⟨_, h.published hstage cut, fun hnot => absurd rfl (hnot drained cut hstage)⟩

theorem Sound.runs (h : Sound t img) (hcalm : Meets Shared.step Calm t acts) :
    ∃ img', Sound (runs Shared.step t acts) img' ∧ (Meets Shared.step Unpublished t acts → img' = img) := by
  induction acts generalizing t img with
  | nil => exact ⟨img, h, fun _ => rfl⟩
  | cons op acts ih =>
    obtain ⟨img₁, h₁, hsame₁⟩ := h.step hcalm.1
    obtain ⟨img₂, h₂, hsame₂⟩ := ih h₁ hcalm.2
    exact ⟨img₂, h₂, fun hnot => (hsame₂ hnot.2).trans (hsame₁ hnot.1)⟩

theorem sameFile_runs (h : Meets Shared.step Unpublished t acts) :
    SameFile t.store (runs Shared.step t acts).store := by
  induction acts generalizing t with
  | nil => exact .refl _
  | cons op acts ih => exact (sameFile_step h.1).trans (ih h.2)

theorem sound_start {s : MVStore V} (h : s.Backed img) : Sound (start s) img := by
  constructor
  · exact h.holds
  · exact h.known
  · intro n m hm
    constructor
    · intro count root hroot
      obtain ⟨hle, hsame⟩ := h.cached n m hm count root hroot
      exact ⟨hle, fun heq => ⟨rfl, hsame heq⟩⟩
    · intro hon
      exact h.enabled (hon.resolve_right Bool.noConfusion) n m hm
    · intro hcp f hf
      exact h.tracks hcp n m f hm hf
    · intro root hroot
      cases hroot
    · intro hloading
      cases hloading
    · intro loaded hloaded
      cases hloaded
  · exact Listed.idle s

theorem Sound.backed (h : Sound t img) (hidle : t.stage = .idle) :
    t.store.Backed img := by
  have hmaps := h.maps
  rw [hidle] at hmaps
  constructor
  · exact h.holds
  · exact h.known
  · intro n m hm count root hroot
    obtain ⟨hle, hsame⟩ := (hmaps n m hm).cached count root hroot
    exact ⟨hle, fun heq => (hsame heq).2⟩
  · intro hcp n m hm
    exact (hmaps n m hm).enabled (.inl hcp)
  · intro hcp n m f hm hf
    exact (hmaps n m hm).tracks hcp f hf

/-! ## A checkpoint without writers -/

def Taken (stage : Stage V) (n : String) : Prop :=
  n ∈ stage.drained.map Drained.name ∨ stage.rooting = some n

/-- No change is half done, and none has been made since the maps were `c`. -/
structure Quiet (c : Contents V) (t : Shared V) : Prop where
  writers : ∀ n, t.writers n = none
  contents : MVStore.contents t.store.maps = c
  emptied : ∀ n m, Taken t.stage n → t.store.maps.get n = some m → m.journal.patch = .empty

variable {f : MVMap V → MVMap V}

theorem contents_updateNamed (s : MVStore V) (name : String) (hf : ∀ m, (f m).get = m.get) :
    MVStore.contents (updateNamed s name f).maps = MVStore.contents s.maps := by
  funext n
  rw [MVStore.contents, MVStore.contents, get_updateNamed]
  split_ifs
  · rw [Option.map_map]
    exact congrArg (fun g => Option.map g _) (funext hf)
  · rfl

theorem Quiet.update {c : Contents V} (h : Quiet c t) (name : String)
    {stage : Stage V} (hf : ∀ m, (f m).get = m.get) (hother : ∀ n, n ≠ name → Taken stage n → Taken t.stage n)
    (hself : ∀ m, t.store.maps.get name = some m → Taken stage name → (f m).journal.patch = .empty) :
    Quiet c { t with store := updateNamed t.store name f, stage := stage } := by
  constructor
  · exact h.writers
  · exact (contents_updateNamed t.store name hf).trans h.contents
  · intro n m' hn hm'
    simp only at hn hm'
    rw [get_updateNamed] at hm'
    split_ifs at hm' with hname
    · rw [hname] at hn hm'
      obtain ⟨m, hm, rfl⟩ := Option.map_eq_some_iff.mp hm'
      exact hself m hm hn
    · exact h.emptied n m' (hother n hname hn) hm'

theorem Quiet.restage (h : Quiet c t) {stage : Stage V} (hstage : ∀ n, Taken stage n → Taken t.stage n) :
    Quiet c { t with stage := stage } :=
  ⟨h.writers, h.contents, fun n m hn hm => h.emptied n m (hstage n hn) hm⟩

variable {n : String}

theorem taken_next {d : Drained V} :
    Taken (.visit todo (drained ++ [d])) n ↔ n ∈ drained.map Drained.name ∨ n = d.name := by
  simp only [Taken, Stage.drained, Stage.rooting, map_append, mem_append, map_cons, map_nil,
    mem_singleton, reduceCtorEq, or_false]

variable {left : List (String × Patch Key V)}

theorem not_taken_restore : ¬ Taken (.restore left) n := by
  simp only [Taken, Stage.drained, Stage.rooting, map_nil, not_mem_nil, reduceCtorEq, or_false,
    not_false_eq_true]

theorem not_taken_idle : ¬ Taken (.idle : Stage V) n := by
  simp only [Taken, Stage.drained, Stage.rooting, map_nil, not_mem_nil, reduceCtorEq, or_false,
    not_false_eq_true]

theorem Quiet.visit (h : Quiet c t) (result cut : H2Result Unit) (hstage : t.stage = .visit todo drained) :
    Quiet c (t.advance result cut) := by
  unfold advance
  rw [hstage]
  cases todo with
  | nil =>
    apply h.restage
    intro n hn
    rw [hstage]
    exact hn
  | cons name todo =>
    simp only
    split
    · exact h
    · split_ifs
      · apply h.restage
        intro n hn
        rw [hstage]
        exact hn
      · exact h
      · apply h.update name
        · exact fun m => rfl
        · intro n _ hn
          rw [hstage]
          exact hn
        · intro m hm hn
          apply h.emptied name m _ hm
          rw [hstage]
          exact hn

variable {name : String}

section

variable (result cut : H2Result Unit)

include result cut

theorem Quiet.take (h : Quiet c t) {count : Nat}
    (hstage : t.stage = .take name count todo drained) : Quiet c (t.advance result cut) := by
  unfold advance
  rw [hstage]
  simp only
  split
  · exact h
  · split_ifs
    · exact h
    · apply h.update name
      · exact fun m => rfl
      · intro n hne hn
        rw [hstage]
        rcases hn with hmem | hroot
        · exact .inl hmem
        · exact absurd (Option.some.inj hroot).symm hne
      · exact fun m _ _ => rfl
    · apply h.update name
      · exact fun m => rfl
      · intro n hne hn
        rw [hstage]
        exact .inl ((taken_next.mp hn).resolve_right hne)
      · exact fun m _ _ => rfl

theorem Quiet.load (h : Quiet c t) {count : Nat}
    {journal : Patch Key V} (hstage : t.stage = .load name count journal todo drained) :
    Quiet c (t.advance result cut) := by
  have hnext : ∀ root,
      Quiet c { t with stage := .visit todo (drained ++ [⟨name, count, journal, root⟩]) } := by
    intro root
    apply h.restage
    intro n hn
    rw [hstage]
    rcases taken_next.mp hn with hmem | hname
    · exact .inl hmem
    · exact .inr (congrArg some hname.symm)
  have hmiss : ∀ loaded, Quiet c { t with stage := .serialize name count journal loaded todo drained } := by
    intro loaded
    apply h.restage
    intro n hn
    rw [hstage]
    exact hn
  unfold advance
  rw [hstage]
  simp only
  split
  · exact h
  · split
    · split_ifs
      · exact hnext _
      · exact hmiss _
    · exact hmiss _

theorem Quiet.serialize (h : Quiet c t) {count loaded : Nat}
    {journal : Patch Key V} (hstage : t.stage = .serialize name count journal loaded todo drained) :
    Quiet c (t.advance result cut) := by
  unfold advance
  rw [hstage]
  simp only
  split
  · exact h.restage fun n hn => absurd hn not_taken_restore
  · exact h
  · apply h.update name
    · exact fun m => rfl
    · intro n hne hn
      rw [hstage]
      exact .inl ((taken_next.mp hn).resolve_right hne)
    · intro m hm _
      apply h.emptied name m _ hm
      rw [hstage]
      exact .inr rfl

theorem Quiet.write (h : Quiet c t) (hstage : t.stage = .write drained) :
    Quiet c (t.advance result cut) := by
  unfold advance
  rw [hstage]
  simp only
  split
  · exact h.restage fun n hn => absurd hn not_taken_restore
  · exact ⟨h.writers, h.contents, fun n m hn _ => absurd hn not_taken_idle⟩

theorem Quiet.restoring (h : Quiet c t)
    (hstage : t.stage = .restore left) : Quiet c (t.advance result cut) := by
  unfold advance
  rw [hstage]
  cases left with
  | nil => exact h.restage fun n hn => absurd hn not_taken_idle
  | cons first left =>
    simp only
    split_ifs
    · exact h
    · apply h.update first.1
      · exact fun m => rfl
      · exact fun n _ hn => absurd hn not_taken_restore
      · exact fun m _ hn => absurd hn not_taken_restore

end

theorem Quiet.step {c : Contents V} (h : Quiet c t) (hop : op.isCheckpoint = true) :
    Quiet c (t.step op) := by
  cases op with
  | begin name μ => cases hop
  | finish name => cases hop
  | call order =>
    simp only [Shared.step]
    split
    · split_ifs
      · refine ⟨h.writers, h.contents, fun n m hn _ => ?_⟩
        simp only [Taken, Stage.drained, Stage.rooting, map_nil, not_mem_nil, reduceCtorEq, or_false] at hn
      · exact h
    · exact h
  | advance result cut =>
    rw [Shared.step]
    cases hstage : t.stage with
    | idle =>
      rw [advance, hstage]
      exact h
    | visit todo drained => exact h.visit result cut hstage
    | take name count todo drained => exact h.take result cut hstage
    | load name count journal todo drained => exact h.load result cut hstage
    | serialize name count journal loaded todo drained => exact h.serialize result cut hstage
    | write drained => exact h.write result cut hstage
    | restore left => exact h.restoring result cut hstage

theorem Quiet.runs (h : Quiet c t) (hacts : ∀ op ∈ acts, op.isCheckpoint = true) :
    Quiet c (runs Shared.step t acts) := by
  induction acts generalizing t with
  | nil => exact h
  | cons op acts ih =>
    exact ih (h.step (hacts op mem_cons_self)) fun op' hop' => hacts op' (mem_cons_of_mem _ hop')

theorem Quiet.calm (h : Quiet c t) (op : SharedOp V) : Calm t op := by
  unfold Calm
  split
  · split
    · intro m _ hwriter
      rw [h.writers] at hwriter
      cases hwriter
    · trivial
  · trivial

theorem Quiet.meets_calm (h : Quiet c t) (hacts : ∀ op ∈ acts, op.isCheckpoint = true) :
    Meets Shared.step Calm t acts := by
  induction acts generalizing t with
  | nil => trivial
  | cons op acts ih =>
    exact ⟨h.calm op, ih (h.step (hacts op mem_cons_self)) fun op' hop' => hacts op' (mem_cons_of_mem _ hop')⟩

theorem Quiet.written_eq (h : Quiet c t) (hsound : Sound t img) (hstage : t.stage = .write drained) :
    written img drained = c := by
  have hlisted := hsound.listed
  have hmaps := hsound.maps
  have hemptied := h.emptied
  rw [hstage] at hlisted hmaps hemptied
  rw [← h.contents]
  funext n
  rw [MVStore.contents]
  cases hm : t.store.maps.get n with
  | none =>
    rw [Registry.get_eq_none] at hm
    have hn : n ∉ drained.map Drained.name := by
      intro hmem
      have hfound := (hlisted.covers rfl n).mp hmem
      rw [hm] at hfound
      cases hfound
    rw [written, find_eq_none_of_not_mem hn]
    rfl
  | some m =>
    obtain ⟨d, hd, rfl⟩ := hlisted.mem_drained hm
    have hpublished := hsound.published hstage (.ok ())
    have htracks : ∀ f, mapped img d = some f → f = m.get := by
      intro f hf
      have hidle : (t.advance (.ok ()) (.ok ())).stage = .idle := by
        rw [advance, hstage]
      have hget : (t.advance (.ok ()) (.ok ())).store.maps.get d.name = some m := by
        rw [advance, hstage]
        exact hm
      have hbacked := hpublished.backed hidle
      have htracks := hbacked.tracks (by rw [advance, hstage]; rfl) d.name m f hget
        (by rw [written_of_mem hlisted.nodup hd, hf])
      rw [MVMap.Tracks, hemptied d.name m (.inl (mem_map_of_mem hd)) hm, Patch.apply_empty] at htracks
      exact htracks
    have hsome : (mapped img d).isSome := by
      rw [← written_of_mem hlisted.nodup hd, isSome_written hsound.known hlisted]
      exact mem_map_of_mem hd
    obtain ⟨f, hf⟩ := Option.isSome_iff_exists.mp hsome
    rw [written_of_mem hlisted.nodup hd, hf, htracks f hf]
    rfl

/-! ## A failed checkpoint is as if it had not been made -/

/-- A run from a store whose journals turn `img` into its maps: until a checkpoint completes, file, log and
version stay, and between two calls the journals turn the same image into the maps; between two calls the
file is backed in any case, and what a checkpoint without writers then writes are all the maps. -/
structure Harmless (s : MVStore V) (img : Contents V) (acts : List (SharedOp V)) : Prop where
  kept : Meets step Unpublished (start s) acts → SameFile s (runs step (start s) acts).store
  again : Meets step Unpublished (start s) acts → (runs step (start s) acts).stage = .idle →
    (runs step (start s) acts).store.Backed img
  rebased : (runs step (start s) acts).stage = .idle → ∃ img', (runs step (start s) acts).store.Backed img'
  persists : (runs step (start s) acts).stage = .idle → (∀ n, (runs step (start s) acts).writers n = none) →
    ∀ later : List (SharedOp V), (∀ op ∈ later, op.isCheckpoint = true) → ∀ drained cut,
      (runs step (runs step (start s) acts) later).stage = .write drained →
        MVStore.Holds ((runs step (runs step (start s) acts) later).step (.advance (.ok ()) cut)).store.file
          (MVStore.contents (runs step (start s) acts).store.maps)

theorem failed_checkpoint_harmless {s : MVStore V} {img : Contents V} (h : s.Backed img)
    {acts : List (SharedOp V)} (hcalm : Meets step Calm (start s) acts) : Harmless s img acts := by
  obtain ⟨img₁, hsound, hsame⟩ := (sound_start h).runs hcalm
  constructor
  · exact sameFile_runs
  · intro hnot hidle
    rw [← hsame hnot]
    exact hsound.backed hidle
  · exact fun hidle => ⟨img₁, hsound.backed hidle⟩
  · intro hidle hwriters later hlater drained cut hstage
    have hquiet : Quiet (MVStore.contents (runs step (start s) acts).store.maps)
        (runs step (start s) acts) := by
      refine ⟨hwriters, rfl, fun n m hn _ => ?_⟩
      rw [hidle] at hn
      exact absurd hn not_taken_idle
    obtain ⟨img₂, hsound₂, _⟩ := hsound.runs (hquiet.meets_calm hlater)
    rw [← (hquiet.runs hlater).written_eq hsound₂ hstage]
    exact (hsound₂.published hstage cut).holds

def oneMap : MVStore Nat := (MVStore.new.openMap "t").2

theorem oneMap_backed : oneMap.Backed fun _ => none := by
  constructor
  · exact MVStore.holds_new
  · intro hcp
    cases hcp
  · intro n m hm
    have hmaps : oneMap.maps = (Registry.empty : Maps Nat).create "t" (MVMap.new .empty) := rfl
    rw [hmaps, Registry.get_create] at hm
    split_ifs at hm
    · cases hm
      exact MVMap.new_cached _
    · cases hm
  · intro hcp
    cases hcp
  · intro hcp
    cases hcp

/-- A put between the taking of the journal and its return. -/
theorem failed_checkpoint_harmless_put : Harmless oneMap (fun _ => none)
    [.call ["t"], .advance (.ok ()) (.ok ()),
    .advance (.ok ()) (.ok ()), .begin "t" (.put [1] 7), .finish "t", .advance (.ok ()) (.ok ()),
    .advance (.error (.storage "no root")) (.ok ()), .advance (.ok ()) (.ok ()), .advance (.ok ())
      (.ok ())] :=
  failed_checkpoint_harmless oneMap_backed
    ⟨trivial, trivial, trivial, trivial, trivial, trivial, trivial, trivial, trivial, trivial⟩

/-- A call whose root is read in the middle of a change fails to write its record. -/
def failing : List (SharedOp Nat) :=
  let next := SharedOp.advance (.ok ()) (.ok ())
  [.call ["t"], next, next, .begin "t" (.put [1] 7), next, next, .finish "t", next,
    .advance (.error (.storage "disk full")) (.ok ()), next, next]

/-- The next call finds the root of the failed one in the cache, and writes it. -/
theorem failed_checkpoint_loses_put :
    oneMap.Backed (fun _ => none) ∧ ¬ ∀ acts, Harmless oneMap (fun _ => none) acts := by
  refine ⟨oneMap_backed, fun h => ?_⟩
  let next : SharedOp Nat := SharedOp.advance (.ok ()) (.ok ())
  have hwriters : (runs step (start oneMap) failing).writers =
      Function.update (Function.update (fun _ => none) "t" (some (.put [1] 7))) "t" none := rfl
  have hnone : ∀ n, (runs step (start oneMap) failing).writers n = none := by
    intro n
    rw [hwriters, update_idem]
    by_cases hn : n = "t"
    · rw [hn, update_self]
    · rw [update_of_ne hn]
  obtain ⟨maps, hmaps, hcontents⟩ := (h failing).persists rfl hnone [.call ["t"], next, next, next, next]
    (by decide) [⟨"t", 2, _, _⟩] (.ok ()) rfl
  cases hmaps
  have hlost := congrArg (fun c => binding c "t" [1]) hcontents
  exact absurd hlost (by decide)

end Shared

end H2Database.Mvstore
