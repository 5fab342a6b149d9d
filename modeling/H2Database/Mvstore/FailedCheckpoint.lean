import H2Database.Mvstore.CheckpointSteps
import H2Database.Mvstore.Durability.Data

/-!
# A failed checkpoint among writers

`Backed` says that the journals of a store turn the image in its file into its maps.  A checkpoint that
fails leaves a backed store backed by the same image, and the next one that succeeds writes everything,
whatever the writers do in between, if no root is serialized in the middle of a change that the cache will
not notice.
-/

namespace H2Database.Mvstore

open Reasoning List
open Option hiding map map_map

variable {V : Type}

/-- The journal of every map of the image turns its image into its tree. -/
structure MVStore.Backed (s : MVStore V) (img : Contents V) : Prop where
  holds : MVStore.Holds s.file img
  known : s.Known img
  cached : s.Cached
  enabled : s.hasCheckpoint = true → s.AllEnabled
  tracks : s.hasCheckpoint = true → ∀ n m f, s.maps.get n = some m → img n = some f → m.Tracks f

namespace Shared

theorem get_updateNamed (s : MVStore V) (name : String) (f : MVMap V → MVMap V) (n : String) :
    (updateNamed s name f).maps.get n = if n = name then (s.maps.get n).map f else s.maps.get n := by
  unfold updateNamed
  cases hfind : s.maps.find name with
  | some id => exact Registry.get_modify hfind f n
  | none =>
    split_ifs with hn
    · rw [hn, Registry.get_eq_none.mpr hfind]
      rfl
    · rfl

theorem find_updateNamed (s : MVStore V) (name : String) (f : MVMap V → MVMap V) :
    (updateNamed s name f).maps.find = s.maps.find := by
  unfold updateNamed
  split
  · funext n
    exact Registry.find_modify s.maps _ f n
  · rfl

theorem updateNamed_fields (s : MVStore V) (name : String) (f : MVMap V → MVMap V) :
    (updateNamed s name f).file = s.file ∧ (updateNamed s name f).wal = s.wal ∧
      (updateNamed s name f).version = s.version ∧ (updateNamed s name f).hasCheckpoint = s.hasCheckpoint ∧
      (updateNamed s name f).checkpointedMaps = s.checkpointedMaps := by
  unfold updateNamed
  split
  · exact ⟨rfl, rfl, rfl, rfl, rfl⟩
  · exact ⟨rfl, rfl, rfl, rfl, rfl⟩

/-! ## What a stage says about one map -/

/-- The journal taken from the map, whether changes must be recorded, the root taken from the map, whether
its root is being taken, and the counter it has been taken at. -/
structure Phase (V : Type) where
  journal : Patch Key V
  recording : Bool
  root : Option (Root V)
  loading : Bool
  loaded : Option Nat

def Phase.untouched : Phase V := ⟨.empty, false, none, false, none⟩

def phaseOf (drained : List (Drained V)) (n : String) : Phase V :=
  match drained.find? fun d => d.name = n with
  | some d => ⟨d.journal, true, d.root, false, none⟩
  | none => .untouched

def restoring (left : List (String × Patch Key V)) (n : String) : Phase V :=
  match left.find? fun p => p.1 = n with
  | some p => { Phase.untouched with journal := p.2 }
  | none => .untouched

end Shared

open Shared

namespace Stage

def phase (n : String) : Stage V → Phase V
  | .idle => .untouched
  | .visit _ drained => phaseOf drained n
  | .take name _ _ drained =>
    if n = name then { Phase.untouched with recording := true } else phaseOf drained n
  | .load name _ journal _ drained =>
    if n = name then ⟨journal, true, none, true, none⟩ else phaseOf drained n
  | .serialize name _ journal loaded _ drained =>
    if n = name then ⟨journal, true, none, true, some loaded⟩ else phaseOf drained n
  | .write drained => phaseOf drained n
  | .restore left => restoring left n

def drained : Stage V → List (Drained V)
  | .visit _ drained | .take _ _ _ drained | .load _ _ _ _ drained | .serialize _ _ _ _ _ drained
  | .write drained => drained
  | .idle | .restore _ => []

def names : Stage V → List String
  | .visit todo drained => drained.map Drained.name ++ todo
  | .take name _ todo drained | .load name _ _ todo drained | .serialize name _ _ _ todo drained =>
    drained.map Drained.name ++ name :: todo
  | .write drained => drained.map Drained.name
  | .restore left => left.map Prod.fst
  | .idle => []

def gathering : Stage V → Bool
  | .idle | .restore _ => false
  | _ => true

def rooting : Stage V → Option String
  | .load name _ _ _ _ | .serialize name _ _ _ _ _ => some name
  | _ => none

end Stage

namespace Shared

/-- One map: its cache, its journal and what the call has taken from it. -/
structure MapSound (hasCheckpoint : Bool) (image : Option (Key → Option V)) (writer : Option (Mutation V))
    (phase : Phase V) (m : MVMap V) : Prop where
  cached : ∀ count root, m.cachedRoot = some (count, root) →
    count ≤ m.modCount ∧ (count = m.modCount → writer = none ∧ root = m.tree)
  enabled : hasCheckpoint = true ∨ phase.recording = true → m.journal.enabled = true
  tracks : hasCheckpoint = true → ∀ f, image = some f → m.Tracks (phase.journal.apply f)
  root : ∀ root, phase.root = some root → m.journal.enabled = true ∧ m.Tracks root.get
  loading : phase.loading = true → m.journal.enabled = true ∧ ∃ base, m.Tracks base
  loaded : ∀ loaded, phase.loaded = some loaded → loaded ≤ m.modCount

/-- The loop meets every map once, and takes the roots that the record needs. -/
structure Listed (s : MVStore V) (stage : Stage V) : Prop where
  nodup : stage.names.Nodup
  covers : stage.gathering = true → ∀ n, n ∈ stage.names ↔ (s.maps.find n).isSome
  roots : ∀ d ∈ stage.drained, d.root.isSome = s.needsRoot d.name
  rooting : ∀ n, stage.rooting = some n → s.needsRoot n = true

structure Sound (t : Shared V) (img : Contents V) : Prop where
  holds : MVStore.Holds t.store.file img
  known : t.store.Known img
  maps : ∀ n m, t.store.maps.get n = some m →
    MapSound t.store.hasCheckpoint (img n) (t.writers n) (t.stage.phase n) m
  listed : Listed t.store t.stage

theorem needsRoot_updateNamed (s : MVStore V) (name : String) (f : MVMap V → MVMap V) (n : String) :
    (updateNamed s name f).needsRoot n = s.needsRoot n := by
  obtain ⟨_, _, _, hcp, hknown⟩ := updateNamed_fields s name f
  rw [MVStore.needsRoot, MVStore.needsRoot, hcp, hknown]

variable {stage : Stage V}

theorem Listed.updateNamed {s : MVStore V} (h : Listed s stage) (name : String)
    (f : MVMap V → MVMap V) : Listed (updateNamed s name f) stage := by
  constructor
  · exact h.nodup
  · intro hgathering n
    rw [find_updateNamed]
    exact h.covers hgathering n
  · intro d hd
    rw [needsRoot_updateNamed]
    exact h.roots d hd
  · intro n hn
    rw [needsRoot_updateNamed]
    exact h.rooting n hn

variable {t : Shared V} {img : Contents V}

theorem Sound.update (h : Sound t img) {name : String}
    {f : MVMap V → MVMap V} {writers : String → Option (Mutation V)} (hlisted : Listed t.store stage)
    (hother : ∀ n, n ≠ name → stage.phase n = t.stage.phase n ∧ writers n = t.writers n)
    (hself : ∀ m, t.store.maps.get name = some m →
      MapSound t.store.hasCheckpoint (img name) (t.writers name) (t.stage.phase name) m →
      MapSound t.store.hasCheckpoint (img name) (writers name) (stage.phase name) (f m)) :
    Sound ⟨updateNamed t.store name f, writers, stage⟩ img := by
  obtain ⟨hfile, _, _, hcp, hknown⟩ := updateNamed_fields t.store name f
  constructor
  · simp only
    rw [hfile]
    exact h.holds
  · intro hon n
    simp only at hon ⊢
    rw [hknown]
    exact h.known (hcp ▸ hon) n
  · intro n m' hm'
    simp only at hm' ⊢
    rw [get_updateNamed] at hm'
    rw [hcp]
    split_ifs at hm' with hn
    · obtain ⟨m, hm, hm''⟩ := map_eq_some_iff.mp hm'
      rw [hn] at hm ⊢
      rw [← hm'']
      exact hself m hm (h.maps name m hm)
    · rw [(hother n hn).1, (hother n hn).2]
      exact h.maps n m' hm'
  · exact hlisted.updateNamed name f

theorem Sound.restage (h : Sound t img) (hlisted : Listed t.store stage)
    (hphase : ∀ n m, t.store.maps.get n = some m →
      MapSound t.store.hasCheckpoint (img n) (t.writers n) (t.stage.phase n) m →
      MapSound t.store.hasCheckpoint (img n) (t.writers n) (stage.phase n) m) :
    Sound { t with stage := stage } img :=
  ⟨h.holds, h.known, fun n m hm => hphase n m hm (h.maps n m hm), hlisted⟩

/-! ## Changes -/

section Changes

variable {hasCheckpoint : Bool} {image : Option (Key → Option V)} {writer : Option (Mutation V)}
    {phase : Phase V}
  {m : MVMap V}

theorem MapSound.count (h : MapSound hasCheckpoint image writer phase m) (writer' : Option (Mutation V)) :
    MapSound hasCheckpoint image writer' phase m.count := by
  constructor
  · intro count root hroot
    have hle := (h.cached count root hroot).1
    have hcount : m.count.modCount = m.modCount + 1 := rfl
    rw [hcount]
    exact ⟨by omega, fun heq => by omega⟩
  · exact h.enabled
  · exact h.tracks
  · exact h.root
  · exact h.loading
  · intro loaded hloaded
    have hle := h.loaded loaded hloaded
    have hcount : m.count.modCount = m.modCount + 1 := rfl
    omega

theorem enabled_write (m : MVMap V) (μ : Mutation V) : (μ.write m).journal.enabled = m.journal.enabled := by
  cases μ with
  | put k v => exact m.put_enabled k v
  | remove k => exact m.remove_enabled k
  | clear => exact m.clear_enabled

theorem tracks_write (hon : m.journal.enabled = true) {base : Key → Option V} (h : m.Tracks base)
    (μ : Mutation V) : (μ.write m).Tracks base := by
  cases μ with
  | put k v => exact h.put hon k v
  | remove k => exact h.remove hon k
  | clear => exact MVMap.Tracks.clear hon base

theorem MapSound.write {μ : Mutation V} (h : MapSound hasCheckpoint image (some μ) phase m) :
    MapSound hasCheckpoint image none phase (μ.write m) := by
  have hcache : (μ.write m).cachedRoot = m.cachedRoot ∧ (μ.write m).modCount = m.modCount := by
    cases μ <;> exact ⟨rfl, rfl⟩
  constructor
  · intro count root hroot
    rw [hcache.1] at hroot
    rw [hcache.2]
    obtain ⟨hle, hsame⟩ := h.cached count root hroot
    refine ⟨hle, fun heq => ?_⟩
    -- the cache does not know the raised counter
    cases (hsame heq).1
  · intro hon
    rw [enabled_write]
    exact h.enabled hon
  · intro hcp f hf
    exact tracks_write (h.enabled (.inl hcp)) (h.tracks hcp f hf) μ
  · intro root hroot
    obtain ⟨hon, htracks⟩ := h.root root hroot
    rw [enabled_write]
    exact ⟨hon, tracks_write hon htracks μ⟩
  · intro hloading
    obtain ⟨hon, base, htracks⟩ := h.loading hloading
    rw [enabled_write]
    exact ⟨hon, base, tracks_write hon htracks μ⟩
  · intro loaded hloaded
    rw [hcache.2]
    exact h.loaded loaded hloaded

end Changes

theorem Sound.begin (h : Sound t img) (name : String) (μ : Mutation V) :
    Sound (t.step (.begin name μ)) img := by
  simp only [step]
  split
  · apply h.update h.listed
    · intro n hn
      exact ⟨rfl, Function.update_of_ne hn _ _⟩
    · intro m _ hm
      exact hm.count _
  · exact h

theorem Sound.finish (h : Sound t img) (name : String) :
    Sound (t.step (.finish name)) img := by
  simp only [step]
  split
  · rename_i μ hμ
    apply h.update h.listed
    · intro n hn
      exact ⟨rfl, Function.update_of_ne hn _ _⟩
    · intro m _ hm
      rw [hμ] at hm
      rw [Function.update_self]
      exact hm.write
  · exact h

/-! ## Phases along the loop -/

variable {n : String}

theorem find_eq_none_of_not_mem {α : Type} {f : α → String} {l : List α} (h : n ∉ l.map f) :
    (l.find? fun a => f a = n) = none := by
  rw [find?_eq_none]
  intro a ha hname
  exact h (mem_map.mpr ⟨a, ha, of_decide_eq_true hname⟩)

theorem phaseOf_of_not_mem {drained : List (Drained V)} (h : n ∉ drained.map Drained.name) :
    phaseOf drained n = .untouched := by
  rw [phaseOf, find_eq_none_of_not_mem h]

theorem phaseOf_append_of_ne (drained : List (Drained V)) {d : Drained V} (h : n ≠ d.name) :
    phaseOf (drained ++ [d]) n = phaseOf drained n := by
  have hd : ([d].find? fun d => d.name = n) = none := by
    rw [find?_singleton, if_neg]
    exact fun hname => h (of_decide_eq_true hname).symm
  rw [phaseOf, phaseOf, find?_append, hd, or_none]

theorem phaseOf_append_self {drained : List (Drained V)} {d : Drained V}
    (h : d.name ∉ drained.map Drained.name) :
    phaseOf (drained ++ [d]) d.name = ⟨d.journal, true, d.root, false, none⟩ := by
  rw [phaseOf, find?_append, find_eq_none_of_not_mem h, none_or, find?_singleton,
    if_pos (decide_eq_true rfl)]

theorem restoring_journals (drained : List (Drained V)) (n : String) :
    restoring (journals drained) n = { Phase.untouched with journal := (phaseOf drained n).journal } := by
  induction drained with
  | nil => rfl
  | cons d drained ih =>
    rw [restoring, phaseOf] at ih ⊢
    rw [journals, map_cons, find?_cons, find?_cons]
    by_cases hn : d.name = n
    · simp [hn]
    · simpa [hn, journals] using ih

theorem restoring_cons_of_ne {name n : String} (h : n ≠ name) (journal : Patch Key V)
    (left : List (String × Patch Key V)) : restoring ((name, journal) :: left) n = restoring left n := by
  rw [restoring, find?_cons_of_neg (by simpa using Ne.symm h), restoring]

theorem restoring_cons_self (name : String) (journal : Patch Key V) (left : List (String × Patch Key V)) :
    restoring ((name, journal) :: left) name = { Phase.untouched with journal := journal } := by
  rw [restoring, find?_cons_of_pos (by simp)]

variable {left : List (String × Patch Key V)}

theorem restoring_of_not_mem (h : n ∉ left.map Prod.fst) :
    restoring left n = .untouched := by
  rw [restoring, find_eq_none_of_not_mem h]

theorem map_fst_journals (drained : List (Drained V)) :
    (journals drained).map Prod.fst = drained.map Drained.name := by
  rw [journals, map_map]
  rfl

section Phases

variable {hasCheckpoint : Bool} {image : Option (Key → Option V)} {writer : Option (Mutation V)}
    {phase : Phase V}
  {m : MVMap V}

theorem MapSound.leave (h : MapSound hasCheckpoint image writer phase m) :
    MapSound hasCheckpoint image writer { Phase.untouched with journal := phase.journal } m := by
  constructor
  · exact h.cached
  · intro hon
    exact h.enabled (hon.imp_right Bool.noConfusion)
  · exact h.tracks
  · intro root hroot
    cases hroot
  · intro hloading
    cases hloading
  · intro loaded hloaded
    cases hloaded

theorem MapSound.enter (h : MapSound hasCheckpoint image writer .untouched m) (on : Bool)
    (hon : on = true ∨ hasCheckpoint = true) : MapSound hasCheckpoint image writer
      { Phase.untouched with recording := true } (if on then m.setJournaling true else m) := by
  have hsame : ∀ base, m.Tracks base → (if on then m.setJournaling true else m).Tracks base := by
    intro base htracks
    split_ifs
    · exact htracks
    · exact htracks
  constructor
  · cases on with
    | false => exact h.cached
    | true => exact h.cached
  · intro _
    cases on with
    | false => exact h.enabled (.inl (hon.resolve_left Bool.noConfusion))
    | true => rfl
  · intro hcp f hf
    exact hsame _ (h.tracks hcp f hf)
  · intro root hroot
    cases hroot
  · intro hloading
    cases hloading
  · intro loaded hloaded
    cases hloaded

theorem MapSound.take (h : MapSound hasCheckpoint image writer { Phase.untouched with recording := true } m)
    (loading : Bool) :
    MapSound hasCheckpoint image writer ⟨m.takeJournal.1, true, none, loading, none⟩ m.takeJournal.2 := by
  have hon : m.journal.enabled = true := h.enabled (.inr rfl)
  constructor
  · exact h.cached
  · intro _
    exact hon
  · intro hcp f hf
    exact h.tracks hcp f hf
  · intro root hroot
    cases hroot
  · intro _
    exact ⟨hon, m.get, MVMap.tracks_of_empty rfl⟩
  · intro loaded hloaded
    cases hloaded

variable {journal : Patch Key V}

theorem MapSound.load (h : MapSound hasCheckpoint image writer ⟨journal, true, none, true, none⟩ m) :
    MapSound hasCheckpoint image writer ⟨journal, true, none, true, some m.modCount⟩ m := by
  constructor
  · exact h.cached
  · exact h.enabled
  · exact h.tracks
  · exact h.root
  · exact h.loading
  · intro loaded hloaded
    cases hloaded
    exact Nat.le_refl _

theorem MapSound.rooted {loaded : Option Nat} {root : Root V} (hroot : root.get = m.get)
    (h : MapSound hasCheckpoint image writer ⟨journal, true, none, true, loaded⟩ m) :
    MapSound hasCheckpoint image writer ⟨journal, true, some root, false, none⟩ m := by
  constructor
  · exact h.cached
  · exact h.enabled
  · exact h.tracks
  · intro root' hroot'
    cases hroot'
    obtain ⟨hon, base, htracks⟩ := h.loading rfl
    refine ⟨hon, ?_⟩
    rw [hroot, MVMap.Tracks, ← htracks, Patch.apply_apply]
  · intro hloading
    cases hloading
  · intro loaded' hloaded'
    cases hloaded'

theorem MapSound.cache {loaded : Nat} (h : MapSound hasCheckpoint image writer phase m)
    (hle : loaded ≤ m.modCount) (hcalm : writer.isSome → loaded ≠ m.modCount) :
    MapSound hasCheckpoint image writer phase { m with cachedRoot := some (loaded, m.tree) } := by
  constructor
  · intro count root hroot
    cases hroot
    refine ⟨hle, fun heq => ⟨?_, rfl⟩⟩
    rw [← not_isSome_iff_eq_none]
    exact fun hwriter => hcalm hwriter heq
  · exact h.enabled
  · exact h.tracks
  · exact h.root
  · exact h.loading
  · exact h.loaded

theorem MapSound.restore
    (h : MapSound hasCheckpoint image writer { Phase.untouched with journal := journal } m) :
    MapSound hasCheckpoint image writer .untouched (m.restoreJournal journal) := by
  constructor
  · exact h.cached
  · exact h.enabled
  · intro hcp f hf
    have htracks := h.tracks hcp f hf
    have hpatch : (m.restoreJournal journal).journal.patch = m.journal.patch.restore journal := rfl
    rw [MVMap.Tracks, hpatch, Patch.apply_restore]
    exact htracks
  · intro root hroot
    cases hroot
  · intro hloading
    cases hloading
  · intro loaded hloaded
    cases hloaded

end Phases

/-! ## The steps of the checkpoint -/

theorem mem_named_iff (s : MVStore V) (n : String) :
    n ∈ s.maps.named.map Prod.fst ↔ (s.maps.find n).isSome := by
  rw [isSome_iff_ne_none, ne_eq, ← Registry.get_eq_none, ← ne_eq, ne_none_iff_exists']
  constructor
  · intro hn
    obtain ⟨p, hp, rfl⟩ := mem_map.mp hn
    exact ⟨p.2, Registry.mem_named.mp hp⟩
  · intro hn
    obtain ⟨m, hm⟩ := hn
    exact mem_map.mpr ⟨(n, m), Registry.mem_named.mpr hm, rfl⟩

theorem Sound.call (h : Sound t img) (order : List String) :
    Sound (t.step (.call order)) img := by
  simp only [step]
  split
  · rename_i hstage
    split_ifs with hperm
    · have hmaps := h.maps
      rw [hstage] at hmaps
      refine ⟨h.holds, h.known, hmaps, ?_⟩
      constructor
      · exact hperm.symm.nodup t.store.maps.nodup_named
      · intro _ n
        exact hperm.mem_iff.trans (mem_named_iff t.store n)
      · intro d hd
        cases hd
      · intro n hn
        cases hn
    · exact h
  · exact h

theorem nodup_loop {drained : List (Drained V)} {name : String} {todo : List String}
    (h : (drained.map Drained.name ++ name :: todo).Nodup) : name ∉ drained.map Drained.name := by
  intro hmem
  exact (nodup_append.mp h).2.2 name hmem name mem_cons_self rfl

theorem Listed.next {s : MVStore V} {todo : List String} {drained : List (Drained V)}
    {d : Drained V} (h : Listed s stage) (hnames : stage.names = drained.map Drained.name ++ d.name :: todo)
    (hgathering : stage.gathering = true) (hdrained : stage.drained = drained)
    (hroot : d.root.isSome = s.needsRoot d.name) : Listed s (.visit todo (drained ++ [d])) := by
  have hlist : (Stage.visit todo (drained ++ [d])).names = stage.names := by
    rw [hnames, Stage.names, map_append, append_assoc]
    rfl
  constructor
  · rw [hlist]
    exact h.nodup
  · rw [hlist]
    exact fun _ => h.covers hgathering
  · intro e he
    rcases mem_append.mp he with hold | hnew
    · exact h.roots e (hdrained ▸ hold)
    · rw [mem_singleton.mp hnew]
      exact hroot
  · intro n hn
    cases hn

theorem Listed.leave {s : MVStore V} (h : (left.map Prod.fst).Nodup) :
    Listed s (.restore left) := by
  constructor
  · exact h
  · intro hgathering
    cases hgathering
  · intro d hd
    cases hd
  · intro n hn
    cases hn

theorem Listed.idle (s : MVStore V) : Listed s (.idle : Stage V) := by
  constructor
  · exact nodup_nil
  · intro hgathering
    cases hgathering
  · intro d hd
    cases hd
  · intro n hn
    cases hn

section Steps

variable {t : Shared V} {img : Contents V} (h : Sound t img) (result cut : H2Result Unit)

include h

variable {todo : List String} {drained : List (Drained V)}

theorem Sound.visit (hstage : t.stage = .visit todo drained) :
    Sound (t.advance result cut) img := by
  have hlisted := h.listed
  rw [hstage] at hlisted
  unfold advance
  rw [hstage]
  cases todo with
  | nil =>
    have hwrite : Listed t.store (.write drained) := by
      refine ⟨?_, fun _ n => ?_, hlisted.roots, fun n hn => by cases hn⟩
      · simpa [Stage.names] using hlisted.nodup
      · simpa [Stage.names] using hlisted.covers rfl n
    apply h.restage hwrite
    intro n m _ hm
    rw [hstage] at hm
    exact hm
  | cons name todo =>
    have hnot := nodup_loop hlisted.nodup
    have huntouched : phaseOf drained name = .untouched := phaseOf_of_not_mem hnot
    have htake : ∀ count, Listed t.store (.take name count todo drained) := fun count =>
      ⟨hlisted.nodup, hlisted.covers, hlisted.roots, hlisted.rooting⟩
    simp only
    split
    · exact h
    · rename_i m hm
      split_ifs with hcp hwriter
      · apply h.restage (htake m.modCount)
        intro n m' _ hm'
        rw [hstage] at hm'
        simp only [Stage.phase] at hm' ⊢
        split_ifs with hname
        · rw [hname, huntouched] at hm'
          rw [hname]
          exact hm'.enter false (.inr hcp)
        · exact hm'
      · exact h
      · apply h.update (htake m.modCount)
        · intro n hn
          rw [hstage]
          simp only [Stage.phase, if_neg hn]
          exact ⟨trivial, trivial⟩
        · intro m' _ hm'
          rw [hstage] at hm'
          simp only [Stage.phase, if_true] at hm' ⊢
          rw [huntouched] at hm'
          exact hm'.enter true (.inl rfl)

variable {name : String}

theorem Sound.take {count : Nat} (hstage : t.stage = .take name count todo drained) :
    Sound (t.advance result cut) img := by
  have hlisted := h.listed
  rw [hstage] at hlisted
  have hnot := nodup_loop hlisted.nodup
  unfold advance
  rw [hstage]
  simp only
  split
  · exact h
  · rename_i m hm
    split_ifs with hwriter hroot
    · exact h
    · have hload : Listed t.store (.load name count m.takeJournal.1 todo drained) := by
        refine ⟨hlisted.nodup, hlisted.covers, hlisted.roots, fun n hn => ?_⟩
        cases hn
        exact hroot
      apply h.update hload
      · intro n hn
        rw [hstage]
        simp only [Stage.phase, if_neg hn]
        exact ⟨trivial, trivial⟩
      · intro m' hget hm'
        rw [hm] at hget
        cases hget
        rw [hstage] at hm'
        simp only [Stage.phase, if_true] at hm' ⊢
        exact hm'.take true
    · have hnext : Listed t.store (.visit todo (drained ++ [⟨name, count, m.takeJournal.1, none⟩])) :=
        hlisted.next rfl rfl rfl (Bool.eq_false_iff.mpr hroot).symm
      apply h.update hnext
      · intro n hn
        rw [hstage]
        simp only [Stage.phase, if_neg hn]
        exact ⟨phaseOf_append_of_ne drained hn, trivial⟩
      · intro m' hget hm'
        rw [hm] at hget
        cases hget
        rw [hstage] at hm'
        simp only [Stage.phase, if_true] at hm' ⊢
        rw [phaseOf_append_self hnot]
        exact hm'.take false

theorem Sound.load {count : Nat} {journal : Patch Key V}
    (hstage : t.stage = .load name count journal todo drained) :
    Sound (t.advance result cut) img := by
  have hlisted := h.listed
  rw [hstage] at hlisted
  have hnot := nodup_loop hlisted.nodup
  have hneeds : t.store.needsRoot name = true := hlisted.rooting name rfl
  have hmiss : ∀ m, t.store.maps.get name = some m →
      Sound { t with stage := .serialize name count journal m.modCount todo drained } img := by
    intro m hm
    have hserialize : Listed t.store (.serialize name count journal m.modCount todo drained) :=
      ⟨hlisted.nodup, hlisted.covers, hlisted.roots, hlisted.rooting⟩
    apply h.restage hserialize
    intro n m' hm' hsound
    rw [hstage] at hsound
    simp only [Stage.phase] at hsound ⊢
    by_cases hname : n = name
    · rw [hname, hm] at hm'
      cases hm'
      rw [if_pos hname] at hsound ⊢
      exact hsound.load
    · rw [if_neg hname] at hsound ⊢
      exact hsound
  unfold advance
  rw [hstage]
  simp only
  split
  · exact h
  · rename_i m hm
    split
    · rename_i cached root hcached
      split_ifs with hhit
      · -- the cached root is the tree
        have hnext : Listed t.store (.visit todo (drained ++ [⟨name, count, journal, some root⟩])) :=
          hlisted.next rfl rfl rfl hneeds.symm
        apply h.restage hnext
        intro n m' hm' hsound
        rw [hstage] at hsound
        simp only [Stage.phase] at hsound ⊢
        by_cases hname : n = name
        · rw [hname, hm] at hm'
          cases hm'
          rw [hname] at hsound ⊢
          rw [if_pos rfl] at hsound
          rw [phaseOf_append_self hnot]
          have htree := ((hsound.cached cached root hcached).2 hhit).2
          exact hsound.rooted (by rw [htree]; rfl)
        · rw [if_neg hname] at hsound
          rw [phaseOf_append_of_ne drained hname]
          exact hsound
      · exact hmiss m hm
    · exact hmiss m hm

theorem Sound.serialize {count loaded : Nat} {journal : Patch Key V}
    (hstage : t.stage = .serialize name count journal loaded todo drained)
    (hcalm : result = .ok () → ∀ m, t.store.maps.get name = some m → (t.writers name).isSome →
      loaded ≠ m.modCount) :
    Sound (t.advance result cut) img := by
  have hlisted := h.listed
  rw [hstage] at hlisted
  have hnot := nodup_loop hlisted.nodup
  have hneeds : t.store.needsRoot name = true := hlisted.rooting name rfl
  unfold advance
  rw [hstage]
  simp only
  split
  · -- the root cannot be serialized
    have hleave : Listed t.store (.restore ((name, journal) :: journals drained)) := by
      apply Listed.leave
      have hnodup : (drained.map Drained.name ++ name :: todo).Nodup := hlisted.nodup
      rw [map_cons, map_fst_journals, nodup_cons]
      exact ⟨hnot, (nodup_append.mp hnodup).1⟩
    apply h.restage hleave
    intro n m _ hsound
    rw [hstage] at hsound
    simp only [Stage.phase] at hsound ⊢
    by_cases hname : n = name
    · rw [if_pos hname] at hsound
      rw [hname, restoring_cons_self]
      rw [hname] at hsound
      exact hsound.leave
    · rw [if_neg hname] at hsound
      rw [restoring_cons_of_ne hname, restoring_journals]
      exact hsound.leave
  · exact h
  · rename_i m hm
    have hnext : Listed t.store (.visit todo (drained ++ [⟨name, count, journal, some m.tree⟩])) :=
      hlisted.next rfl rfl rfl hneeds.symm
    apply h.update hnext
    · intro n hn
      rw [hstage]
      simp only [Stage.phase, if_neg hn]
      exact ⟨phaseOf_append_of_ne drained hn, trivial⟩
    · intro m' hget hm'
      rw [hm] at hget
      cases hget
      rw [hstage] at hm'
      simp only [Stage.phase, if_true] at hm' ⊢
      rw [phaseOf_append_self hnot]
      have hle := hm'.loaded loaded rfl
      exact (MapSound.rooted rfl hm').cache hle (hcalm rfl m hm)

theorem Sound.restoring {left : List (String × Patch Key V)} (hstage : t.stage = .restore left) :
    Sound (t.advance result cut) img := by
  have hlisted := h.listed
  rw [hstage] at hlisted
  unfold advance
  rw [hstage]
  cases left with
  | nil =>
    apply h.restage (Listed.idle t.store)
    intro n m _ hm
    rw [hstage] at hm
    exact hm
  | cons first left =>
    obtain ⟨name, journal⟩ := first
    simp only
    split_ifs with hwriter
    · exact h
    · have hnodup : name ∉ left.map Prod.fst ∧ (left.map Prod.fst).Nodup := nodup_cons.mp hlisted.nodup
      apply h.update (Listed.leave hnodup.2)
      · intro n hn
        rw [hstage]
        exact ⟨(restoring_cons_of_ne hn journal left).symm, rfl⟩
      · intro m _ hm
        rw [hstage] at hm
        simp only [Stage.phase] at hm ⊢
        rw [restoring_cons_self] at hm
        rw [restoring_of_not_mem hnodup.1]
        exact hm.restore

theorem Sound.unwritten (hstage : t.stage = .write drained) (e : H2Error) :
    Sound (t.advance (.error e) cut) img := by
  have hlisted := h.listed
  rw [hstage] at hlisted
  unfold advance
  rw [hstage]
  have hleave : Listed t.store (.restore (journals drained)) := by
    apply Listed.leave
    rw [map_fst_journals]
    exact hlisted.nodup
  apply h.restage hleave
  intro n m _ hsound
  rw [hstage] at hsound
  simp only [Stage.phase] at hsound ⊢
  rw [restoring_journals]
  exact hsound.leave

end Steps

/-! ## The record -/

def mapped (c : Contents V) (d : Drained V) : Option (Key → Option V) :=
  match d.root with
  | some root => some root.get
  | none => (c d.name).map d.journal.apply

def written (img : Contents V) (drained : List (Drained V)) : Contents V := fun n =>
  (drained.find? fun d => d.name = n).bind (mapped img)

variable {drained : List (Drained V)} {d : Drained V} {delta : MapDelta (Root V) V} {s : MVStore V}

theorem find_drained (hnd : (drained.map Drained.name).Nodup) (hd : d ∈ drained) :
    (drained.find? fun e => e.name = d.name) = some d := by
  induction drained with
  | nil => cases hd
  | cons e drained ih =>
    rw [map_cons, nodup_cons] at hnd
    rcases mem_cons.mp hd with rfl | hd
    · exact find?_cons_of_pos (by simp)
    · have hne : e.name ≠ d.name := fun h => hnd.1 (h ▸ mem_map_of_mem hd)
      rw [find?_cons_of_neg (by simpa using hne)]
      exact ih hnd.2 hd

theorem written_of_mem (hnd : (drained.map Drained.name).Nodup) (hd : d ∈ drained) (img : Contents V) :
    written img drained d.name = mapped img d := by
  rw [written, find_drained hnd hd]
  rfl

theorem recorded_roots (hnd : (drained.map Drained.name).Nodup) (hroots : ∀ d ∈ drained, d.root.isSome = true)
    (img : Contents V) (id version : Nat) :
    MVStore.recorded (.new id version (MVStore.catalogOf
      (drained.filterMap fun d => d.root.map fun root => (d.name, root)))) = written img drained := by
  have hnames : ((drained.filterMap fun d => d.root.map fun root => (d.name, root)).map Prod.fst).Nodup := by
    have hsub : ((drained.filterMap fun d => d.root.map fun root => (d.name, root)).map Prod.fst).Sublist
        (drained.map Drained.name) := by
      clear hnd hroots
      induction drained with
      | nil => exact List.Sublist.slnil
      | cons d drained ih =>
        cases hroot : d.root with
        | none => simpa [hroot] using ih.cons d.name
        | some root => simpa [hroot] using ih
    exact hsub.nodup hnd
  funext n
  rw [MVStore.recorded]
  change ((MVStore.catalogOf _).get n).map MVTree.get = _
  by_cases hn : n ∈ drained.map Drained.name
  · obtain ⟨d, hd, rfl⟩ := mem_map.mp hn
    obtain ⟨root, hroot⟩ := isSome_iff_exists.mp (hroots d hd)
    have hmem : (d.name, root) ∈ drained.filterMap fun d => d.root.map fun root => (d.name, root) :=
      mem_filterMap.mpr ⟨d, hd, by rw [hroot]; rfl⟩
    rw [(MVStore.get_catalogOf hnames d.name root).mpr hmem, written_of_mem hnd hd, mapped, hroot]
    rfl
  · have hnone : (MVStore.catalogOf
        (drained.filterMap fun d => d.root.map fun root => (d.name, root))).get n = none := by
      rw [← not_isSome_iff_eq_none]
      intro hsome
      obtain ⟨root, hroot⟩ := isSome_iff_exists.mp hsome
      obtain ⟨d, hd, hpair⟩ := mem_filterMap.mp ((MVStore.get_catalogOf hnames n root).mp hroot)
      obtain ⟨_, _, heq⟩ := map_eq_some_iff.mp hpair
      exact hn (mem_map.mpr ⟨d, hd, (Prod.mk.inj heq).1⟩)
    rw [hnone, written, find_eq_none_of_not_mem hn]
    rfl

theorem delta_name (h : d.delta = some delta) :
    delta.name = d.name := by
  unfold Drained.delta at h
  cases hroot : d.root with
  | some root =>
    rw [hroot] at h
    cases h
    rfl
  | none =>
    rw [hroot] at h
    simp only at h
    split_ifs at h
    cases h
    rfl

theorem nodup_deltas (hnd : (drained.map Drained.name).Nodup) :
    ((drained.filterMap Drained.delta).map MapDelta.name).Nodup := by
  have hsub : ((drained.filterMap Drained.delta).map MapDelta.name).Sublist (drained.map Drained.name) := by
    clear hnd
    induction drained with
    | nil => exact List.Sublist.slnil
    | cons d drained ih =>
      rw [filterMap_cons, map_cons]
      cases hdelta : d.delta with
      | none => exact ih.cons _
      | some delta =>
        rw [map_cons, delta_name hdelta]
        exact ih.cons_cons _
  exact hsub.nodup hnd

theorem replayed_delta (h : d.delta = some delta) (c : Contents V) :
    MVStore.replayed c delta = mapped c d := by
  unfold Drained.delta at h
  unfold mapped
  cases hroot : d.root with
  | some root =>
    rw [hroot] at h
    cases h
    rfl
  | none =>
    rw [hroot] at h
    simp only at h
    split_ifs at h
    cases h
    change (c d.name).map _ = _
    congr 1
    funext f
    exact Patch.replay_changeList d.journal f

theorem mapped_of_none (h : d.delta = none) (c : Contents V) : mapped c d = c d.name := by
  unfold Drained.delta at h
  unfold mapped
  cases hroot : d.root with
  | some root =>
    rw [hroot] at h
    cases h
  | none =>
    rw [hroot] at h
    simp only at h ⊢
    split_ifs at h with hempty
    cases c d.name with
    | none => rfl
    | some f => exact congrArg some (Patch.apply_of_isEmpty hempty f)

theorem delta_replayable (hcp : s.hasCheckpoint = true) (hk : s.Known img)
    (hroot : d.root.isSome = s.needsRoot d.name) (h : d.delta = some delta) :
    delta.replaceRoot.isSome ∨ (img d.name).isSome := by
  unfold Drained.delta at h
  cases hsome : d.root with
  | some root =>
    rw [hsome] at h
    cases h
    exact .inl rfl
  | none =>
    right
    rw [hsome] at hroot
    have hneeds : s.needsRoot d.name = false := hroot.symm
    exact (hk hcp d.name).mp (MVStore.needsRoot_eq_false.mp hneeds).2

theorem delta_record_holds (hcp : s.hasCheckpoint = true) (hf : MVStore.Holds s.file img)
    (hk : s.Known img) (hlisted : Listed s (.write drained)) :
    MVStore.Holds (s.file.append (record s drained)) (written img drained) := by
  obtain ⟨maps, hmaps, hcont⟩ := hf
  have hnd : (drained.map Drained.name).Nodup := hlisted.nodup
  -- dropping the removed maps leaves the image of the live ones
  have hcont₁ : ∀ n, MVStore.contents (s.removedMaps.foldl Registry.remove maps) n =
      if n ∈ s.removedMaps then none else img n := by
    intro n
    rw [MVStore.contents_foldl_remove, hcont]
  have hlive : ∀ n, n ∈ drained.map Drained.name →
      MVStore.contents (s.removedMaps.foldl Registry.remove maps) n = img n := by
    intro n hn
    rw [hcont₁, if_neg]
    rw [MVStore.mem_removedMaps hcp hk, Registry.get_eq_none]
    intro hremoved
    have hfound := (hlisted.covers rfl n).mp hn
    rw [hremoved.2] at hfound
    cases hfound
  have hdeltas : ∀ delta ∈ drained.filterMap Drained.delta, ∃ d ∈ drained, d.delta = some delta :=
    fun delta hdelta => mem_filterMap.mp hdelta
  obtain ⟨maps', hrun, hin, hout⟩ := MVStore.foldlM_replayMapDelta (nodup_deltas hnd)
    (s.removedMaps.foldl Registry.remove maps) (by
      intro delta hdelta
      obtain ⟨d, hd, heq⟩ := hdeltas delta hdelta
      rw [delta_name heq, hlive d.name (mem_map_of_mem hd)]
      exact delta_replayable hcp hk (hlisted.roots d hd) heq)
  refine ⟨maps', ?_, ?_⟩
  · rw [record, if_pos hcp]
    exact MVStore.replayChain_delta hmaps hrun
  · funext n
    by_cases hn : n ∈ drained.map Drained.name
    · obtain ⟨d, hd, rfl⟩ := mem_map.mp hn
      rw [written_of_mem hnd hd]
      have hmapped : mapped (MVStore.contents (s.removedMaps.foldl Registry.remove maps)) d =
          mapped img d := by
        rw [mapped, mapped, hlive d.name hn]
      cases hdelta : d.delta with
      | some delta =>
        have hmem : delta ∈ drained.filterMap Drained.delta := mem_filterMap.mpr ⟨d, hd, hdelta⟩
        rw [← delta_name hdelta, hin delta hmem, replayed_delta hdelta, hmapped]
      | none =>
        have hnot : d.name ∉ (drained.filterMap Drained.delta).map MapDelta.name := by
          intro hmem
          obtain ⟨delta, hdelta', hname⟩ := mem_map.mp hmem
          obtain ⟨e, he, heq⟩ := hdeltas delta hdelta'
          have hsame : e.name = d.name := (delta_name heq).symm.trans hname
          have hed : e = d := by
            have hfound := find_drained hnd he
            rw [hsame, find_drained hnd hd] at hfound
            exact (Option.some.inj hfound).symm
          rw [hed, hdelta] at heq
          cases heq
        rw [hout d.name hnot, hlive d.name hn, mapped_of_none hdelta]
    · have hnot : n ∉ (drained.filterMap Drained.delta).map MapDelta.name := by
        intro hmem
        obtain ⟨delta, hdelta, hname⟩ := mem_map.mp hmem
        obtain ⟨d, hd, heq⟩ := hdeltas delta hdelta
        exact hn (hname ▸ delta_name heq ▸ mem_map_of_mem hd)
      have hlost : s.maps.find n = none := by
        rw [← not_isSome_iff_eq_none]
        exact fun hfound => hn ((hlisted.covers rfl n).mpr hfound)
      rw [hout n hnot, hcont₁, written, find_eq_none_of_not_mem hn, bind_none]
      split_ifs with hremoved
      · rfl
      · rw [MVStore.mem_removedMaps hcp hk, Registry.get_eq_none] at hremoved
        exact not_isSome_iff_eq_none.mp fun hsome => hremoved ⟨hsome, hlost⟩

theorem record_holds (hf : MVStore.Holds s.file img) (hk : s.Known img)
    (hlisted : Listed s (.write drained)) :
    MVStore.Holds (s.file.append (record s drained)) (written img drained) := by
  cases hcp : s.hasCheckpoint with
  | true => exact delta_record_holds hcp hf hk hlisted
  | false =>
    have hroots : ∀ d ∈ drained, d.root.isSome = true := fun d hd => by
      rw [hlisted.roots d hd, MVStore.needsRoot, hcp]
      rfl
    rw [← recorded_roots hlisted.nodup hroots img s.chunkIdCounter (s.version + 1), record, hcp]
    exact MVStore.holds_chunk _ _

/-! ## Publication -/

theorem isSome_lookup_toAList (drained : List (Drained V)) (n : String) :
    ((List.toAList (drained.map fun d =>
      (⟨d.name, d.modificationCount⟩ : Sigma fun _ : String => Nat))).lookup
      n).isSome ↔ n ∈ drained.map Drained.name := by
  rw [AList.lookup_to_alist, dlookup_isSome, List.keys, map_map]
  rfl

theorem isSome_written (hk : s.Known img) (hlisted : Listed s (.write drained)) (n : String) :
    (written img drained n).isSome ↔ n ∈ drained.map Drained.name := by
  constructor
  · intro hsome
    by_contra hn
    rw [written, find_eq_none_of_not_mem hn] at hsome
    cases hsome
  · intro hn
    obtain ⟨d, hd, rfl⟩ := mem_map.mp hn
    rw [written_of_mem hlisted.nodup hd, mapped]
    cases hroot : d.root with
    | some root => rfl
    | none =>
      have hneeds := hlisted.roots d hd
      rw [hroot] at hneeds
      obtain ⟨f, hf⟩ := hk.image hneeds.symm
      simp only [hf, map_some, isSome_some]

theorem MapSound.published {hasCheckpoint : Bool} {writer : Option (Mutation V)}
    {m : MVMap V} (h : MapSound hasCheckpoint (img d.name) writer ⟨d.journal, true, d.root, false, none⟩ m)
    (hroot : d.root = none → hasCheckpoint = true) :
    MapSound true (mapped img d) writer .untouched m := by
  constructor
  · exact h.cached
  · exact fun _ => h.enabled (.inr rfl)
  · intro _ f hf
    change m.Tracks f
    cases hsome : d.root with
    | some root =>
      rw [mapped, hsome] at hf
      cases hf
      exact (h.root root hsome).2
    | none =>
      rw [mapped, hsome] at hf
      obtain ⟨g, hg, rfl⟩ := map_eq_some_iff.mp hf
      exact h.tracks (hroot hsome) g hg
  · intro root hsome
    cases hsome
  · intro hloading
    cases hloading
  · intro loaded hloaded
    cases hloaded

theorem Listed.mem_drained (h : Listed s (.write drained)) {m : MVMap V}
    (hm : s.maps.get n = some m) : ∃ d ∈ drained, d.name = n := by
  have hn : n ∈ drained.map Drained.name := by
    rw [show drained.map Drained.name = (Stage.write drained).names from rfl, h.covers rfl n,
      isSome_iff_ne_none, ne_eq, ← Registry.get_eq_none, hm]
    exact some_ne_none m
  exact mem_map.mp hn

theorem Sound.published (h : Sound t img) (hstage : t.stage = .write drained) (cut : H2Result Unit) :
    Sound (t.advance (.ok ()) cut) (written img drained) := by
  have hlisted := h.listed
  rw [hstage] at hlisted
  have hnd : (drained.map Drained.name).Nodup := hlisted.nodup
  unfold advance
  rw [hstage]
  constructor
  · exact record_holds h.holds h.known hlisted
  · intro _ n
    simp only [publish]
    rw [isSome_lookup_toAList]
    exact (isSome_written h.known hlisted n).symm
  · intro n m hm
    have hsound := h.maps n m hm
    obtain ⟨d, hd, rfl⟩ := hlisted.mem_drained hm
    rw [hstage] at hsound
    rw [written_of_mem hnd hd]
    have hphase : Stage.phase d.name (.write drained) = ⟨d.journal, true, d.root, false, none⟩ := by
      rw [Stage.phase, phaseOf, find_drained hnd hd]
    rw [hphase] at hsound
    apply hsound.published
    intro hroot
    have hneeds := hlisted.roots d hd
    rw [hroot] at hneeds
    exact (MVStore.needsRoot_eq_false.mp hneeds.symm).1
  · exact Listed.idle _

end Shared

end H2Database.Mvstore
