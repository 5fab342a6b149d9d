import H2Database.Mvstore.Tx.Coverage

/-!
# Replaying a log that the file already covers

Opening replays the whole log over the last image, also the records the image has in it, which are
there when a crash falls between the publication of a checkpoint and the cut of the log.  `clear_map`
and `remove_map`, which are not logged, can make the replayed records wrong.
-/

namespace H2Database.Mvstore

open Reasoning MVStore VersionedValue TransactionStore List Nat Option

namespace TxSystem

/-! ## Operations below the transactions -/

theorem Owned.withMaps {s s' : MVStore Stored} {wc : WriteCall} (h : Owned s wc)
    (hobjects : s.maps.objects.length ≤ s'.maps.objects.length)
    (hfind : ∀ n, s'.maps.find n = some wc.map → s.maps.find n = some wc.map) : Owned s' wc :=
  ⟨lt_of_lt_of_le h.1 hobjects, fun n hn => h.2 n (hfind n hn)⟩

theorem Touched.of_withStore {sys : TxSystem} {s' : MVStore Stored} {n : String} {k : Key}
    (h : (sys.withStore s').Touched n k)
    (hwal : s'.wal.flatMap WalRecord.changes ⊆ sys.store.mvstore.wal.flatMap WalRecord.changes)
    (hmarks : (s'.versioned n k).uncommitted ≠ none →
      (sys.store.mvstore.versioned n k).uncommitted ≠ none) : sys.Touched n k := by
  cases h with
  | logged value hmem => exact .logged value (hwal hmem)
  | named ht hnames => exact .named ht hnames
  | marked hmark => exact .marked (hmarks hmark)

namespace Covered

variable {sys : TxSystem} {atImage : MVStore Stored} {img : Contents Stored}

section

variable (h : Covered sys atImage img)

include h

theorem handles_withStore {s' : MVStore Stored}
    (howned : ∀ wc, Owned sys.store.mvstore wc → Owned s' wc) : (sys.withStore s').Handles :=
  fun tx t w ht hw => howned w.call (h.handles tx t w ht hw)

theorem unpublished :
    Covered (sys.withStore sys.store.mvstore.unpublished) atImage img := by
  have hread := read_unpublished sys.store.mvstore
  have hversioned := versioned_congr hread
  refine ⟨h.orderly.withStore (h.orderly.versioned.congr hread) h.orderly.counter,
    h.handles_withStore fun wc howned => howned.withMaps ?_ fun _ hn => hn, h.journaled.unpublished,
    ⟨?_, h.dates.image, h.dates.file, h.dates.log⟩, fun n k value hlast => ?_, fun n k ht => ?_⟩
  · exact le_of_eq (length_mapIdx).symm
  · change ∀ n k, ∀ r ∈ (sys.store.mvstore.unpublished.versioned n k).committedHistory, _
    rw [hversioned]
    exact h.dates.stored
  · change newest value = newest (sys.store.mvstore.unpublished.read n k)
    rw [hread]
    exact h.logged n k value hlast
  · refine (h.tracked n k (ht.of_withStore (fun _ hc => hc) fun hm => ?_)).unpublished
    rwa [← hversioned]

theorem dates_published :
    Dates sys.store.mvstore.published (sys.store.mvstore.nextImage img) := by
  set s := sys.store.mvstore
  have hversioned := versioned_congr (read_published s)
  have hfile := version_file_published s
  refine ⟨fun n k r hr => ?_, fun n k stored hb => ?_, le_of_eq hfile, fun r hr => ?_⟩
  · rw [hversioned] at hr
    exact le_succ_of_le (h.dates.stored n k r hr)
  · rw [hfile]
    change s.nextRead img n k = some stored at hb
    rcases nextRead_cases h.journaled n k with hcase | hcase
    · rw [hcase] at hb
      exact (dated_of_read h.orderly.versioned (h.dates.stored n k) hb).mono (le_succ _)
    · rw [hcase] at hb
      exact (h.dates.image n k stored hb).mono (le_succ_of_le h.dates.file)
  · obtain ⟨hle, hdated⟩ := h.dates.log r hr
    exact ⟨le_succ_of_le hle, hdated⟩

theorem published :
    Covered (sys.withStore sys.store.mvstore.published) sys.store.mvstore.published
      (sys.store.mvstore.nextImage img) := by
  have hread := read_published sys.store.mvstore
  have hversioned := versioned_congr hread
  refine ⟨h.orderly.withStore (h.orderly.versioned.congr hread) (le_max_right _ _),
    h.handles_withStore fun wc howned => howned.withMaps ?_ fun _ hn => hn, h.journaled.published,
    h.dates_published, fun n k value hlast => ?_, fun n k ht => ?_⟩
  · exact le_of_eq (length_mapIdx).symm
  · change newest value = newest (sys.store.mvstore.published.read n k)
    rw [hread]
    exact h.logged n k value hlast
  · refine (h.tracked n k (ht.of_withStore (fun _ hc => hc) fun hm => ?_)).published h.journaled
    rwa [← hversioned]

theorem cut :
    Covered (sys.withStore { sys.store.mvstore with wal := [] }) atImage img where
  orderly := h.orderly.withStore h.orderly.versioned h.orderly.counter
  handles := h.handles_withStore fun _ howned => howned
  journaled := h.journaled.withWal [] atImage.wal
  dates := ⟨h.dates.stored, h.dates.image, h.dates.file, fun _ hr => (by cases hr)⟩
  logged _ _ _ hlast := by cases hlast
  tracked n k ht := h.tracked n k (ht.of_withStore (nil_subset _) fun hm => hm)

theorem checkpoint (io : WriteOutcome) : ∃ atImage' img',
    Covered (sys.withStore (sys.store.mvstore.checkpoint io).2) atImage' img' := by
  unfold MVStore.checkpoint
  split
  · exact ⟨atImage, img, h.unpublished⟩
  · exact ⟨_, _, h.published⟩
  · exact ⟨_, _, h.published.cut⟩

end

variable {name : String}

section

variable (h : Covered sys atImage img)

include h

theorem emptied {s' : MVStore Stored}
    (hd : DataStep sys.store.mvstore s') (hwal : s'.wal = sys.store.mvstore.wal)
    (hversion : s'.version = sys.store.mvstore.version)
    (hnext : s'.nextCommitVersion = sys.store.mvstore.nextCommitVersion)
    (hread : ∀ n k, s'.read n k = if n = name then none else sys.store.mvstore.read n k)
    (hlive : sys.store.mvstore.liveLogged name = false)
    (howned : ∀ wc, Owned sys.store.mvstore wc → Owned s' wc)
    (htracked : ∀ n k, (sys.withStore s').Touched n k → s'.Tracked img n k) :
    Covered (sys.withStore s') atImage img := by
  have hv : s'.AllVersioned := by
    intro n k stored hst
    rw [hread] at hst
    split_ifs at hst
    exact h.orderly.versioned n k stored hst
  refine ⟨h.orderly.withStore hv ?_, h.handles_withStore howned, h.journaled.dataStep hd,
    ⟨fun n k r hr => ?_, ?_, ?_, ?_⟩, fun n k value hlast => ?_, htracked⟩
  · rw [hversion, hnext]
    exact h.orderly.counter
  · change r ∈ (s'.versioned n k).committedHistory at hr
    change r.commitVersion ≤ s'.version
    rw [hversion]
    have hkey := hread n k
    split_ifs at hkey
    · rw [versioned_of_read_none hkey] at hr
      cases hr
    · rw [versioned_of_read_eq hkey] at hr
      exact h.dates.stored n k r hr
  · intro n k stored hb
    change stored.Dated s'.file.version
    rw [hd.file]
    exact h.dates.image n k stored hb
  · change s'.file.version ≤ s'.version
    rw [hd.file, hversion]
    exact h.dates.file
  · change ∀ r ∈ s'.wal, r.commitVersion ≤ s'.version ∧ _
    rw [hwal, hversion]
    exact h.dates.log
  · change lastChange n k (s'.wal.flatMap WalRecord.changes) = some value at hlast
    change newest value = newest (s'.read n k)
    rw [hwal] at hlast
    rw [hread]
    split_ifs with hn
    · exact newest_of_not_liveLogged hlive (hn ▸ hlast)
    · exact h.logged n k value hlast

theorem clearMap (hlive : sys.store.mvstore.liveLogged name = false) :
    Covered (sys.withStore (sys.store.mvstore.clearMap name)) atImage img := by
  have hread := read_clearMap sys.store.mvstore name
  have hframe : (sys.store.mvstore.clearMap name).wal = sys.store.mvstore.wal ∧
      (sys.store.mvstore.clearMap name).version = sys.store.mvstore.version ∧
      (sys.store.mvstore.clearMap name).nextCommitVersion =
        sys.store.mvstore.nextCommitVersion ∧
      (sys.store.mvstore.clearMap name).maps.find = sys.store.mvstore.maps.find := by
    unfold MVStore.clearMap
    split <;> exact ⟨rfl, rfl, rfl, rfl⟩
  obtain ⟨hwal, hversion, hnext, hfind⟩ := hframe
  have hd := dataStep_clearMap sys.store.mvstore name
  refine h.emptied hd hwal hversion hnext hread hlive (fun wc howned => ?_) fun n k ht => ?_
  · exact howned.withMaps hd.objects fun n hn => hfind ▸ hn
  · refine (h.tracked n k (ht.of_withStore (by rw [hwal]; exact List.Subset.refl _) fun hm => ?_))
      |>.clearMap h.journaled.armed name
    have hkey := hread n k
    split_ifs at hkey
    · rw [versioned_of_read_none hkey] at hm
      exact absurd rfl hm
    · rwa [versioned_of_read_eq hkey] at hm

theorem removeMap (hlive : sys.store.mvstore.liveLogged name = false)
    (hmentions : sys.store.mvstore.needsRoot name = true ∨ sys.mentions name = false) :
    Covered (sys.withStore (sys.store.mvstore.removeMap name).2) atImage img := by
  have hread := read_removeMap sys.store.mvstore name
  have hd := dataStep_removeMap sys.store.mvstore name
  refine h.emptied hd rfl rfl rfl hread hlive (fun wc howned => ?_) fun n k ht => ?_
  · refine howned.withMaps hd.objects fun n hn => ?_
    change (sys.store.mvstore.maps.remove name).find n = some wc.map at hn
    rw [Registry.find_remove] at hn
    split_ifs at hn
    exact hn
  · have hkey := hread n k
    by_cases hn : n = name
    · subst hn
      rw [if_pos rfl] at hkey
      rcases hmentions with hroot | hsilent
      · exact ⟨nextRead_of_needsRoot (s := (sys.store.mvstore.removeMap n).2) hroot img k,
          fun _ => hroot⟩
      · -- nobody names a key of the map, and its marks are gone with it
        have hsame : (sys.withStore (sys.store.mvstore.removeMap n).2).mentions n = false := hsilent
        have hmark := marked_of_not_mentions hsame ht
        change ((sys.store.mvstore.removeMap n).2.versioned n k).uncommitted ≠ none at hmark
        rw [versioned_of_read_none hkey] at hmark
        exact absurd rfl hmark
    · rw [if_neg hn] at hkey
      refine (h.tracked n k (ht.of_withStore (List.Subset.refl _) fun hm => ?_)).removeMap
        fun heq => absurd heq hn
      rwa [versioned_of_read_eq hkey] at hm

theorem vacuumMap (name : String) :
    Covered { sys with store := (sys.store.vacuumMap name).2 } atImage img := by
  have hvac := vacuumMap_vacuumed sys.store name
  obtain ⟨_, _, s', _, _, _, heq⟩ := vacuumMap_eq sys.store name
  rw [heq] at hvac ⊢
  change Covered (sys.withStore s') atImage img
  have hmaps : OnlyMaps sys.store.mvstore s' := hvac.maps
  have hedited : Edited sys.store.mvstore s' := hvac.edited
  have hkey := hvac.versioned h.orderly.versioned
  have hv : s'.AllVersioned := hvac.allVersioned h.orderly.versioned
  have hversion : s'.version = sys.store.mvstore.version := by rw [hmaps]
  have hwal : s'.wal = sys.store.mvstore.wal := by rw [hmaps]
  have hnext : s'.nextCommitVersion = sys.store.mvstore.nextCommitVersion := by rw [hmaps]
  have hfile : s'.file = sys.store.mvstore.file := by rw [hmaps]
  refine ⟨h.orderly.withStore hv ?_, h.handles_withStore fun wc howned => howned.edited hedited,
    h.journaled.dataStep hedited.dataStep, ⟨fun n k r hr => ?_, ?_, ?_, ?_⟩,
    fun n k value hlast => ?_, fun n k ht => ?_⟩
  · rw [hversion, hnext]
    exact h.orderly.counter
  · change r.commitVersion ≤ s'.version
    rw [hversion]
    exact h.dates.stored n k r ((hkey n k).history hr)
  · intro n k stored hb
    change stored.Dated s'.file.version
    rw [hfile]
    exact h.dates.image n k stored hb
  · change s'.file.version ≤ s'.version
    rw [hfile, hversion]
    exact h.dates.file
  · change ∀ r ∈ s'.wal, r.commitVersion ≤ s'.version ∧ _
    rw [hwal, hversion]
    exact h.dates.log
  · change lastChange n k (s'.wal.flatMap WalRecord.changes) = some value at hlast
    change newest value = newest (s'.read n k)
    rw [hwal] at hlast
    rw [h.logged n k value hlast, newest_read, newest_read]
    exact (hkey n k).newest.symm
  · refine h.tracked_edited hedited (ht.of_withStore (by rw [hwal]; exact List.Subset.refl _) ?_)
    intro hm
    rw [← (hkey n k).uncommitted]
    exact hm

end

end Covered

/-! ## Crashes -/

theorem le_maxVersion (wal : List (WalRecord Stored)) (v : Nat) :
    v ≤ wal.foldl (fun v r => if v < r.commitVersion then r.commitVersion else v) v ∧
    ∀ r ∈ wal, r.commitVersion ≤
      wal.foldl (fun v r => if v < r.commitVersion then r.commitVersion else v) v := by
  induction wal generalizing v with
  | nil => exact ⟨le_refl v, fun r hr => (by cases hr)⟩
  | cons r wal ih =>
    rw [foldl_cons]
    set next := if v < r.commitVersion then r.commitVersion else v
    have hv : v ≤ next ∧ r.commitVersion ≤ next := by
      dsimp only [next]
      split_ifs with hlt
      · exact ⟨le_of_lt hlt, le_refl _⟩
      · exact ⟨le_refl _, not_lt.mp hlt⟩
    obtain ⟨hle, hall⟩ := ih next
    refine ⟨le_trans hv.1 hle, fun r' hr' => ?_⟩
    rcases mem_cons.mp hr' with rfl | hr'
    · exact le_trans hv.2 hle
    · exact hall r' hr'

theorem covered_openAt {file : FileImage Stored} {img : Contents Stored} (hholds : Holds file img)
    (himg : ∀ n k stored, binding img n k = some stored → stored.Dated file.version)
    {wal : List (WalRecord Stored)}
    (hlog : ∀ r ∈ wal, ∀ n k stored, ⟨n, k, some stored⟩ ∈ r.changes →
      stored.Dated r.commitVersion) :
    ∃ s, openAt file wal = .ok s ∧ (∃ atImage, Covered (new s) atImage img) ∧
      ∀ n k, s.read n k =
        (lastChange n k (wal.flatMap WalRecord.changes)).getD (binding img n k) := by
  obtain ⟨s₀, s, _, hopen, hj, hstep, hwal, _, hread⟩ := read_openAt hholds wal
  obtain ⟨hnext, hversion⟩ := openAt_versions hopen
  have hfile : s.file = file := openAt_file hopen
  obtain ⟨hle, hall⟩ := le_maxVersion wal file.version
  rw [← hversion] at hle hall
  have hdated : ∀ n k stored, s.read n k = some stored → stored.Dated s.version := by
    intro n k stored hst
    rw [hread] at hst
    cases hlast : lastChange n k (wal.flatMap WalRecord.changes) with
    | none =>
      rw [hlast, getD_none] at hst
      exact (himg n k stored hst).mono hle
    | some value =>
      rw [hlast, getD_some] at hst
      subst hst
      obtain ⟨r, hr, hc⟩ := mem_flatMap.mp (exists_of_lastChange hlast)
      exact (hlog r hr n k stored hc).mono (hall r hr)
  have hv : s.AllVersioned := by
    intro n k stored hst
    obtain ⟨vv, hvv, _⟩ := hdated n k stored hst
    exact ⟨vv, hvv⟩
  refine ⟨s, hopen, ⟨s₀, orderly_new hv (le_of_eq hnext.symm), fun _ _ _ ht => (by cases ht),
    hj.dataStep hstep, ⟨fun n k r hr => ?_, fun n k stored hb => ?_, ?_, fun r hr => ?_⟩,
    fun n k value hlast => ?_, fun n k _ => tracked_openAt hholds hopen n k⟩, hread⟩
  · change r ∈ (s.versioned n k).committedHistory at hr
    rcases hv.read n k with hnone | hsome
    · rw [versioned_of_read_none hnone] at hr
      cases hr
    · obtain ⟨vv, hvv, hrecords⟩ := hdated n k _ hsome
      cases hvv
      exact hrecords r hr
  · change stored.Dated s.file.version
    rw [hfile]
    exact himg n k stored hb
  · change s.file.version ≤ s.version
    rw [hfile]
    exact hle
  · change r ∈ s.wal at hr
    rw [hwal] at hr
    exact ⟨hall r hr, hlog r hr⟩
  · change lastChange n k (s.wal.flatMap WalRecord.changes) = some value at hlast
    rw [hwal] at hlast
    change newest value = newest (s.read n k)
    rw [hread, hlast, getD_some]

theorem Covered.replay {sys : TxSystem} {atImage : MVStore Stored} {img : Contents Stored}
    (h : Covered sys atImage img) :
    let s := sys.store.mvstore
    ∃ s₁ s₂, openAt s.published.file s.published.wal = .ok s₁ ∧
      openAt (s.checkpoint .done).2.file (s.checkpoint .done).2.wal = .ok s₂ ∧
      ∀ n k, s₁.visible n k = s₂.visible n k := by
  intro s
  have hp := h.published
  obtain ⟨s₁, hopen₁, ⟨_, h₁⟩, hread₁⟩ := covered_openAt hp.journaled.holds hp.dates.image hp.logs
  obtain ⟨s₂, hopen₂, ⟨_, h₂⟩, hread₂⟩ :=
    covered_openAt hp.journaled.holds hp.dates.image hp.cut.logs
  refine ⟨s₁, s₂, hopen₁, hopen₂, fun n k => ?_⟩
  have hread₁ : s₁.read n k =
      (lastChange n k (s.wal.flatMap WalRecord.changes)).getD (s.nextRead img n k) := hread₁ n k
  have hread₂ : s₂.read n k = s.nextRead img n k := hread₂ n k
  calc s₁.visible n k = newest (s₁.read n k) := h₁.visible n k
    _ = newest (s₂.read n k) := ?_
    _ = s₂.visible n k := (h₂.visible n k).symm
  rw [hread₁, hread₂]
  cases hlast : lastChange n k (s.wal.flatMap WalRecord.changes) with
  | none => rfl
  | some value =>
    rw [getD_some, h.logged n k value hlast,
      (h.tracked n k (.logged value (exists_of_lastChange hlast))).1]

end TxSystem

namespace TracedTx

/-- The condition on the operations that are not logged: no key of the map was last logged with a
value, and a map of the last image is dropped only when neither the log nor an open transaction speaks
of it. -/
def LogSettled (t : TracedTx) : DbOp → Prop
  | .clearMap name => t.sys.store.mvstore.liveLogged name = false
  | .removeMap name => t.sys.store.mvstore.liveLogged name = false ∧
      (t.sys.store.mvstore.needsRoot name = true ∨ t.sys.mentions name = false)
  | _ => True

theorem covered_perform {t : TracedTx} {op : DbOp}
    (h : ∃ atImage img, t.sys.Covered atImage img) (hop : t.LogSettled op) :
    ∃ atImage img, (t.perform op).sys.Covered atImage img := by
  obtain ⟨atImage, img, h⟩ := h
  cases op with
  | call c =>
    exact ⟨atImage, img, h.effect (h.orderly.step_effect c)⟩
  | checkpoint io => exact h.checkpoint io
  | clearMap name => exact ⟨atImage, img, h.clearMap hop⟩
  | removeMap name => exact ⟨atImage, img, h.removeMap hop.1 hop.2⟩
  | vacuumMap name => exact ⟨atImage, img, h.vacuumMap name⟩
  | crash kept =>
    have hlog : ∀ r ∈ t.sys.store.mvstore.wal.take kept, ∀ n k stored,
        ⟨n, k, some stored⟩ ∈ r.changes → stored.Dated r.commitVersion :=
      fun r hr => h.logs r (mem_of_mem_take hr)
    obtain ⟨s, hopen, ⟨atImage', hs⟩, _⟩ :=
      TxSystem.covered_openAt h.journaled.holds h.dates.image hlog
    refine ⟨atImage', img, ?_⟩
    simp only [perform, hopen]
    exact hs

/-- In every run whose map operations meet the condition, a crash before the log is cut leaves the same
committed contents as a crash after it. -/
theorem replay_after_publication (ops : List DbOp)
    (hm : Meets perform LogSettled (new MVStore.new) ops) :
    let s := (runs perform (new MVStore.new) ops).sys.store.mvstore
    ∃ s₁ s₂, openAt s.published.file s.published.wal = .ok s₁ ∧
      openAt (s.checkpoint .done).2.file (s.checkpoint .done).2.wal = .ok s₂ ∧
      ∀ n k, s₁.visible n k = s₂.visible n k := by
  intro s
  have hstep : ∀ (t : TracedTx) op, (∃ atImage img, t.sys.Covered atImage img) →
      t.LogSettled op → ∃ atImage img, (t.perform op).sys.Covered atImage img :=
    fun _ _ => covered_perform
  obtain ⟨atImage, img, h⟩ := invariant_runs hstep ⟨_, _, TxSystem.covered_new⟩ hm
  exact h.replay

/-- A checkpoint whose log could not be cut, a deletion, and the vacuum, clearing and removal of the
map. -/
def deletedMapOps : List DbOp :=
  [.call .begin, .call (.put 1 "a" [1] [10] none), .call (.commit 1 (.ok ())),
    .checkpoint ⟨.ok (), .error (.storage "no space")⟩, .call .begin, .call (.remove 2 "a" [1] none),
    .call (.commit 2 (.ok ())), .vacuumMap "a", .clearMap "a", .checkpoint .done, .removeMap "a",
    .call .begin, .call (.put 3 "a" [2] [20] none), .call (.commit 3 (.ok ()))]

theorem replay_after_publication_sample :
    let s := (runs perform (new MVStore.new) deletedMapOps).sys.store.mvstore
    ∃ s₁ s₂, openAt s.published.file s.published.wal = .ok s₁ ∧
      openAt (s.checkpoint .done).2.file (s.checkpoint .done).2.wal = .ok s₂ ∧
      ∀ n k, s₁.visible n k = s₂.visible n k :=
  replay_after_publication deletedMapOps
    ⟨trivial, trivial, trivial, trivial, trivial, trivial, trivial, trivial,
      by change MVStore.liveLogged _ _ = false; decide +kernel, trivial,
      ⟨by decide +kernel, Or.inr (by decide +kernel)⟩, trivial, trivial, trivial, trivial⟩

def clearedMapOps : List DbOp :=
  [.call .begin, .call (.put 1 "a" [1] [10] none), .call (.commit 1 (.ok ())), .clearMap "a"]

/-- The cleared key comes back when the crash falls before the cut of the log. -/
theorem replay_revives_cleared_key :
    let s := (runs perform (new MVStore.new) clearedMapOps).sys.store.mvstore
    (openAt s.published.file s.published.wal).toOption.map (fun s => s.visible "a" [1]) =
      some (some [10]) ∧
    (openAt (s.checkpoint .done).2.file (s.checkpoint .done).2.wal).toOption.map
      (fun s => s.visible "a" [1]) = some none := by
  decide +kernel

end TracedTx

end H2Database.Mvstore
