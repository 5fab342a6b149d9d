import H2Database.Mvstore.Tx.Vacuum

/-!
# Logs that the next image covers

`Covered` is the invariant under which replaying the log over the next image changes nothing: the last
logged value of every key is still the newest committed one, and the next image has the logged keys
right.  Calls of transactions keep it.
-/

namespace H2Database.Mvstore

open Reasoning MVStore VersionedValue TransactionStore List Option Nat

/-! ## Committed values -/

def newest (stored : Option Stored) : Option (List UInt8) :=
  match stored with
  | some (.versioned vv) => vv.committedHistory.head?.bind VersionRecord.value
  | _ => none

def Stored.Dated (version : Nat) (stored : Stored) : Prop :=
  ∃ vv, stored = .versioned vv ∧ ∀ r ∈ vv.committedHistory, r.commitVersion ≤ version

theorem Stored.Dated.mono {v v' : Nat} {stored : Stored} (h : stored.Dated v) (hle : v ≤ v') :
    stored.Dated v' := by
  obtain ⟨vv, rfl, hvv⟩ := h
  exact ⟨vv, rfl, fun r hr => le_trans (hvv r hr) hle⟩

namespace MVStore

/-- What is committed under a key, as a snapshot of the store's version sees it. -/
def visible (s : MVStore Stored) (n : String) (k : Key) : Option (List UInt8) :=
  (s.versioned n k).readCommitted s.version

theorem newest_read (s : MVStore Stored) (n : String) (k : Key) :
    newest (s.read n k) = (s.versioned n k).committedHistory.head?.bind VersionRecord.value := by
  unfold newest versioned
  cases s.read n k with
  | none => rfl
  | some stored => cases stored <;> rfl

theorem visible_eq_newest {s : MVStore Stored} {n : String} {k : Key}
    (h : ∀ stored, s.read n k = some stored → stored.Dated s.version) :
    s.visible n k = newest (s.read n k) := by
  have hall : ∀ r ∈ (s.versioned n k).committedHistory, r.commitVersion ≤ s.version := by
    intro r hr
    cases hread : s.read n k with
    | none =>
      rw [versioned_of_read_none hread] at hr
      cases hr
    | some stored =>
      obtain ⟨vv, rfl, hvv⟩ := h stored hread
      rw [versioned_of_read hread] at hr
      exact hvv r hr
  rw [newest_read, visible, readCommitted, visibleRecord]
  cases hhist : (s.versioned n k).committedHistory with
  | nil => rfl
  | cons r rest =>
    have hr := hall r (hhist ▸ mem_cons_self)
    rw [List.find?_cons_of_pos (by simpa using hr), List.head?_cons]

theorem version_file_published (s : MVStore Stored) :
    s.published.file.version = s.version + 1 := by
  change s.checkpointRecord.version = _
  unfold checkpointRecord
  split_ifs <;> rfl

theorem dated_of_read {s : MVStore Stored} (hv : s.AllVersioned) {v : Nat} {n : String} {k : Key}
    (h : ∀ r ∈ (s.versioned n k).committedHistory, r.commitVersion ≤ v) {stored : Stored}
    (hr : s.read n k = some stored) : stored.Dated v := by
  obtain ⟨vv, rfl⟩ := hv n k stored hr
  rw [versioned_of_read hr] at h
  exact ⟨vv, rfl, h⟩

end MVStore

/-! ## The condition -/

def MVStore.liveLogged (s : MVStore Stored) (name : String) : Bool :=
  (s.wal.flatMap WalRecord.changes).any fun c => decide (c.mapName = name) &&
    ((lastChange c.mapName c.key (s.wal.flatMap WalRecord.changes)).bind newest).isSome

theorem MVStore.newest_of_not_liveLogged {s : MVStore Stored} {name : String}
    (h : s.liveLogged name = false) {k : Key} {value : Option Stored}
    (hlast : lastChange name k (s.wal.flatMap WalRecord.changes) = some value) :
    newest value = none := by
  have hmem := exists_of_lastChange hlast
  have hc := any_eq_false.mp h _ hmem
  simpa [hlast] using hc

/-- The transaction is open and has written to the key, or waits to do so. -/
def Transaction.Names (t : Transaction) (n : String) (k : Key) : Prop :=
  t.status = .opened ∧ (⟨n, k⟩ ∈ t.undoLog ∨
    ∃ w, t.waiting = some w ∧ w.call.mapName = n ∧ w.call.key = k)

namespace TxSystem

def mentions (sys : TxSystem) (name : String) : Bool :=
  (sys.store.mvstore.wal.flatMap WalRecord.changes).any (fun c => decide (c.mapName = name)) ||
    sys.transactions.entries.any fun e => decide (e.2.status = .opened) &&
      (e.2.undoLog.any (fun log => decide (log.mapName = name)) ||
        e.2.waiting.any fun w => decide (w.call.mapName = name))

/-- The keys that the log holds, or that an open transaction may still have logged. -/
inductive Touched (sys : TxSystem) (n : String) (k : Key) : Prop where
  | logged (value : Option Stored)
      (h : ⟨n, k, value⟩ ∈ sys.store.mvstore.wal.flatMap WalRecord.changes)
  | named {tx : Nat} {t : Transaction} (ht : sys.transactions.lookup tx = some t) (h : t.Names n k)
  | marked (h : (sys.store.mvstore.versioned n k).uncommitted ≠ none)

variable {sys : TxSystem}

theorem marked_of_not_mentions {name : String} (h : sys.mentions name = false)
    {k : Key} (ht : sys.Touched name k) : (sys.store.mvstore.versioned name k).uncommitted ≠ none := by
  rw [mentions, Bool.or_eq_false_iff] at h
  cases ht with
  | logged value hmem => simpa using any_eq_false.mp h.1 _ hmem
  | marked hmark => exact hmark
  | @named tx t hlookup hnames =>
    exfalso
    have hentry := any_eq_false.mp h.2 _ (AList.mem_lookup_iff.mp hlookup)
    rcases hnames with ⟨hopen, hlog | ⟨w, hw, hname, _⟩⟩
    · refine hentry ?_
      simp only [hopen, decide_true, Bool.true_and, Bool.or_eq_true]
      exact .inl (any_eq_true.mpr ⟨_, hlog, by simp⟩)
    · refine hentry ?_
      simp [hopen, hw, hname]

/-- The handle of a write belongs to the map of its name or to no map at all. -/
def Owned (s : MVStore Stored) (wc : WriteCall) : Prop :=
  wc.map < s.maps.objects.length ∧ ∀ n, s.maps.find n = some wc.map → n = wc.mapName

variable {wc : WriteCall}

theorem Owned.of_find {s : MVStore Stored} (h : s.maps.find wc.mapName = some wc.map) : Owned s wc :=
  ⟨s.maps.valid _ _ h, fun _ hn => Registry.find_inj hn h⟩

theorem Owned.edited {s s' : MVStore Stored} (h : Owned s wc) (he : Edited s s') :
    Owned s' wc := by
  refine ⟨lt_of_lt_of_le h.1 he.dataStep.objects, fun n hn => ?_⟩
  obtain ⟨m, hm⟩ := Registry.deref_of_find hn
  rcases he.dataStep.live n wc.map m hn hm with ⟨n₀, _, hn₀, _, _⟩ | ⟨hid, _⟩
  · rw [Registry.find_inj hn (he.find hn₀), h.2 n₀ hn₀]
  · exact absurd h.1 (not_lt.mpr hid)

/-- Sleeping writes keep to their own maps, which may have been dropped. -/
def Handles (sys : TxSystem) : Prop := sys.Sleeping Owned

theorem Handles.reaches (h : sys.Handles) {tx : Nat} {t : Transaction}
    {ts : TransactionStore} (ht : sys.transactions.lookup tx = some t)
    (he : Edited sys.store.mvstore ts.mvstore) (hr : Reaches t ts wc) : Owned ts.mvstore wc :=
  Sleeping.reaches (P := Owned) (fun _ _ _ => Owned.edited) (fun _ _ => Owned.of_find) h ht he hr

theorem Handles.effect {sys sys' : TxSystem} (h : sys.Handles) {call : Call} {e : Option Event}
    (he : Effect sys call sys' e) : sys'.Handles :=
  Sleeping.effect (P := Owned) (fun _ _ _ => Owned.edited) (fun _ _ => Owned.of_find) h he

/-- The records of the store, of its file and of its log are as old as they say. -/
structure Dates (s : MVStore Stored) (img : Contents Stored) : Prop where
  stored : ∀ n k, ∀ r ∈ (s.versioned n k).committedHistory, r.commitVersion ≤ s.version
  image : ∀ n k stored, binding img n k = some stored → stored.Dated s.file.version
  file : s.file.version ≤ s.version
  log : ∀ r ∈ s.wal, r.commitVersion ≤ s.version ∧
    ∀ n k stored, ⟨n, k, some stored⟩ ∈ r.changes → stored.Dated r.commitVersion

/-- The file holds `img`.  The last logged value of every key is the newest committed one, and the next
image has every touched key right. -/
structure Covered (sys : TxSystem) (atImage : MVStore Stored) (img : Contents Stored) : Prop where
  orderly : sys.Orderly
  handles : sys.Handles
  journaled : Journaled sys.store.mvstore atImage img
  dates : Dates sys.store.mvstore img
  logged : ∀ n k value,
    lastChange n k (sys.store.mvstore.wal.flatMap WalRecord.changes) = some value →
    newest value = newest (sys.store.mvstore.read n k)
  tracked : ∀ n k, sys.Touched n k → sys.store.mvstore.Tracked img n k

theorem covered_new : Covered (new MVStore.new) MVStore.new fun _ => none where
  orderly := orderly_new atRest_new.versioned atRest_new.counter
  handles _ _ _ ht := by cases ht
  journaled := journaled_init
  dates := ⟨fun _ _ _ hr => (by cases hr), fun _ _ _ h => (by cases h), le_refl 0,
    fun _ hr => (by cases hr)⟩
  logged _ _ _ h := by cases h
  tracked _ _ _ := ⟨nextRead_of_needsRoot rfl _ _, fun _ => rfl⟩

variable {atImage : MVStore Stored}

theorem Covered.logs {img : Contents Stored}
    (h : Covered sys atImage img) : ∀ r ∈ sys.store.mvstore.wal, ∀ n k stored,
      ⟨n, k, some stored⟩ ∈ r.changes → stored.Dated r.commitVersion :=
  fun r hr => (h.dates.log r hr).2

theorem Covered.visible {img : Contents Stored} (h : Covered sys atImage img) (n : String) (k : Key) :
    sys.store.mvstore.visible n k = newest (sys.store.mvstore.read n k) :=
  visible_eq_newest fun _ => dated_of_read h.orderly.versioned (h.dates.stored n k)

theorem Touched.of_after {tx : Nat} {t : Transaction} {ts : TransactionStore}
    {n : String} {k : Key} (h : (sys.after tx (t, ts)).Touched n k) :
    (∃ value, ⟨n, k, value⟩ ∈ ts.mvstore.wal.flatMap WalRecord.changes) ∨ sys.Touched n k ∨
      t.Names n k ∨ (ts.mvstore.versioned n k).uncommitted ≠ none := by
  cases h with
  | logged value hmem => exact .inl ⟨value, hmem⟩
  | marked hmark => exact .inr (.inr (.inr hmark))
  | @named tx' t' ht' hnames =>
    rw [lookup_after] at ht'
    split_ifs at ht' with htx
    · cases ht'
      exact .inr (.inr (.inl hnames))
    · exact .inr (.inl (.named ht' hnames))

namespace Covered

variable {sys sys' : TxSystem} {atImage : MVStore Stored} {img : Contents Stored} {call : Call}
  {e : Option Event}

theorem tracked_edited (h : Covered sys atImage img) {s' : MVStore Stored}
    (he : Edited sys.store.mvstore s') {n : String} {k : Key} (ht : sys.Touched n k) :
    s'.Tracked img n k :=
  (h.tracked n k ht).edited h.journaled.armed he

theorem uncommitted (h : Covered sys atImage img) (he : Effect sys call sys' e)
    (hversion : sys'.store.mvstore.version = sys.store.mvstore.version)
    (hwal : sys'.store.mvstore.wal = sys.store.mvstore.wal)
    (hhistory : ∀ n k, (sys'.store.mvstore.versioned n k).committedHistory =
      (sys.store.mvstore.versioned n k).committedHistory)
    (htouched : ∀ n k, sys'.Touched n k → sys.Touched n k ∨ sys'.store.mvstore.Tracked img n k) :
    Covered sys' atImage img where
  orderly := h.orderly.effect he
  handles := h.handles.effect he
  journaled := h.journaled.dataStep he.edited.dataStep
  dates := by
    have hfile := he.edited.dataStep.file
    refine ⟨fun n k r hr => ?_, ?_, ?_, ?_⟩
    · rw [hhistory] at hr
      rw [hversion]
      exact h.dates.stored n k r hr
    · rw [hfile]
      exact h.dates.image
    · rw [hfile, hversion]
      exact h.dates.file
    · rw [hwal, hversion]
      exact h.dates.log
  logged n k value hlast := by
    rw [hwal] at hlast
    rw [h.logged n k value hlast, newest_read, newest_read, hhistory]
  tracked n k ht := by
    rcases htouched n k ht with hold | hnew
    · exact h.tracked_edited he.edited hold
    · exact hnew

variable {tx : Nat} {t : Transaction} {ts : TransactionStore}

theorem quiet {waiting : Option Waiting}
    (h : Covered sys atImage img) (ht : sys.transactions.lookup tx = some t) (hq : Quiet sys.store ts)
    (hw : ∀ w, waiting = some w →
      t.status = .opened ∧ (t.waiting = some w ∨ Sleeps sys call tx t ts w))
    (he : Effect sys call (sys.after tx ({ t with waiting }, ts)) none) :
    Covered (sys.after tx ({ t with waiting }, ts)) atImage img := by
  have hversioned : ts.mvstore.versioned = sys.store.mvstore.versioned := versioned_congr hq.read
  refine h.uncommitted he hq.version hq.wal (fun n k => ?_) fun n k htouched => Or.inl ?_
  · rw [← hversioned]
    rfl
  · rcases htouched.of_after with ⟨value, hmem⟩ | hold | ⟨hopen, hnames⟩ | hmark
    · rw [hq.wal] at hmem
      exact .logged value hmem
    · exact hold
    · rcases hnames with hlog | ⟨w, hwait, rfl, rfl⟩
      · exact .named ht ⟨hopen, Or.inl hlog⟩
      · -- a write that has just fallen asleep has met a mark, unless it was asleep before
        rcases (hw w hwait).2 with hwas | hsleeps
        · exact .named ht ⟨hopen, Or.inr ⟨w, hwas, rfl, rfl⟩⟩
        · rcases hsleeps.reaches with hfind | ⟨w', hw', heq⟩
          · obtain ⟨u, hu, _⟩ := hsleeps.holder hfind
            refine .marked ?_
            rw [hu]
            exact some_ne_none u
          · exact .named ht ⟨hopen, Or.inr ⟨w', hw', by rw [heq], by rw [heq]⟩⟩
    · rw [hversioned] at hmark
      exact .marked hmark

theorem marked_versioned
    (hm : Marked sys.store ts tx wc) (howned : Owned ts.mvstore wc) (n : String) (k : Key) :
    (ts.mvstore.versioned n k).committedHistory =
      (sys.store.mvstore.versioned n k).committedHistory ∧ ((ts.mvstore.versioned n k).uncommitted ≠ none →
      (n = wc.mapName ∧ k = wc.key) ∨ (sys.store.mvstore.versioned n k).uncommitted ≠ none) := by
  by_cases hfind : ts.mvstore.maps.find wc.mapName = some wc.map
  · rw [hm.versioned hfind]
    split_ifs with hnk
    · exact ⟨rfl, fun _ => Or.inl hnk⟩
    · exact ⟨rfl, Or.inr⟩
  · have hlive : ¬ ts.mvstore.maps.Live wc.map := by
      rintro ⟨n', hn'⟩
      rw [howned.2 n' hn'] at hn'
      exact hfind hn'
    obtain ⟨s, vv, _, heq, hread⟩ := hm.change
    have hsame : ts.mvstore.read = sys.store.mvstore.read := by
      rw [heq] at hlive ⊢
      have hdropped : ¬ s.maps.Live wc.map := hlive
      rw [← hread]
      funext n k
      unfold MVStore.read
      rw [contents_change_of_not_live hdropped]
    rw [versioned_congr hsame]
    exact ⟨rfl, Or.inr⟩

theorem marked (h : Covered sys atImage img) (ht : sys.transactions.lookup tx = some t)
    (hopen : t.status = .opened) (hreach : Reaches t ts wc) (hm : Marked sys.store ts tx wc)
    {t' : Transaction} (hlog : t'.undoLog = t.undoLog ++ [⟨wc.mapName, wc.key⟩])
    (hawake : t'.waiting = none) (he : Effect sys call (sys.after tx (t', ts)) e) :
    Covered (sys.after tx (t', ts)) atImage img := by
  have hversioned := marked_versioned hm (h.handles.reaches ht hm.edited hreach)
  -- the key of the write is put into the map of its name, or was tracked when the write fell asleep
  have hkey : sys.Touched wc.mapName wc.key ∨ ts.mvstore.Tracked img wc.mapName wc.key := by
    rcases hreach with hfind | ⟨w, hw, rfl⟩
    · right
      obtain ⟨s, vv, hs, heq, _⟩ := hm.change
      rw [heq] at hfind ⊢
      exact tracked_put (h.journaled.dataStep hs.dataStep).armed hfind wc.key _
    · exact .inl (.named ht ⟨hopen, Or.inr ⟨w, hw, rfl, rfl⟩⟩)
  refine h.uncommitted he hm.version hm.wal (fun n k => (hversioned n k).1) fun n k htouched => ?_
  rcases htouched.of_after with ⟨value, hmem⟩ | hold | ⟨_, hnames⟩ | hmark
  · rw [hm.wal] at hmem
    exact .inl (.logged value hmem)
  · exact .inl hold
  · rcases hnames with hin | ⟨w, hw, _⟩
    · rw [hlog, mem_append, mem_singleton] at hin
      rcases hin with hin | hnew
      · exact .inl (.named ht ⟨hopen, Or.inl hin⟩)
      · cases hnew
        exact hkey
    · rw [hawake] at hw
      cases hw
  · rcases (hversioned n k).2 hmark with ⟨rfl, rfl⟩ | hmark
    · exact hkey
    · exact .inl (.marked hmark)

variable {logs : List UndoLogEntry}

theorem rolledBack {t' : Transaction} (h : Covered sys atImage img) (hr : RolledBack sys.store ts tx logs)
    (hclosed : t'.status ≠ .opened) (he : Effect sys call (sys.after tx (t', ts)) e) :
    Covered (sys.after tx (t', ts)) atImage img := by
  have hversioned := hr.versioned h.orderly.versioned
  refine h.uncommitted he hr.version hr.wal (fun n k => ?_) fun n k htouched => Or.inl ?_
  · change (ts.mvstore.versioned n k).committedHistory = _
    rw [hversioned]
    split_ifs <;> rfl
  · rcases htouched.of_after with ⟨value, hmem⟩ | hold | hnames | hmark
    · rw [hr.wal] at hmem
      exact .logged value hmem
    · exact hold
    · exact absurd hnames.1 hclosed
    · rw [hversioned] at hmark
      split_ifs at hmark
      · exact absurd rfl hmark
      · exact .marked hmark

theorem committed_logged {s s' : MVStore Stored}
    (hc : Transaction.Committed s s' tx logs) (hv : s.AllVersioned) {n : String} {k : Key}
    {value : Option Stored} (hlast : lastChange n k
      (logs.flatMap (Transaction.commitChange tx (s.nextCommitVersion + 1) s)) = some value) :
    s'.read n k = value := by
  have hread := Transaction.lastChange_commitChanges hv tx (s.nextCommitVersion + 1) logs n k
  rw [hlast, getD_some] at hread
  rw [hc.read, hread]

theorem committed {mvstore : MVStore Stored}
    (h : Covered sys atImage img) (ht : sys.transactions.lookup tx = some t) (hopen : t.status = .opened)
    (hc : Transaction.Committed sys.store.mvstore mvstore tx t.undoLog)
    (he : Effect sys call (sys.after tx (t.closed { sys.store with mvstore })) e) :
    Covered (sys.after tx (t.closed { sys.store with mvstore })) atImage img := by
  have hv := h.orderly.versioned
  have hversioned := hc.versioned hv
  have hfile := hc.edited.dataStep.file
  have hversion : sys.store.mvstore.version ≤ mvstore.version := by
    rw [hc.version]
    exact le_succ_of_le h.orderly.counter
  set changes :=
    t.undoLog.flatMap (Transaction.commitChange tx (sys.store.mvstore.nextCommitVersion + 1)
      sys.store.mvstore)
  have hwal : mvstore.wal.flatMap WalRecord.changes =
      sys.store.mvstore.wal.flatMap WalRecord.changes ++ changes := by
    rw [hc.wal, flatMap_append, flatMap_singleton]
  have hstored : ∀ n k, ∀ r ∈ (mvstore.versioned n k).committedHistory,
      r.commitVersion ≤ mvstore.version := by
    intro n k r hr
    rw [hversioned] at hr
    split_ifs at hr with hown
    · obtain ⟨u, hu, _⟩ := map_eq_some_iff.mp hown.2
      rw [commitUncommitted, hu] at hr
      rcases mem_cons.mp (mem_of_mem_take hr) with rfl | hold
      · rw [hc.version]
      · exact le_trans (h.dates.stored n k r hold) hversion
    · exact le_trans (h.dates.stored n k r hr) hversion
  refine ⟨h.orderly.effect he, h.handles.effect he, h.journaled.dataStep hc.edited.dataStep,
    ⟨hstored, ?_, ?_, fun r hr => ?_⟩, fun n k value hlast => ?_, fun n k htouched => ?_⟩
  · intro n k stored hb
    change stored.Dated mvstore.file.version
    rw [hfile]
    exact h.dates.image n k stored hb
  · change mvstore.file.version ≤ mvstore.version
    rw [hfile]
    exact le_trans h.dates.file hversion
  · change r ∈ mvstore.wal at hr
    rw [hc.wal, mem_append, mem_singleton] at hr
    rcases hr with hold | rfl
    · obtain ⟨hle, hdated⟩ := h.dates.log r hold
      exact ⟨le_trans hle hversion, hdated⟩
    · refine ⟨le_of_eq hc.version.symm, fun n k stored hmem => ?_⟩
      obtain ⟨log, hlog, hchange⟩ := mem_flatMap.mp hmem
      obtain ⟨rfl, rfl, hvalue⟩ := WalChange.mk.inj (Transaction.mem_commitChange hv hchange)
      have hread : mvstore.read log.mapName log.key = some stored := by
        rw [hc.read, if_pos hlog, hvalue]
      have hdated := dated_of_read (h.orderly.effect he).versioned (hstored _ _) hread
      rw [hc.version] at hdated
      exact hdated
  · change lastChange n k (mvstore.wal.flatMap WalRecord.changes) = some value at hlast
    change newest value = newest (mvstore.read n k)
    rw [hwal, lastChange_append] at hlast
    cases hnew : lastChange n k changes with
    | some value' =>
      rw [hnew, some_or] at hlast
      cases hlast
      rw [committed_logged hc hv hnew]
    | none =>
      rw [hnew, none_or] at hlast
      rw [h.logged n k value hlast, hc.read, ← Transaction.lastChange_commitChanges hv]
      change _ = newest ((lastChange n k changes).getD _)
      rw [hnew, getD_none]
  · refine h.tracked_edited hc.edited ?_
    rcases htouched.of_after with ⟨value, hmem⟩ | hold | ⟨hst, _⟩ | hmark
    · change _ ∈ mvstore.wal.flatMap WalRecord.changes at hmem
      rw [hwal, mem_append] at hmem
      rcases hmem with hold | hnew
      · exact .logged value hold
      · obtain ⟨log, hlog, hchange⟩ := mem_flatMap.mp hnew
        obtain ⟨rfl, rfl, _⟩ := WalChange.mk.inj (Transaction.mem_commitChange hv hchange)
        exact .named ht ⟨hopen, Or.inl hlog⟩
    · exact hold
    · cases hst
    · change (mvstore.versioned n k).uncommitted ≠ none at hmark
      rw [hversioned] at hmark
      split_ifs at hmark with hown
      · obtain ⟨u, hu, _⟩ := map_eq_some_iff.mp hown.2
        exact .marked (by rw [hu]; exact some_ne_none u)
      · exact .marked hmark

theorem effect (h : Covered sys atImage img) (he : Effect sys call sys' e) :
    Covered sys' atImage img := by
  have he' := he
  cases he with
  | idle => exact h
  | began _ =>
    refine h.uncommitted he' rfl rfl (fun _ _ => rfl) fun n k htouched => Or.inl ?_
    change (sys.after sys.store.nextTxId (sys.store.begin.1, sys.store.begin.2)).Touched n k
      at htouched
    rcases htouched.of_after with ⟨value, hmem⟩ | hold | ⟨_, hlog | ⟨w, hw, _⟩⟩ | hmark
    · exact .logged value hmem
    · exact hold
    · cases hlog
    · cases hw
    · exact .marked hmark
  | quiet waiting ht hq hw => exact h.quiet ht hq hw he'
  | marked ht hopen htarget hreach hm hvisible => exact h.marked ht hopen hreach hm rfl rfl he'
  | rolledBack ht hopen hr => exact h.rolledBack hr (fun hc => by cases hc) he'
  | closed ht hopen hawake hundo =>
    refine h.uncommitted he' rfl rfl (fun _ _ => rfl) fun n k htouched => Or.inl ?_
    rcases htouched.of_after with ⟨value, hmem⟩ | hold | ⟨hst, _⟩ | hmark
    · exact .logged value hmem
    · exact hold
    · cases hst
    · exact .marked hmark
  | committed ht hopen hawake hc => exact h.committed ht hopen hc he'

end Covered

end TxSystem

end H2Database.Mvstore
