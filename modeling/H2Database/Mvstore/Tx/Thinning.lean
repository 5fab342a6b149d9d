import H2Database.Mvstore.Tx.Vacuum

/-!
# Stores with thinned-out histories

Two transaction stores that differ only in old committed records cannot be told apart by transactions
whose snapshots are not older than `oldest_active_version`: `ThinSystem.step` says that every call gets
the same answer from both and leaves them alike.  A vacuum makes such a store out of another one.
-/

namespace H2Database.Mvstore

open Reasoning MVStore VersionedValue TransactionStore List AList Nat Function
open Option hiding or or_self

/-! ## Thinned values -/

/-- `vv'` has the mark of `vv` and enough of its newest records for every snapshot from `oldest` on. -/
structure Thin (oldest : Nat) (vv vv' : VersionedValue) : Prop where
  mark : vv'.uncommitted = vv.uncommitted
  history : vv'.committedHistory <+: vv.committedHistory
  read : ∀ sv, oldest ≤ sv → vv'.readCommitted sv = vv.readCommitted sv

namespace Thin

variable {oldest : Nat} {vv vv' : VersionedValue}

theorem refl (oldest : Nat) (vv : VersionedValue) : Thin oldest vv vv :=
  ⟨rfl, prefix_refl _, fun _ _ => rfl⟩

theorem trans {vv'' : VersionedValue} (h : Thin oldest vv vv') (h' : Thin oldest vv' vv'') :
    Thin oldest vv vv'' where
  mark := h'.mark.trans h.mark
  history := h'.history.trans h.history
  read sv hsv := (h'.read sv hsv).trans (h.read sv hsv)

theorem mono {older : Nat} (h : Thin older vv vv') (hle : older ≤ oldest) : Thin oldest vv vv' :=
  ⟨h.mark, h.history, fun sv hsv => h.read sv (le_trans hle hsv)⟩

theorem activeTxId (h : Thin oldest vv vv') : vv'.activeTxId = vv.activeTxId := by
  rw [VersionedValue.activeTxId, h.mark]
  rfl

theorem readVisible (h : Thin oldest vv vv') (reader : Nat) {sv : Nat} (hsv : oldest ≤ sv) :
    vv'.readVisible reader sv = vv.readVisible reader sv := by
  unfold VersionedValue.readVisible
  rw [h.mark, h.read sv hsv]

theorem setMark (h : Thin oldest vv vv') (mark : Option UncommittedRecord) :
    Thin oldest { vv with uncommitted := mark } { vv' with uncommitted := mark } :=
  ⟨rfl, h.history, h.read⟩

theorem rollbackUncommitted (h : Thin oldest vv vv') :
    Thin oldest vv.rollbackUncommitted vv'.rollbackUncommitted :=
  h.setMark none

theorem visibleRecord_append (front rest : List VersionRecord) (sv : Nat) :
    visibleRecord (front ++ rest) sv = (visibleRecord front sv).or (visibleRecord rest sv) :=
  find?_append

theorem read_take {front rest : List VersionRecord} {sv : Nat}
    (h : (visibleRecord front sv).bind VersionRecord.value =
      (visibleRecord (front ++ rest) sv).bind VersionRecord.value) (n : Nat) :
    (visibleRecord (front.take n) sv).bind VersionRecord.value =
      (visibleRecord ((front ++ rest).take n) sv).bind VersionRecord.value := by
  rw [take_append]
  by_cases hn : n ≤ front.length
  · rw [Nat.sub_eq_zero_of_le hn, take_zero, append_nil]
  · rw [take_of_length_le (by omega)]
    rw [visibleRecord_append] at h ⊢
    cases hfront : visibleRecord front sv with
    | some r => rfl
    | none =>
      -- the snapshot finds nothing or a deletion behind the front part, so also in less of it
      rw [hfront, none_or, bind_none] at h
      rw [none_or, bind_none]
      have hcut := visibleRecord_append (rest.take (n - front.length)) (rest.drop (n - front.length)) sv
      rw [take_append_drop] at hcut
      cases hrest : visibleRecord (rest.take (n - front.length)) sv with
      | none => rfl
      | some r =>
        rw [hrest, some_or] at hcut
        rw [hcut] at h
        exact h

theorem commitUncommitted (h : Thin oldest vv vv') (commitVersion : Nat) :
    Thin oldest (vv.commitUncommitted commitVersion) (vv'.commitUncommitted commitVersion) := by
  unfold VersionedValue.commitUncommitted
  rw [h.mark]
  cases vv.uncommitted with
  | none => exact h
  | some u =>
    obtain ⟨rest, hrest⟩ := h.history
    refine ⟨rfl, ?_, fun sv hsv => ?_⟩
    · simp only
      rw [← hrest, ← cons_append]
      exact List.IsPrefix.take (prefix_append _ _) 32
    · have hread := h.read sv hsv
      simp only [readCommitted, ← hrest] at hread ⊢
      rw [← cons_append]
      refine read_take ?_ 32
      simp only [visibleRecord, cons_append, find?_cons]
      split
      · rfl
      · exact hread

end Thin

/-! ## What the vacuum keeps -/

theorem visibleRecord_take {history : List VersionRecord} {h i : Nat}
    (hi : history.findIdx? (fun r => decide (r.commitVersion ≤ h)) = some i) {sv : Nat} (hsv : h ≤ sv) :
    visibleRecord (history.take (i + 1)) sv = visibleRecord history sv := by
  have hsplit := Thin.visibleRecord_append (history.take (i + 1)) (history.drop (i + 1)) sv
  rw [take_append_drop] at hsplit
  obtain ⟨hlt, hri, _⟩ := findIdx?_eq_some_iff_getElem.mp hi
  have hmem : history[i] ∈ history.take (i + 1) :=
    mem_take_iff_getElem.mpr ⟨i, by omega, rfl⟩
  cases hfound : visibleRecord (history.take (i + 1)) sv with
  | some r => rw [hsplit, hfound, some_or]
  | none =>
    -- the record at the cut is old enough for every snapshot from the horizon on
    have hnot := find?_eq_none.mp hfound _ hmem
    simp only [decide_eq_true_eq] at hri hnot
    exact absurd (le_trans hri hsv) hnot

theorem thin_of_isDead {vv : VersionedValue} {h : Nat} (hdead : vv.isDead h = true) :
    Thin h vv ⟨none, []⟩ := by
  unfold isDead at hdead
  split at hdead
  · cases hdead
  · rename_i hmark hhist
    refine ⟨hmark.symm, nil_prefix, fun sv _ => ?_⟩
    simp only [readCommitted, hhist]
  · rename_i first rest hmark hhist
    rw [Bool.and_eq_true, decide_eq_true_eq, isNone_iff_eq_none] at hdead
    refine ⟨hmark.symm, nil_prefix, fun sv hsv => ?_⟩
    have hle : first.commitVersion ≤ sv := le_trans hdead.1 hsv
    simp [readCommitted, visibleRecord, hhist, hle, hdead.2]

theorem thin_of_pruneOldVersions {vv pruned : VersionedValue} {h : Nat}
    (hp : vv.pruneOldVersions h = some pruned) : Thin h vv pruned := by
  unfold pruneOldVersions at hp
  split_ifs at hp
  split at hp
  · cases hp
  · rename_i i hi
    split_ifs at hp
    cases hp
    refine ⟨rfl, take_prefix _ _, fun sv hsv => ?_⟩
    rw [readCommitted, readCommitted, visibleRecord_take hi hsv]

/-! ## Reads of a vacuumed map -/

def MVStore.readBy (s : MVStore Stored) (n : String) (k : Key) (reader sv : Nat) :
    H2Result (Option (List UInt8)) :=
  match s.read n k with
  | none => .ok none
  | some stored => stored.fromBytes.map fun vv => vv.readVisible reader sv

def MVStore.markAt (s : MVStore Stored) (n : String) (k : Key) : Option UncommittedRecord :=
  match (s.read n k).map Stored.fromBytes with
  | some (.ok vv) => vv.uncommitted
  | _ => none

theorem vacuumed_thin (h : Nat) (stored : Stored) :
    stored.vacuumed h = some stored ∨
      ∃ vv, stored.fromBytes = .ok vv ∧
        (stored.vacuumed h = none ∧ Thin h vv ⟨none, []⟩ ∨
          ∃ thinned, stored.vacuumed h = some (.versioned thinned) ∧ Thin h vv thinned) := by
  unfold Stored.vacuumed
  cases hvv : stored.fromBytes with
  | error e => exact .inl rfl
  | ok vv =>
    simp only
    split_ifs with hdead
    · exact .inr ⟨vv, rfl, Or.inl ⟨rfl, thin_of_isDead hdead⟩⟩
    · cases hp : vv.pruneOldVersions h with
      | none => exact .inl rfl
      | some pruned => exact .inr ⟨vv, rfl, Or.inr ⟨pruned, rfl, thin_of_pruneOldVersions hp⟩⟩

/-- For the snapshots that a transaction has or can get, a vacuum of any map changes nothing, and it leaves
every uncommitted record. -/
theorem vacuum_keeps_snapshots (ts : TransactionStore) (name n : String) (k : Key) :
    (∀ reader sv, ts.oldestActiveVersion ≤ sv →
      (ts.vacuumMap name).2.mvstore.readBy n k reader sv = ts.mvstore.readBy n k reader sv) ∧
    (ts.vacuumMap name).2.mvstore.markAt n k = ts.mvstore.markAt n k := by
  have hread := (vacuumMap_vacuumed ts name).read n k
  unfold readBy markAt
  split_ifs at hread with hn
  · rw [hread]
    cases ts.mvstore.read n k with
    | none => exact ⟨fun _ _ _ => rfl, rfl⟩
    | some stored =>
      rw [bind_some]
      rcases vacuumed_thin ts.oldestActiveVersion stored with hsame | ⟨vv, hvv, hcut⟩
      · rw [hsame]
        exact ⟨fun _ _ _ => rfl, rfl⟩
      · rw [map_some, hvv]
        rcases hcut with ⟨hgone, hthin⟩ | ⟨thinned, hkept, hthin⟩
        · rw [hgone]
          refine ⟨fun reader sv hsv => ?_, hthin.mark⟩
          simp only [hvv]
          exact congrArg Except.ok (hthin.readVisible reader hsv)
        · rw [hkept]
          refine ⟨fun reader sv hsv => ?_, hthin.mark⟩
          simp only [hvv]
          exact congrArg Except.ok (hthin.readVisible reader hsv)
  · rw [hread]
    exact ⟨fun _ _ _ => rfl, rfl⟩

def twoVersions : TransactionStore :=
  (TransactionStore.new { (MVStore.new.openMap "a").2 with version := 2 }).mapPut 0 [1]
    ⟨none, [⟨some [20], 2⟩, ⟨some [10], 1⟩]⟩

theorem vacuum_keeps_snapshots_pruned :
    (twoVersions.vacuumMap "a").2.mvstore.read "a" [1] = some (.versioned ⟨none, [⟨some [20], 2⟩]⟩) ∧
      (twoVersions.vacuumMap "a").2.mvstore.readBy "a" [1] 1 2 = .ok (some [20]) := by
  refine ⟨by decide +kernel, ?_⟩
  rw [(vacuum_keeps_snapshots twoVersions "a" "a" [1]).1 1 2 (by decide +kernel)]
  rfl

/-! ## The oldest snapshot -/

namespace TransactionStore

def Past (ts : TransactionStore) : Prop :=
  ∀ tx sv, ts.activeTransactions.lookup tx = some sv → sv ≤ ts.mvstore.version

variable {ts : TransactionStore}

theorem mem_snapshots {sv : Nat} :
    sv ∈ ts.activeTransactions.entries.map Sigma.snd ↔
      ∃ tx, ts.activeTransactions.lookup tx = some sv := by
  constructor
  · intro h
    obtain ⟨⟨tx, _⟩, hmem, rfl⟩ := mem_map.mp h
    exact ⟨tx, mem_lookup_iff.mpr hmem⟩
  · rintro ⟨tx, htx⟩
    exact mem_map.mpr ⟨⟨tx, sv⟩, mem_lookup_iff.mp htx, rfl⟩

theorem oldestActiveVersion_le {tx sv : Nat}
    (h : ts.activeTransactions.lookup tx = some sv) : ts.oldestActiveVersion ≤ sv := by
  have hmem := mem_snapshots.mpr ⟨tx, h⟩
  unfold oldestActiveVersion
  cases hmin : (ts.activeTransactions.entries.map Sigma.snd).min? with
  | none =>
    rw [min?_eq_none_iff.mp hmin] at hmem
    cases hmem
  | some m => exact (min?_eq_some_iff.mp hmin).2 sv hmem

theorem le_oldestActiveVersion {v : Nat} (hv : v ≤ ts.mvstore.version)
    (h : ∀ tx sv, ts.activeTransactions.lookup tx = some sv → v ≤ sv) :
    v ≤ ts.oldestActiveVersion := by
  unfold oldestActiveVersion
  cases hmin : (ts.activeTransactions.entries.map Sigma.snd).min? with
  | none => exact hv
  | some m =>
    obtain ⟨tx, htx⟩ := mem_snapshots.mp (min?_eq_some_iff.mp hmin).1
    exact h tx m htx

theorem Past.oldestActiveVersion_le_version (h : ts.Past) :
    ts.oldestActiveVersion ≤ ts.mvstore.version := by
  unfold oldestActiveVersion
  cases hmin : (ts.activeTransactions.entries.map Sigma.snd).min? with
  | none => exact le_refl _
  | some m =>
    obtain ⟨tx, htx⟩ := mem_snapshots.mp (min?_eq_some_iff.mp hmin).1
    exact h tx m htx

theorem oldestActiveVersion_mono {ts ts' : TransactionStore} (hp : ts.Past)
    (hv : ts.mvstore.version ≤ ts'.mvstore.version)
    (ha : ∀ tx sv, ts'.activeTransactions.lookup tx = some sv →
      ts.activeTransactions.lookup tx = some sv ∨ sv = ts.mvstore.version) :
    ts.oldestActiveVersion ≤ ts'.oldestActiveVersion := by
  refine le_oldestActiveVersion (le_trans hp.oldestActiveVersion_le_version hv) fun tx sv htx => ?_
  rcases ha tx sv htx with hold | rfl
  · exact oldestActiveVersion_le hold
  · exact hp.oldestActiveVersion_le_version

/-- `ts'` is `ts` with thinned-out histories. -/
structure ThinStore (ts ts' : TransactionStore) : Prop where
  nextTxId : ts'.nextTxId = ts.nextTxId
  active : ts'.activeTransactions = ts.activeTransactions
  locks : ts'.lockManager = ts.lockManager
  timeout : ts'.lockTimeoutMs = ts.lockTimeoutMs
  version : ts'.mvstore.version = ts.mvstore.version
  nextCommitVersion : ts'.mvstore.nextCommitVersion = ts.mvstore.nextCommitVersion
  full : ts.mvstore.AllVersioned
  thin : ts'.mvstore.AllVersioned
  past : ts.Past
  values : ∀ n k, Thin ts.oldestActiveVersion (ts.mvstore.versioned n k) (ts'.mvstore.versioned n k)

namespace ThinStore

variable {ts ts' ts₁ ts₁' : TransactionStore}

section

variable (h : ThinStore ts ts')

include h

theorem next (hnext : ts₁'.nextTxId = ts₁.nextTxId)
    (hactive : ts₁'.activeTransactions = ts₁.activeTransactions)
    (hlocks : ts₁'.lockManager = ts₁.lockManager) (htimeout : ts₁'.lockTimeoutMs = ts₁.lockTimeoutMs)
    (hversion : ts₁'.mvstore.version = ts₁.mvstore.version)
    (hcommit : ts₁'.mvstore.nextCommitVersion = ts₁.mvstore.nextCommitVersion)
    (hfull : ts₁.mvstore.AllVersioned) (hthin : ts₁'.mvstore.AllVersioned)
    (hle : ts.mvstore.version ≤ ts₁.mvstore.version)
    (hold : ∀ tx sv, ts₁.activeTransactions.lookup tx = some sv →
      ts.activeTransactions.lookup tx = some sv ∨ sv = ts.mvstore.version)
    (hvalues : ∀ n k, Thin ts.oldestActiveVersion (ts₁.mvstore.versioned n k)
      (ts₁'.mvstore.versioned n k)) : ThinStore ts₁ ts₁' where
  nextTxId := hnext
  active := hactive
  locks := hlocks
  timeout := htimeout
  version := hversion
  nextCommitVersion := hcommit
  full := hfull
  thin := hthin
  past tx sv htx := by
    rcases hold tx sv htx with hsv | rfl
    · exact le_trans (h.past tx sv hsv) hle
    · exact hle
  values n k := (hvalues n k).mono (oldestActiveVersion_mono h.past hle hold)

theorem quiet (hq : Quiet ts ts₁) (hq' : Quiet ts' ts₁')
    (hlocks : ts₁'.lockManager = ts₁.lockManager) (htimeout : ts₁'.lockTimeoutMs = ts₁.lockTimeoutMs) :
    ThinStore ts₁ ts₁' := by
  refine h.next ?_ ?_ hlocks htimeout ?_ ?_ (h.full.congr hq.read) (h.thin.congr hq'.read)
    (le_of_eq hq.version.symm) (fun tx sv htx => Or.inl (hq.active ▸ htx)) fun n k => ?_
  · rw [hq.nextTxId, hq'.nextTxId, h.nextTxId]
  · rw [hq.active, hq'.active, h.active]
  · rw [hq.version, hq'.version, h.version]
  · rw [hq.nextCommitVersion, hq'.nextCommitVersion, h.nextCommitVersion]
  · rw [versioned_congr hq.read, versioned_congr hq'.read]
    exact h.values n k

theorem setLocks (lockManager : LockManager) :
    ThinStore { ts with lockManager } { ts' with lockManager } :=
  h.quiet (quiet_lockManager ts lockManager) (quiet_lockManager ts' lockManager) rfl h.timeout

theorem openMap (name : String) :
    ThinStore (ts.openMap name).2 (ts'.openMap name).2 :=
  h.quiet (quiet_openMap ts name) (quiet_openMap ts' name) h.locks h.timeout

theorem isTxActive (tx : Nat) : ts'.isTxActive tx = ts.isTxActive tx := by
  rw [TransactionStore.isTxActive, h.active]
  rfl

theorem begin : ThinStore ts.begin.2 ts'.begin.2 := by
  refine h.next ?_ ?_ h.locks h.timeout h.version h.nextCommitVersion h.full h.thin (le_refl _)
    (fun tx sv htx => ?_) h.values
  · change ts'.nextTxId + 1 = ts.nextTxId + 1
    rw [h.nextTxId]
  · change ts'.activeTransactions.insert ts'.nextTxId ts'.mvstore.version =
      ts.activeTransactions.insert ts.nextTxId ts.mvstore.version
    rw [h.active, h.nextTxId, h.version]
  · change (ts.activeTransactions.insert ts.nextTxId ts.mvstore.version).lookup tx = some sv at htx
    by_cases hnew : tx = ts.nextTxId
    · rw [hnew, lookup_insert] at htx
      exact .inr (Option.some.inj htx).symm
    · rw [lookup_insert_ne hnew] at htx
      exact .inl htx

theorem removeActiveTx {s s' : MVStore Stored} (hversion : s'.version = s.version)
    (hcommit : s'.nextCommitVersion = s.nextCommitVersion) (hfull : s.AllVersioned)
    (hthin : s'.AllVersioned) (hle : ts.mvstore.version ≤ s.version)
    (hvalues : ∀ n k, Thin ts.oldestActiveVersion (s.versioned n k) (s'.versioned n k)) (tx : Nat) :
    ThinStore ({ ts with mvstore := s }.removeActiveTx tx)
      ({ ts' with mvstore := s' }.removeActiveTx tx) := by
  refine h.next h.nextTxId ?_ ?_ h.timeout hversion hcommit hfull hthin hle (fun tx' sv htx' => ?_)
    hvalues
  · change ts'.activeTransactions.erase tx = ts.activeTransactions.erase tx
    rw [h.active]
  · change (ts'.lockManager.unregisterWait tx).notifyLockReleased tx =
      (ts.lockManager.unregisterWait tx).notifyLockReleased tx
    rw [h.locks]
  · change (ts.activeTransactions.erase tx).lookup tx' = some sv at htx'
    by_cases htx : tx' = tx
    · rw [htx, lookup_erase] at htx'
      cases htx'
    · rw [lookup_erase_ne htx] at htx'
      exact .inl htx'

end

end ThinStore

end TransactionStore

def Waiting.Alike (w w' : Waiting) : Prop :=
  w' = { w with call := { w.call with map := w'.call.map } }

structure Transaction.Alike (t t' : Transaction) : Prop where
  same : t' = { t with waiting := t'.waiting }
  waiting : Option.Rel Waiting.Alike t.waiting t'.waiting

namespace Transaction

variable {t t' : Transaction} {ts ts' : TransactionStore}

theorem Alike.txId (h : t.Alike t') : t'.txId = t.txId := by rw [h.same]
theorem Alike.snapshotVersion (h : t.Alike t') : t'.snapshotVersion = t.snapshotVersion := by rw [h.same]
theorem Alike.status (h : t.Alike t') : t'.status = t.status := by rw [h.same]
theorem Alike.undoLog (h : t.Alike t') : t'.undoLog = t.undoLog := by rw [h.same]

theorem alike_refl {t : Transaction} (h : t.waiting = none) : t.Alike t :=
  ⟨rfl, by rw [h]; exact .none⟩

theorem Alike.awake (h : t.Alike t') : { t' with waiting := none } = { t with waiting := none } := by
  rw [h.same]

theorem Alike.undone (h : t.Alike t') : t'.undone = t.undone := by
  unfold Transaction.undone
  rw [h.same]

structure ThinOutcome {ρ : Type} (p p' : ρ × Transaction × TransactionStore) : Prop where
  answer : p'.1 = p.1
  transaction : p.2.1.Alike p'.2.1
  store : ThinStore p.2.2 p'.2.2

/-! ## The calls, one by one -/

theorem rollback_eq (hopen : t.status = .opened) (ts : TransactionStore) :
    t.rollback ts = (.ok (), t.undone,
      { ts with mvstore := t.undoLog.reverse.foldl (undo t.txId) ts.mvstore }.removeActiveTx t.txId) := by
  rw [rollback, hopen]
  rfl

theorem rollback_thin (ht : t.Alike t') (h : ThinStore ts ts') :
    ThinOutcome (t.rollback ts) (t'.rollback ts') := by
  cases hs : t.status with
  | opened =>
    have hs' : t'.status = .opened := ht.status.trans hs
    obtain ⟨ts₁, hrb, hr⟩ := rollback_of_opened hs ts h.full
    obtain ⟨ts₁', hrb', hr'⟩ := rollback_of_opened hs' ts' h.thin
    rw [rollback_eq hs] at hrb ⊢
    rw [rollback_eq hs'] at hrb' ⊢
    cases hrb
    cases hrb'
    rw [ht.txId, ht.undoLog] at hr' ⊢
    have hmaps : OnlyMaps ts.mvstore (t.undoLog.reverse.foldl (undo t.txId) ts.mvstore) :=
      OnlyMaps.foldl (onlyMaps_undo t.txId) _ _
    have hmaps' : OnlyMaps ts'.mvstore (t.undoLog.reverse.foldl (undo t.txId) ts'.mvstore) :=
      OnlyMaps.foldl (onlyMaps_undo t.txId) _ _
    refine ⟨rfl, ?_, h.removeActiveTx ?_ ?_ (hr.allVersioned h.full) (hr'.allVersioned h.thin) ?_
      (fun n k => ?_) t.txId⟩
    · simp only [ht.undone]
      exact alike_refl rfl
    · rw [hmaps, hmaps']
      exact h.version
    · rw [hmaps, hmaps']
      exact h.nextCommitVersion
    · exact le_of_eq hr.version.symm
    · rw [hr.versioned h.full n k, hr'.versioned h.thin n k, (h.values n k).activeTxId]
      split_ifs
      · exact (h.values n k).rollbackUncommitted
      · exact h.values n k
  | committed =>
    have hs' : t'.status = .committed := ht.status.trans hs
    rw [rollback, rollback, hs, hs']
    exact ⟨rfl, ht, h⟩
  | rolledBack =>
    have hs' : t'.status = .rolledBack := ht.status.trans hs
    rw [rollback, rollback, hs, hs']
    exact ⟨rfl, ht, h⟩

/-- An open transaction's snapshot is not older than the oldest active one. -/
def Recent (t : Transaction) (ts : TransactionStore) : Prop :=
  t.status = .opened → ts.oldestActiveVersion ≤ t.snapshotVersion

theorem get_thin (ht : t.Alike t') (h : ThinStore ts ts') (hrecent : t.Recent ts) (n : String) (k : Key) :
    (t'.get ts' n k).1 = (t.get ts n k).1 ∧ ThinStore (t.get ts n k).2 (t'.get ts' n k).2 := by
  by_cases hopen : t.status = .opened
  · have hopen' : t'.status = .opened := ht.status.trans hopen
    constructor
    · rw [get_of_opened hopen h.full, get_of_opened hopen' h.thin, ht.txId, ht.snapshotVersion,
        (h.values n k).readVisible t.txId (hrecent hopen)]
    · have hstore : ∀ {t : Transaction} {ts : TransactionStore}, t.status = .opened →
          (t.get ts n k).2 = (ts.openMap n).2 := by
        intro t ts hopen
        rw [get, checkOpen, if_pos hopen]
        simp only
        split <;> rfl
      rw [hstore hopen, hstore hopen']
      exact h.openMap n
  · have hclosed : ∀ {t : Transaction} {ts : TransactionStore}, t.status ≠ .opened →
        t.get ts n k = (.error (.transaction "Transaction is not open"), ts) := by
      intro t ts hne
      rw [get, checkOpen, if_neg hne]
    rw [hclosed hopen, hclosed (ht.status ▸ hopen)]
    exact ⟨rfl, h⟩

theorem writeOnce_eq {call : WriteCall} (hv : ts.mvstore.AllVersioned)
    (hfind : ts.mvstore.maps.find call.mapName = some call.map) (t : Transaction)
    (remaining : Option Nat) :
    t.writeOnce ts call remaining =
      match t.blocker ts (some (ts.mvstore.versioned call.mapName call.key)) with
      | some holder => t.waitFor ts call holder remaining
      | none =>
        if call.value.isSome ∨ ((ts.mvstore.versioned call.mapName call.key).readVisible t.txId
            t.snapshotVersion).isSome then
          t.mark ts call (ts.mvstore.versioned call.mapName call.key)
        else (.returned (.ok false), t, ts) := by
  have hget : ts.mapGet call.map call.key = ts.mvstore.read call.mapName call.key :=
    (read_of_find hfind call.key).symm
  unfold writeOnce putOnce removeOnce existing
  rw [hget]
  rcases hv.read call.mapName call.key with hnone | hsome
  · -- nothing stands under the key: there is no mark, and nothing to see
    rw [hnone, versioned_of_read_none hnone]
    by_cases hvalue : call.value.isSome = true
    · simp only [hvalue, true_or, if_true]
      rfl
    · simp only [hvalue, readVisible_empty, isSome_none, Bool.false_eq_true, or_self, if_false]
      rfl
  · rw [hsome]
    by_cases hvalue : call.value.isSome = true
    · simp only [hvalue, true_or, if_true]
      rfl
    · simp only [hvalue, Bool.false_eq_true, false_or, if_false, Stored.fromBytes, Except.map]
      cases t.blocker ts (some (ts.mvstore.versioned call.mapName call.key)) with
      | some holder => rfl
      | none =>
        cases (ts.mvstore.versioned call.mapName call.key).readVisible t.txId t.snapshotVersion <;> rfl

theorem blocker_thin (h : ThinStore ts ts') (t : Transaction) (n : String) (k : Key) :
    t.blocker ts' (some (ts'.mvstore.versioned n k)) = t.blocker ts (some (ts.mvstore.versioned n k)) := by
  simp only [blocker, bind_some, (h.values n k).activeTxId, h.isTxActive]

structure SameCall (ts ts' : TransactionStore) (call call' : WriteCall) : Prop where
  same : call' = { call with map := call'.map }
  full : ts.mvstore.maps.find call.mapName = some call.map
  thin : ts'.mvstore.maps.find call.mapName = some call'.map

variable {call call' : WriteCall}

theorem waitFor_thin (h : ThinStore ts ts') (hcall : SameCall ts ts' call call')
    (hawake : t.waiting = none) (holder : Nat) (remaining : Option Nat) :
    ThinOutcome (t.waitFor ts call holder remaining) (t.waitFor ts' call' holder remaining) := by
  unfold waitFor
  rw [h.locks]
  cases ts.lockManager.registerWait t.txId holder with
  | error e =>
    obtain ⟨_, ht, hstore⟩ := rollback_thin (alike_refl hawake) h
    exact ⟨rfl, ht, hstore⟩
  | ok lockManager =>
    simp only
    split_ifs
    · obtain ⟨_, ht, hstore⟩ := rollback_thin (alike_refl hawake) (h.setLocks lockManager)
      exact ⟨rfl, ht, hstore⟩
    · refine ⟨rfl, ⟨rfl, .some ?_⟩, h.setLocks lockManager⟩
      simp only [Waiting.Alike, h.timeout]
      rw [← hcall.same]

theorem mark_thin (h : ThinStore ts ts') (hcall : SameCall ts ts' call call') (hawake : t.waiting = none) :
    ThinOutcome (t.mark ts call (ts.mvstore.versioned call.mapName call.key))
      (t.mark ts' call' (ts'.mvstore.versioned call.mapName call.key)) := by
  have hkey : call'.key = call.key := by rw [hcall.same]
  have hvalue : call'.value = call.value := by rw [hcall.same]
  have hname : call'.mapName = call.mapName := by rw [hcall.same]
  refine ⟨rfl, ?_, ?_⟩
  · simp only [mark, hname, hkey]
    exact alike_refl hawake
  · refine h.next h.nextTxId h.active h.locks h.timeout h.version h.nextCommitVersion ?_ ?_
      (le_refl _) (fun tx sv htx => Or.inl htx) fun n k => ?_
    · rw [mark_mvstore]
      exact TxSystem.allVersioned_change h.full _ _ _
    · rw [mark_mvstore]
      exact TxSystem.allVersioned_change h.thin _ _ _
    · rw [mark_mvstore, mark_mvstore, hkey, hvalue]
      have hfull := read_change hcall.full call.key (some (.versioned
        { ts.mvstore.versioned call.mapName call.key with uncommitted := some ⟨t.txId, call.value⟩ })) n k
      have hthin := read_change hcall.thin call.key (some (.versioned
        { ts'.mvstore.versioned call.mapName call.key with uncommitted := some ⟨t.txId, call.value⟩ })) n k
      split_ifs at hfull hthin with hnk
      · rw [versioned_of_read hfull, versioned_of_read hthin]
        exact (h.values call.mapName call.key).setMark _
      · rw [versioned_of_read_eq hfull, versioned_of_read_eq hthin]
        exact h.values n k

theorem writeOnce_thin (h : ThinStore ts ts')
    (hcall : SameCall ts ts' call call') (hawake : t.waiting = none) (hopen : t.status = .opened)
    (hrecent : t.Recent ts) (remaining : Option Nat) :
    ThinOutcome (t.writeOnce ts call remaining) (t.writeOnce ts' call' remaining) := by
  have hkey : call'.key = call.key := by rw [hcall.same]
  have hvalue : call'.value = call.value := by rw [hcall.same]
  have hname : call'.mapName = call.mapName := by rw [hcall.same]
  rw [writeOnce_eq h.full hcall.full, writeOnce_eq h.thin (hname ▸ hcall.thin), hname, hkey, hvalue,
    blocker_thin h, (h.values call.mapName call.key).readVisible t.txId (hrecent hopen)]
  split
  · exact waitFor_thin h hcall hawake _ remaining
  · split_ifs
    · exact mark_thin h hcall hawake
    · exact ⟨rfl, alike_refl hawake, h⟩

theorem sameCall_openMap (ts ts' : TransactionStore) (mapName : String) (key : Key)
    (value : Option (List UInt8)) :
    SameCall (ts.openMap mapName).2 (ts'.openMap mapName).2
      ⟨mapName, (ts.openMap mapName).1, key, value⟩ ⟨mapName, (ts'.openMap mapName).1, key, value⟩ :=
  ⟨rfl, find_openMap_self ts.mvstore mapName, find_openMap_self ts'.mvstore mapName⟩

theorem Recent.openMap (h : t.Recent ts) (name : String) : t.Recent (ts.openMap name).2 := by
  intro hopen
  have hversion := (quiet_openMap ts name).version
  have hactive := (quiet_openMap ts name).active
  rw [oldestActiveVersion, hversion, hactive]
  exact h hopen

theorem write_thin (ht : t.Alike t') (h : ThinStore ts ts') (hrecent : t.Recent ts)
    (hawake : t.waiting = none) (hawake' : t'.waiting = none) (mapName : String) (key : Key)
    (value : Option (List UInt8)) (remaining : Option Nat) :
    ThinOutcome (t.write ts mapName key value remaining) (t'.write ts' mapName key value remaining) := by
  have hsame : t' = t := by
    rw [ht.same, hawake', ← hawake]
  subst hsame
  unfold write
  rcases TxSystem.checkOpen_cases t' with ⟨hopen, hok⟩ | ⟨e, herror⟩
  · rw [hok]
    exact writeOnce_thin (h.openMap mapName) (sameCall_openMap ts ts' mapName key value) hawake hopen
      (hrecent.openMap mapName) remaining
  · rw [herror]
    exact ⟨rfl, ht, h⟩

variable {w w' : Waiting}

theorem Alike.sameCall (hw : w.Alike w') (hfull : ts.mvstore.maps.find w.call.mapName = some w.call.map)
    (hthin : ts'.mvstore.maps.find w'.call.mapName = some w'.call.map) :
    SameCall ts ts' w.call w'.call := by
  have hcall : w'.call = { w.call with map := w'.call.map } := by
    rw [hw]
  have hname : w'.call.mapName = w.call.mapName := by rw [hcall]
  exact ⟨hcall, hfull, hname ▸ hthin⟩

theorem wake_thin (ht : t.Alike t') (h : ThinStore ts ts') (hrecent : t.Recent ts)
    (hw : w.Alike w') (hopen : t.status = .opened)
    (hfull : ts.mvstore.maps.find w.call.mapName = some w.call.map)
    (hthin : ts'.mvstore.maps.find w'.call.mapName = some w'.call.map) (remaining : Option Nat) :
    ThinOutcome (t.wake ts w remaining) (t'.wake ts' w' remaining) := by
  unfold wake
  rw [ht.awake, ht.txId, h.locks]
  exact writeOnce_thin (t := { t with waiting := none })
    (h.setLocks (ts.lockManager.unregisterWait t.txId)) (Alike.sameCall hw hfull hthin) rfl hopen
    hrecent remaining

theorem timeOut_thin (ht : t.Alike t') (h : ThinStore ts ts') (hw : w.Alike w')
    (remaining : Option Nat) : ThinOutcome (t.timeOut ts w remaining) (t'.timeOut ts' w' remaining) := by
  have hholder : w'.holder = w.holder := by rw [hw]
  have htimeout : w'.timeoutMs = w.timeoutMs := by rw [hw]
  unfold timeOut
  rw [ht.awake, h.locks, hholder, htimeout]
  simp only
  split_ifs
  · obtain ⟨_, ht', hstore⟩ := rollback_thin (t := { t with waiting := none }) (alike_refl rfl)
      (h.setLocks (ts.lockManager.unregisterWait t.txId))
    exact ⟨rfl, ht', hstore⟩
  · exact ⟨rfl, alike_refl rfl, h.setLocks _⟩

theorem closed_thin (ht : t.Alike t') (h : ThinStore ts ts') {s s' : MVStore Stored}
    (hversion : s'.version = s.version) (hcommit : s'.nextCommitVersion = s.nextCommitVersion)
    (hfull : s.AllVersioned) (hthin : s'.AllVersioned) (hle : ts.mvstore.version ≤ s.version)
    (hvalues : ∀ n k, Thin ts.oldestActiveVersion (s.versioned n k) (s'.versioned n k)) :
    ThinOutcome (ρ := H2Result Unit) (.ok (), t.closed { ts with mvstore := s })
      (.ok (), t'.closed { ts' with mvstore := s' }) := by
  refine ⟨rfl, ⟨?_, ht.waiting⟩, ?_⟩
  · simp only [closed]
    rw [ht.same]
  · simp only [closed, ht.txId]
    exact h.removeActiveTx hversion hcommit hfull hthin hle hvalues t.txId

theorem commit_thin (ht : t.Alike t') (h : ThinStore ts ts')
    (hcounter : ts.mvstore.version ≤ ts.mvstore.nextCommitVersion) (sync : H2Result Unit) :
    ThinOutcome (t.commit ts sync) (t'.commit ts' sync) := by
  unfold commit
  rw [ht.status]
  cases hs : t.status with
  | committed => exact ⟨rfl, ht, h⟩
  | rolledBack => exact ⟨rfl, ht, h⟩
  | opened =>
    simp only [ht.undoLog, ht.txId]
    split_ifs
    · exact closed_thin ht h h.version h.nextCommitVersion h.full h.thin (le_refl _) h.values
    · cases sync with
      | ok _ =>
        obtain ⟨s, heq, hc⟩ := commitWith_ok h.full t.txId t.undoLog
        obtain ⟨s', heq', hc'⟩ := commitWith_ok h.thin t.txId t.undoLog
        rw [heq, heq']
        refine closed_thin ht h ?_ ?_ (hc.allVersioned h.full) (hc'.allVersioned h.thin) ?_ fun n k => ?_
        · rw [hc.version, hc'.version, h.nextCommitVersion]
        · rw [hc.nextCommitVersion, hc'.nextCommitVersion, h.nextCommitVersion]
        · rw [hc.version]
          exact le_succ_of_le hcounter
        · rw [hc.versioned h.full, hc'.versioned h.thin, (h.values n k).activeTxId, h.nextCommitVersion]
          split_ifs
          · exact (h.values n k).commitUncommitted _
          · exact h.values n k
      | error e =>
        obtain ⟨s, heq, hr⟩ := commitWith_error h.full t.txId t.undoLog e
        obtain ⟨s', heq', hr'⟩ := commitWith_error h.thin t.txId t.undoLog e
        rw [heq, heq']
        have hrefused : ThinStore { ts with mvstore := s } { ts' with mvstore := s' } := by
          refine h.next h.nextTxId h.active h.locks h.timeout ?_ ?_ (h.full.congr hr.read)
            (h.thin.congr hr'.read) (le_of_eq hr.version.symm) (fun tx sv htx => Or.inl htx)
            fun n k => ?_
          · rw [hr.version, hr'.version, h.version]
          · rw [hr.nextCommitVersion, hr'.nextCommitVersion, h.nextCommitVersion]
          · rw [versioned_congr hr.read, versioned_congr hr'.read]
            exact h.values n k
        obtain ⟨_, ht', hstore⟩ := rollback_thin ht hrefused
        exact ⟨rfl, ht', hstore⟩

end Transaction

/-! ## Systems -/

namespace TxSystem

def Listed (sys : TxSystem) : Prop :=
  ∀ tx sv logs, sys.opened tx = some (sv, logs) → sys.store.activeTransactions.lookup tx = some sv

/-- The same transactions on a store and on one with thinned-out histories. -/
structure ThinSystem (sys sys' : TxSystem) : Prop where
  orderly : sys.Orderly
  orderly' : sys'.Orderly
  bound : sys.Bound
  bound' : sys'.Bound
  listed : sys.Listed
  store : ThinStore sys.store sys'.store
  transactions : ∀ tx, Option.Rel Transaction.Alike (sys.transactions.lookup tx)
    (sys'.transactions.lookup tx)

theorem Listed.ended {sys : TxSystem} (h : sys.Listed) {tx : Nat} {t : Transaction}
    {ts : TransactionStore} (hclosed : t.openView = none)
    (hactive : ts.activeTransactions = sys.store.activeTransactions.erase tx) :
    (sys.after tx (t, ts)).Listed := by
  intro tx' sv logs htx'
  rw [opened_after, update_apply] at htx'
  change ts.activeTransactions.lookup tx' = some sv
  split_ifs at htx' with htx
  · rw [hclosed] at htx'
    cases htx'
  · rw [hactive, lookup_erase_ne htx]
    exact h tx' sv logs htx'

theorem Listed.continued {sys : TxSystem} (h : sys.Listed) {tx : Nat} {t t' : Transaction}
    (ht : sys.transactions.lookup tx = some t) {ts : TransactionStore} (hstatus : t'.status = t.status)
    (hsnapshot : t'.snapshotVersion = t.snapshotVersion)
    (hactive : ts.activeTransactions = sys.store.activeTransactions) :
    (sys.after tx (t', ts)).Listed := by
  intro tx' sv logs htx'
  rw [opened_after, update_apply] at htx'
  change ts.activeTransactions.lookup tx' = some sv
  rw [hactive]
  split_ifs at htx' with htx
  · unfold Transaction.openView at htx'
    split_ifs at htx' with hopen
    cases htx'
    rw [htx, hsnapshot]
    exact h tx _ _ (opened_of_lookup ht (hstatus ▸ hopen))
  · exact h tx' sv logs htx'

theorem Listed.effect {sys sys' : TxSystem} (h : sys.Listed) (hp : sys.Proper) {call : Call}
    {e : Option Event} (he : Effect sys call sys' e) : sys'.Listed := by
  cases he with
  | idle => exact h
  | began _ =>
    change (sys.after sys.store.nextTxId (sys.store.begin.1, sys.store.begin.2)).Listed
    intro tx' sv logs htx'
    rw [opened_after, update_apply] at htx'
    change (sys.store.activeTransactions.insert sys.store.nextTxId sys.store.mvstore.version).lookup tx' =
      some sv
    split_ifs at htx' with htx
    · cases htx'
      rw [htx, lookup_insert]
      rfl
    · rw [lookup_insert_ne htx]
      exact h tx' sv logs htx'
  | quiet waiting ht hq _ => exact h.continued ht rfl rfl hq.active
  | marked ht _ _ _ hm _ => exact h.continued ht rfl rfl hm.active
  | rolledBack _ _ hr => exact h.ended rfl hr.active
  | @closed tx t ht hopen _ _ =>
    refine h.ended rfl ?_
    rw [← hp.txId tx t ht]
    rfl
  | @committed tx t mvstore ht _ _ _ =>
    refine h.ended rfl ?_
    rw [← hp.txId tx t ht]
    rfl

theorem optionRel_cases {α β : Type} {r : α → β → Prop} {a : Option α} {b : Option β} (h : Option.Rel r a b) :
    (a = none ∧ b = none) ∨ ∃ x y, a = some x ∧ b = some y ∧ r x y := by
  cases h with
  | none => exact .inl ⟨rfl, rfl⟩
  | some hxy => exact .inr ⟨_, _, rfl, rfl, hxy⟩

namespace ThinSystem

variable {sys sys' : TxSystem}

theorem recent (h : ThinSystem sys sys') {tx : Nat} {t : Transaction}
    (ht : sys.transactions.lookup tx = some t) : t.Recent sys.store := by
  intro hopen
  exact oldestActiveVersion_le (h.listed tx _ _ (opened_of_lookup ht hopen))

theorem lookup (h : ThinSystem sys sys') (tx : Nat) :
    (sys.transactions.lookup tx = none ∧ sys'.transactions.lookup tx = none) ∨
    ∃ t t', sys.transactions.lookup tx = some t ∧ sys'.transactions.lookup tx = some t' ∧ t.Alike t' :=
  optionRel_cases (h.transactions tx)

theorem awake (h : ThinSystem sys sys') (tx : Nat) :
    (sys.awake tx = none ∧ sys'.awake tx = none) ∨
    ∃ t t', sys.awake tx = some t ∧ sys'.awake tx = some t' ∧ t.Alike t' := by
  unfold TxSystem.awake
  rcases h.lookup tx with ⟨hnone, hnone'⟩ | ⟨t, t', ht, ht', halike⟩
  · exact .inl ⟨by rw [hnone]; rfl, by rw [hnone']; rfl⟩
  · rw [ht, ht', filter_some, filter_some]
    rcases optionRel_cases halike.waiting with ⟨hw, hw'⟩ | ⟨w, w', hw, hw', _⟩ <;> rw [hw, hw']
    · exact .inr ⟨t, t', rfl, rfl, halike⟩
    · exact .inl ⟨rfl, rfl⟩

theorem asleep (h : ThinSystem sys sys') (tx : Nat) :
    (sys.asleep tx = none ∧ sys'.asleep tx = none) ∨
    ∃ t t' w w', sys.asleep tx = some (t, w) ∧ sys'.asleep tx = some (t', w') ∧ t.Alike t' ∧
      w.Alike w' := by
  unfold TxSystem.asleep
  rcases h.lookup tx with ⟨hnone, hnone'⟩ | ⟨t, t', ht, ht', halike⟩
  · exact .inl ⟨by rw [hnone]; rfl, by rw [hnone']; rfl⟩
  · rw [ht, ht', bind_some, bind_some]
    rcases optionRel_cases halike.waiting with ⟨hw, hw'⟩ | ⟨w, w', hw, hw', hsame⟩ <;> rw [hw, hw']
    · exact .inl ⟨rfl, rfl⟩
    · exact .inr ⟨t, t', w, w', rfl, rfl, halike, hsame⟩

structure Kept (p p' : Response × TxSystem) : Prop where
  answer : p'.1 = p.1
  store : ThinStore p.2.store p'.2.store
  transactions : ∀ tx, Option.Rel Transaction.Alike (p.2.transactions.lookup tx)
    (p'.2.transactions.lookup tx)

section

variable (h : ThinSystem sys sys')

include h

theorem kept_idle : Kept (.idle, sys) (.idle, sys') :=
  ⟨rfl, h.store, h.transactions⟩

theorem kept_after {response : Response} {tx : Nat}
    {p p' : Transaction × TransactionStore} (ht : p.1.Alike p'.1) (hstore : ThinStore p.2 p'.2) :
    Kept (response, sys.after tx p) (response, sys'.after tx p') := by
  refine ⟨rfl, hstore, fun tx' => ?_⟩
  simp only [lookup_after]
  split_ifs
  · exact .some ht
  · exact h.transactions tx'

theorem kept_write {tx : Nat} {p p' : Progress × Transaction × TransactionStore}
    (hp : Transaction.ThinOutcome p p') : Kept (sys.write tx p) (sys'.write tx p') := by
  unfold TxSystem.write
  rw [hp.answer]
  exact h.kept_after hp.transaction hp.store

theorem kept_step (call : Call) : Kept (sys.step call) (sys'.step call) := by
  cases call with
  | begin =>
    have hbegin : sys'.store.begin.1 = sys.store.begin.1 := by
      simp only [TransactionStore.begin, h.store.nextTxId, h.store.version]
    simp only [step, hbegin]
    have halike : sys.store.begin.1.Alike (sys.store.begin.1, sys'.store.begin.2).1 :=
      Transaction.alike_refl rfl
    exact h.kept_after halike h.store.begin
  | get tx mapName key =>
    rcases h.awake tx with ⟨hnone, hnone'⟩ | ⟨t, t', ht, ht', halike⟩
    · simp only [step, hnone, hnone']
      exact h.kept_idle
    · obtain ⟨hanswer, hstore⟩ := Transaction.get_thin halike h.store (h.recent (awake_eq_some ht).1)
        mapName key
      simp only [step, ht, ht', hanswer]
      exact h.kept_after halike hstore
  | put tx mapName key value remaining =>
    rcases h.awake tx with ⟨hnone, hnone'⟩ | ⟨t, t', ht, ht', halike⟩
    · simp only [step, hnone, hnone']
      exact h.kept_idle
    · simp only [step, ht, ht']
      exact h.kept_write (Transaction.write_thin halike h.store (h.recent (awake_eq_some ht).1)
        (awake_eq_some ht).2 (awake_eq_some ht').2 mapName key (some value) remaining)
  | remove tx mapName key remaining =>
    rcases h.awake tx with ⟨hnone, hnone'⟩ | ⟨t, t', ht, ht', halike⟩
    · simp only [step, hnone, hnone']
      exact h.kept_idle
    · simp only [step, ht, ht']
      exact h.kept_write (Transaction.write_thin halike h.store (h.recent (awake_eq_some ht).1)
        (awake_eq_some ht).2 (awake_eq_some ht').2 mapName key none remaining)
  | wake tx remaining =>
    rcases h.asleep tx with ⟨hnone, hnone'⟩ | ⟨t, t', w, w', ht, ht', halike, hw⟩
    · simp only [step, hnone, hnone']
      exact h.kept_idle
    · obtain ⟨hlookup, hwait⟩ := asleep_eq_some ht
      obtain ⟨hlookup', hwait'⟩ := asleep_eq_some ht'
      have hcell : w'.cell = w.cell := by rw [hw]
      simp only [step, ht, ht', hcell, h.store.locks]
      split_ifs
      · exact h.kept_write (Transaction.wake_thin halike h.store (h.recent hlookup) hw
          (h.orderly.proper.sleeper tx t w hlookup hwait) (h.bound tx t w hlookup hwait)
          (h.bound' tx t' w' hlookup' hwait') remaining)
      · exact h.kept_idle
  | timeOut tx remaining =>
    rcases h.asleep tx with ⟨hnone, hnone'⟩ | ⟨t, t', w, w', ht, ht', halike, hw⟩
    · simp only [step, hnone, hnone']
      exact h.kept_idle
    · simp only [step, ht, ht']
      exact h.kept_write (Transaction.timeOut_thin halike h.store hw remaining)
  | commit tx sync =>
    rcases h.awake tx with ⟨hnone, hnone'⟩ | ⟨t, t', ht, ht', halike⟩
    · simp only [step, hnone, hnone']
      exact h.kept_idle
    · have hout := Transaction.commit_thin halike h.store h.orderly.counter sync
      simp only [step, ht, ht', hout.answer]
      exact h.kept_after hout.transaction hout.store
  | rollback tx =>
    rcases h.awake tx with ⟨hnone, hnone'⟩ | ⟨t, t', ht, ht', halike⟩
    · simp only [step, hnone, hnone']
      exact h.kept_idle
    · have hout := Transaction.rollback_thin halike h.store
      simp only [step, ht, ht', hout.answer]
      exact h.kept_after hout.transaction hout.store

theorem step (call : Call) :
    (sys'.step call).1 = (sys.step call).1 ∧ ThinSystem (sys.step call).2 (sys'.step call).2 := by
  have he := h.orderly.step_effect call
  have he' := h.orderly'.step_effect call
  have hkept := h.kept_step call
  exact ⟨hkept.answer, h.orderly.effect he, h.orderly'.effect he', h.bound.effect he,
    h.bound'.effect he', h.listed.effect h.orderly.proper he, hkept.store, hkept.transactions⟩

end

end ThinSystem

end TxSystem

end H2Database.Mvstore
