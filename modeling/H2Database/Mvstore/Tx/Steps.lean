import H2Database.Mvstore.Tx.Effects

/-!
# What a call can do to a system

`TxSystem.Effect` lists once the things a call of a transaction can come to; `step_effect` says that it
comes to one of them.  Every invariant of runs is proved from this list.
-/

namespace H2Database.Mvstore

open Reasoning MVStore VersionedValue Option

/-! ## Effects on the store -/

namespace TransactionStore

structure Quiet (ts ts' : TransactionStore) : Prop where
  edited : Edited ts.mvstore ts'.mvstore
  version : ts'.mvstore.version = ts.mvstore.version
  nextCommitVersion : ts'.mvstore.nextCommitVersion = ts.mvstore.nextCommitVersion
  wal : ts'.mvstore.wal = ts.mvstore.wal
  nextTxId : ts'.nextTxId = ts.nextTxId
  active : ts'.activeTransactions = ts.activeTransactions
  read : ts'.mvstore.read = ts.mvstore.read

theorem quiet_lockManager (ts : TransactionStore) (lockManager : LockManager) :
    Quiet ts { ts with lockManager } := ⟨Edited.refl _, rfl, rfl, rfl, rfl, rfl, rfl⟩

theorem Quiet.refl (ts : TransactionStore) : Quiet ts ts := quiet_lockManager ts ts.lockManager

variable {ts ts' ts'' : TransactionStore}

theorem Quiet.trans (h : Quiet ts ts') (h' : Quiet ts' ts'') :
    Quiet ts ts'' where
  edited := h.edited.trans h'.edited
  version := h'.version.trans h.version
  nextCommitVersion := h'.nextCommitVersion.trans h.nextCommitVersion
  wal := h'.wal.trans h.wal
  nextTxId := h'.nextTxId.trans h.nextTxId
  active := h'.active.trans h.active
  read := h'.read.trans h.read

theorem quiet_openMap (ts : TransactionStore) (name : String) : Quiet ts (ts.openMap name).2 := by
  have hmaps := onlyMaps_openMap ts.mvstore name
  refine ⟨Edited.openMap _ _, ?_, ?_, ?_, rfl, rfl, read_openMap _ _⟩
  · change (ts.mvstore.openMap name).2.version = _
    rw [hmaps]
  · change (ts.mvstore.openMap name).2.nextCommitVersion = _
    rw [hmaps]
  · change (ts.mvstore.openMap name).2.wal = _
    rw [hmaps]

theorem Quiet.isTxActive {ts ts' : TransactionStore} (h : Quiet ts ts') (tx : Nat) :
    ts'.isTxActive tx = ts.isTxActive tx := by
  rw [TransactionStore.isTxActive, h.active]
  rfl

/-- The marks of the transaction have been taken back and it is no longer active. -/
structure RolledBack (ts ts' : TransactionStore) (txId : Nat) (logs : List UndoLogEntry) : Prop where
  edited : Edited ts.mvstore ts'.mvstore
  version : ts'.mvstore.version = ts.mvstore.version
  nextCommitVersion : ts.mvstore.nextCommitVersion ≤ ts'.mvstore.nextCommitVersion
  wal : ts'.mvstore.wal = ts.mvstore.wal
  nextTxId : ts'.nextTxId = ts.nextTxId
  active : ts'.activeTransactions = ts.activeTransactions.erase txId
  read : ∀ n k, ts'.mvstore.read n k =
    if ⟨n, k⟩ ∈ logs then afterRollback txId (ts.mvstore.read n k) else ts.mvstore.read n k

theorem Quiet.rolledBack {txId : Nat} {logs : List UndoLogEntry}
    (h : Quiet ts ts') (h' : RolledBack ts' ts'' txId logs) : RolledBack ts ts'' txId logs where
  edited := h.edited.trans h'.edited
  version := h'.version.trans h.version
  nextCommitVersion := h.nextCommitVersion ▸ h'.nextCommitVersion
  wal := h'.wal.trans h.wal
  nextTxId := h'.nextTxId.trans h.nextTxId
  active := h.active ▸ h'.active
  read n k := by
    rw [h'.read n k, h.read]

/-- The key of the call has got the transaction's mark, if the map of the call still has its name. -/
structure Marked (ts ts' : TransactionStore) (txId : Nat) (call : WriteCall) : Prop where
  change : ∃ s vv, Edited ts.mvstore s ∧
    ts'.mvstore = s.change call.map call.key (some (.versioned vv)) ∧ s.read = ts.mvstore.read
  version : ts'.mvstore.version = ts.mvstore.version
  nextCommitVersion : ts'.mvstore.nextCommitVersion = ts.mvstore.nextCommitVersion
  wal : ts'.mvstore.wal = ts.mvstore.wal
  nextTxId : ts'.nextTxId = ts.nextTxId
  active : ts'.activeTransactions = ts.activeTransactions
  read : ts'.mvstore.maps.find call.mapName = some call.map → ∀ n k, ts'.mvstore.read n k =
    if n = call.mapName ∧ k = call.key then
      some (.versioned { ts.mvstore.versioned n k with uncommitted := some ⟨txId, call.value⟩ })
    else ts.mvstore.read n k
  free : ts'.mvstore.maps.find call.mapName = some call.map →
    ∀ u, (ts.mvstore.versioned call.mapName call.key).uncommitted = some u → u.txId ≠ txId →
      ts.isTxActive u.txId = false

theorem Marked.edited {ts ts' : TransactionStore} {txId : Nat} {call : WriteCall}
    (h : Marked ts ts' txId call) : Edited ts.mvstore ts'.mvstore := by
  obtain ⟨s, vv, hs, heq, _⟩ := h.change
  rw [heq]
  exact hs.trans (Edited.change _ _ _ _)

end TransactionStore

open TransactionStore

/-! ## Effects of the parts of a call -/

namespace Transaction

/-- What `rollback` leaves of a transaction. -/
def undone (t : Transaction) : Transaction :=
  { t with status := .rolledBack, undoLog := [], waiting := none }

variable {t : Transaction}

theorem rollback_of_opened (hopen : t.status = .opened) (ts : TransactionStore)
    (hv : ts.mvstore.AllVersioned) :
    ∃ ts', t.rollback ts = (.ok (), t.undone, ts') ∧ RolledBack ts ts' t.txId t.undoLog := by
  set store := { ts with mvstore := t.undoLog.reverse.foldl (undo t.txId) ts.mvstore }
  have heq : t.rollback ts = (.ok (), t.undone, store.removeActiveTx t.txId) := by
    unfold rollback
    rw [hopen]
    rfl
  refine ⟨_, heq, ?_⟩
  -- `undo` touches the maps only, so every other field can be read off
  have hmaps : OnlyMaps ts.mvstore (t.undoLog.reverse.foldl (undo t.txId) ts.mvstore) :=
    OnlyMaps.foldl (onlyMaps_undo t.txId) _ _
  refine ⟨Edited.foldl (edited_undo t.txId) _ _, ?_, ?_, ?_, rfl, rfl, fun n k => ?_⟩
  · change (t.undoLog.reverse.foldl (undo t.txId) ts.mvstore).version = _
    rw [hmaps]
  · change _ ≤ (t.undoLog.reverse.foldl (undo t.txId) ts.mvstore).nextCommitVersion
    rw [hmaps]
  · change (t.undoLog.reverse.foldl (undo t.txId) ts.mvstore).wal = _
    rw [hmaps]
  · change (t.undoLog.reverse.foldl (undo t.txId) ts.mvstore).read n k = _
    -- the source goes through the log backwards; the order does not matter
    rw [read_undos hv]
    simp only [List.mem_reverse]

variable {ts : TransactionStore} {vv : Option VersionedValue}

theorem blocker_eq_some {holder : Nat} (h : t.blocker ts vv = some holder) :
    vv.bind activeTxId = some holder ∧ holder ≠ t.txId ∧ ts.isTxActive holder = true := by
  rw [blocker, filter_eq_some_iff] at h
  simpa using h

theorem blocker_eq_none {vv : VersionedValue}
    (h : t.blocker ts (some vv) = none) {u : UncommittedRecord} (hu : vv.uncommitted = some u)
    (hne : u.txId ≠ t.txId) : ts.isTxActive u.txId = false := by
  have hactive : vv.activeTxId = some u.txId := by rw [activeTxId, hu, map_some]
  rw [blocker, bind_some, hactive, filter_some] at h
  simpa [hne] using h

theorem existing_of_find (hv : ts.mvstore.AllVersioned) {call : WriteCall}
    (hf : ts.mvstore.maps.find call.mapName = some call.map) (h : existing ts call = .ok vv) :
    vv.getD ⟨none, []⟩ = ts.mvstore.versioned call.mapName call.key := by
  -- the write goes by the map it holds, the read by the name of the map
  unfold existing mapGet at h
  rw [← read_of_find hf call.key] at h
  rcases hv.read call.mapName call.key with hnone | hsome
  · rw [hnone] at h
    cases h
    rw [versioned, hnone]
    rfl
  · rw [hsome] at h
    cases h
    rfl

theorem mark_mvstore (t : Transaction) (ts : TransactionStore) (call : WriteCall)
    (vv : VersionedValue) :
    (t.mark ts call vv).2.2.mvstore = ts.mvstore.change call.map call.key
      (some (.versioned { vv with uncommitted := some ⟨t.txId, call.value⟩ })) := rfl

theorem mark_marked {ts₀ ts : TransactionStore} (hq : Quiet ts₀ ts)
    (hv : ts.mvstore.AllVersioned) {call : WriteCall}
    (hvv : existing ts call = .ok vv) (hblock : t.blocker ts vv = none) :
    Marked ts₀ (t.mark ts call (vv.getD ⟨none, []⟩)).2.2 t.txId call where
  change := ⟨ts.mvstore, _, hq.edited, rfl, hq.read⟩
  version := hq.version
  nextCommitVersion := hq.nextCommitVersion
  wal := hq.wal
  nextTxId := hq.nextTxId
  active := hq.active
  read hf n k := by
    have hfind : ts.mvstore.maps.find call.mapName = some call.map := hf
    rw [mark_mvstore, existing_of_find hv hfind hvv, read_change hfind]
    refine ite_congr rfl (fun hnk => ?_) fun _ => by rw [hq.read]
    rw [hnk.1, hnk.2, versioned_congr hq.read]
  free hf u hu hne := by
    have hf : ts.mvstore.maps.find call.mapName = some call.map := hf
    rw [← hq.isTxActive]
    -- a key without a value has no mark at all; one with a value has one that did not block
    cases vv with
    | none =>
      have hempty := existing_of_find hv hf hvv
      rw [versioned_congr hq.read, getD_none] at hempty
      rw [← hempty] at hu
      cases hu
    | some vv =>
      have heq := existing_of_find hv hf hvv
      rw [versioned_congr hq.read, getD_some] at heq
      exact blocker_eq_none hblock (heq ▸ hu) hne

end Transaction

/-! ## Effects on the system -/

namespace TxSystem

structure Proper (sys : TxSystem) : Prop where
  txId : ∀ tx t, sys.transactions.lookup tx = some t → t.txId = tx
  sleeper : ∀ tx t w, sys.transactions.lookup tx = some t → t.waiting = some w → t.status = .opened

/-- The map of a write has just been opened by its name, or was when the write went to sleep. -/
def Reaches (t : Transaction) (ts : TransactionStore) (wc : WriteCall) : Prop :=
  ts.mvstore.maps.find wc.mapName = some wc.map ∨ ∃ w, t.waiting = some w ∧ w.call = wc

/-- The call has put the transaction to sleep; if the map of its write has its name, there is the mark
of an active transaction under the key. -/
structure Sleeps (sys : TxSystem) (call : Call) (tx : Nat) (t : Transaction) (ts : TransactionStore)
    (w : Waiting) : Prop where
  target : sys.target call = some (tx, w.call)
  reaches : Reaches t ts w.call
  holder : ts.mvstore.maps.find w.call.mapName = some w.call.map →
    ∃ u, (sys.store.mvstore.versioned w.call.mapName w.call.key).uncommitted = some u ∧
      sys.store.isTxActive u.txId = true

inductive Effect (sys : TxSystem) (call : Call) : TxSystem → Option Event → Prop where
  -- the transaction does not exist, sleeps, or is not released
  | idle : Effect sys call sys none
  | began (hcall : call = .begin) :
      Effect sys call
        ⟨sys.store.begin.2, sys.transactions.insert sys.store.nextTxId sys.store.begin.1⟩
        (some (.began sys.store.nextTxId sys.store.mvstore.version))
  /-- reads, refusals, and falling asleep -/
  | quiet {tx : Nat} {t : Transaction} {ts : TransactionStore} (waiting : Option Waiting)
      (ht : sys.transactions.lookup tx = some t) (hq : Quiet sys.store ts)
      (hw : ∀ w, waiting = some w →
        t.status = .opened ∧ (t.waiting = some w ∨ Sleeps sys call tx t ts w)) :
      Effect sys call (sys.after tx ({ t with waiting }, ts)) none
  | marked {tx : Nat} {t : Transaction} {ts : TransactionStore} {wc : WriteCall}
      (ht : sys.transactions.lookup tx = some t) (hopen : t.status = .opened)
      (htarget : sys.target call = some (tx, wc)) (hreach : Reaches t ts wc)
      (hm : Marked sys.store ts tx wc)
      (hvisible : ts.mvstore.maps.find wc.mapName = some wc.map → wc.value.isSome ∨
        ((sys.store.mvstore.versioned wc.mapName wc.key).readVisible tx t.snapshotVersion).isSome) :
      Effect sys call
        (sys.after tx
          ({ t with undoLog := t.undoLog ++ [⟨wc.mapName, wc.key⟩], waiting := none }, ts))
        (some (.wrote tx wc.mapName wc.key wc.value))
  -- `rollback`, a write that gave up, or a commit whose record could not be logged
  | rolledBack {tx : Nat} {t : Transaction} {ts : TransactionStore}
      (ht : sys.transactions.lookup tx = some t) (hopen : t.status = .opened)
      (hr : RolledBack sys.store ts tx t.undoLog) :
      Effect sys call (sys.after tx (t.undone, ts)) none
  -- a commit with an empty undo log: nothing is logged and no version is used up
  | closed {tx : Nat} {t : Transaction} (ht : sys.transactions.lookup tx = some t)
      (hopen : t.status = .opened) (hawake : t.waiting = none) (hundo : t.undoLog = []) :
      Effect sys call (sys.after tx (t.closed sys.store))
        (some (.committed tx sys.store.mvstore.version))
  | committed {tx : Nat} {t : Transaction} {mvstore : MVStore Stored}
      (ht : sys.transactions.lookup tx = some t) (hopen : t.status = .opened)
      (hawake : t.waiting = none)
      (hc : Transaction.Committed sys.store.mvstore mvstore tx t.undoLog) :
      Effect sys call (sys.after tx (t.closed { sys.store with mvstore }))
        (some (.committed tx mvstore.version))

variable {sys : TxSystem} {tx : Nat} {t : Transaction} {call : Call} {ts : TransactionStore}

theorem awake_eq_some (h : sys.awake tx = some t) :
    sys.transactions.lookup tx = some t ∧ t.waiting = none := by
  rw [awake, filter_eq_some_iff] at h
  exact ⟨h.1, isNone_iff_eq_none.mp h.2⟩

variable {w : Waiting}

theorem asleep_eq_some (h : sys.asleep tx = some (t, w)) :
    sys.transactions.lookup tx = some t ∧ t.waiting = some w := by
  rw [asleep, bind_eq_some_iff] at h
  obtain ⟨t', ht', hw⟩ := h
  rw [map_eq_some_iff] at hw
  obtain ⟨w', hw', heq⟩ := hw
  cases heq
  exact ⟨ht', hw'⟩

def writeEvent (tx : Nat) (wc : WriteCall) (p : Progress) : Option Event :=
  if p = .returned (.ok true) then some (.wrote tx wc.mapName wc.key wc.value) else none

variable {wc : WriteCall}

variable {p : Progress × Transaction × TransactionStore}

theorem round_effect (hp : sys.Proper) (hv : sys.store.mvstore.AllVersioned)
    (ht : sys.transactions.lookup tx = some t)
    (hopen : t.status = .opened) (hq : Quiet sys.store ts) (htarget : sys.target call = some (tx, wc))
    (hreach : Reaches t ts wc) (hround : Transaction.Round { t with waiting := none } ts wc p) :
    Effect sys call (sys.after tx p.2) (writeEvent tx wc p.1) := by
  have hid : t.txId = tx := hp.txId tx t ht
  have hv' : ts.mvstore.AllVersioned := hv.congr hq.read
  cases hround with
  | unchanged r hr =>
    -- no event, and the transaction is awake again
    have hev : writeEvent tx wc (.returned r) = none := if_neg fun h => hr (by cases h; rfl)
    rw [hev]
    exact .quiet none ht hq fun w hw => by cases hw
  | sleeps w lockManager vv hcall hvv hblock =>
    refine .quiet (t := t) (some w) ht (hq.trans (quiet_lockManager ts lockManager)) fun w' hw' => ?_
    cases hw'
    refine ⟨hopen, Or.inr ⟨by rw [hcall]; exact htarget, by rw [hcall]; exact hreach, fun hf => ?_⟩⟩
    -- the blocker is the mark that the round has read
    obtain ⟨hactive, _, hrunning⟩ := Transaction.blocker_eq_some hblock
    rw [bind_some, activeTxId, map_eq_some_iff] at hactive
    obtain ⟨u, hu, huid⟩ := hactive
    rw [hcall] at hf ⊢
    have heq := Transaction.existing_of_find hv' hf hvv
    rw [getD_some, versioned_congr hq.read] at heq
    refine ⟨u, heq ▸ hu, ?_⟩
    rw [huid, ← hq.isTxActive]
    exact hrunning
  | gaveUp e lockManager =>
    obtain ⟨ts', hrb, hr⟩ := Transaction.rollback_of_opened (t := { t with waiting := none }) hopen
      { ts with lockManager } hv'
    rw [hrb]
    -- the wait that was withdrawn changes no key, so the rollback starts from the old store
    have hr' := (hq.trans (quiet_lockManager ts lockManager)).rolledBack hr
    exact .rolledBack (t := t) ht hopen (hid ▸ hr')
  | marks vv hvv hblock hvisible =>
    have hm := Transaction.mark_marked hq hv' hvv hblock
    refine .marked (t := t) ht hopen htarget hreach (hid ▸ hm) fun hf => ?_
    have hf : ts.mvstore.maps.find wc.mapName = some wc.map := hf
    rw [Transaction.existing_of_find hv' hf hvv, versioned_congr hq.read] at hvisible
    rw [← hid]
    exact hvisible

theorem checkOpen_cases (t : Transaction) :
    (t.status = .opened ∧ t.checkOpen = .ok ()) ∨ ∃ e, t.checkOpen = .error e := by
  unfold Transaction.checkOpen
  split_ifs with h
  · exact .inl ⟨h, rfl⟩
  · exact .inr ⟨_, rfl⟩

section

variable (hp : sys.Proper)

include hp

theorem Effect.nothing (ht : sys.transactions.lookup tx = some t) (hq : Quiet sys.store ts) :
    Effect sys call (sys.after tx (t, ts)) none :=
  .quiet t.waiting ht hq fun w hw => ⟨hp.sleeper tx t w ht hw, Or.inl hw⟩

theorem get_effect (ht : sys.transactions.lookup tx = some t) (mapName : String) (key : Key) :
    Effect sys call (sys.after tx (t, (t.get sys.store mapName key).2)) none := by
  refine .nothing hp ht ?_
  unfold Transaction.get
  split
  · exact Quiet.refl _
  · simp only
    split
    · exact quiet_openMap sys.store mapName
    · exact quiet_openMap sys.store mapName

theorem write_effect (hv : sys.store.mvstore.AllVersioned) (ht : sys.awake tx = some t)
    {mapName : String} {key : Key} {value : Option (List UInt8)} (remaining : Option Nat)
    (htarget : sys.target call = some (tx, ⟨mapName, (sys.store.openMap mapName).1, key, value⟩)) :
    Effect sys call (sys.after tx (t.write sys.store mapName key value remaining).2)
      (writeEvent tx ⟨mapName, (sys.store.openMap mapName).1, key, value⟩
        (t.write sys.store mapName key value remaining).1) := by
  obtain ⟨ht, hw⟩ := awake_eq_some ht
  unfold Transaction.write
  rcases checkOpen_cases t with ⟨hopen, hok⟩ | ⟨e, herror⟩
  · rw [hok]
    -- a transaction that is awake has no wait to forget
    have hsame : { t with waiting := none } = t := by
      cases t
      cases hw
      rfl
    refine round_effect hp hv ht hopen (quiet_openMap sys.store mapName) htarget
      (.inl (find_openMap_self _ _)) ?_
    rw [hsame]
    exact Transaction.writeOnce_round _ _ _ _
  · rw [herror]
    exact .nothing hp ht (Quiet.refl _)

theorem wake_effect (hv : sys.store.mvstore.AllVersioned)
    (ht : sys.asleep tx = some (t, w)) (remaining : Option Nat)
    (htarget : sys.target call = some (tx, w.call)) :
    Effect sys call (sys.after tx (t.wake sys.store w remaining).2)
      (writeEvent tx w.call (t.wake sys.store w remaining).1) := by
  obtain ⟨ht, hw⟩ := asleep_eq_some ht
  exact round_effect hp hv ht (hp.sleeper tx t w ht hw) (quiet_lockManager _ _) htarget
    (.inr ⟨w, hw, rfl⟩) (Transaction.writeOnce_round _ _ _ _)

theorem timeOut_effect (hv : sys.store.mvstore.AllVersioned)
    (ht : sys.asleep tx = some (t, w)) (remaining : Option Nat) :
    Effect sys call (sys.after tx (t.timeOut sys.store w remaining).2) none := by
  obtain ⟨ht, hw⟩ := asleep_eq_some ht
  have hopen := hp.sleeper tx t w ht hw
  unfold Transaction.timeOut
  simp only
  split_ifs
  · -- still blocked when the time is up: rolled back, as in the loop
    obtain ⟨ts', hrb, hr⟩ := Transaction.rollback_of_opened (t := { t with waiting := none }) hopen
      { sys.store with lockManager := sys.store.lockManager.unregisterWait t.txId } hv
    rw [hrb]
    have hr' := (quiet_lockManager sys.store _).rolledBack hr
    exact .rolledBack (t := t) ht hopen (hp.txId tx t ht ▸ hr')
  · exact .quiet none ht (quiet_lockManager _ _) fun w hw => by cases hw

theorem rollback_effect (hv : sys.store.mvstore.AllVersioned) (ht : sys.transactions.lookup tx = some t) :
    Effect sys call (sys.after tx (t.rollback sys.store).2) none := by
  cases hs : t.status with
  | opened =>
    obtain ⟨ts', hrb, hr⟩ := Transaction.rollback_of_opened hs sys.store hv
    rw [hrb]
    exact .rolledBack ht hs (hp.txId tx t ht ▸ hr)
  | committed =>
    have heq : (t.rollback sys.store).2 = (t, sys.store) := by
      rw [Transaction.rollback, hs]
    rw [heq]
    exact .nothing hp ht (Quiet.refl _)
  | rolledBack =>
    have heq : (t.rollback sys.store).2 = (t, sys.store) := by
      rw [Transaction.rollback, hs]
    rw [heq]
    exact .nothing hp ht (Quiet.refl _)

end

theorem refused_rolledBack {ts' : TransactionStore} {mvstore : MVStore Stored} {txId : Nat}
    {logs : List UndoLogEntry} (h : Transaction.Refused ts.mvstore mvstore)
    (h' : RolledBack { ts with mvstore } ts' txId logs) : RolledBack ts ts' txId logs where
  edited := h.edited.trans h'.edited
  version := h'.version.trans h.version
  nextCommitVersion := by
    refine Nat.le_trans (Nat.le_succ _) ?_
    rw [Nat.succ_eq_add_one, ← h.nextCommitVersion]
    exact h'.nextCommitVersion
  wal := h'.wal.trans h.wal
  nextTxId := h'.nextTxId
  active := h'.active
  read n k := by
    rw [h'.read n k, h.read]

def commitEvent (tx : Nat) (t : Transaction) (result : H2Result Unit) (version : Nat) :
    Option Event :=
  if result = .ok () ∧ t.status = .opened then some (.committed tx version) else none

theorem commit_effect (hp : sys.Proper) (hv : sys.store.mvstore.AllVersioned)
    (ht : sys.transactions.lookup tx = some t) (hawake : t.waiting = none) (sync : H2Result Unit) :
    Effect sys call (sys.after tx (t.commit sys.store sync).2)
      (commitEvent tx t (t.commit sys.store sync).1
        (t.commit sys.store sync).2.2.mvstore.version) := by
  have hid := hp.txId tx t ht
  -- a transaction that has ended is left as it is
  have hclosed : ∀ r, t.commit sys.store sync = (r, t, sys.store) → t.status ≠ .opened →
      Effect sys call (sys.after tx (t.commit sys.store sync).2)
        (commitEvent tx t (t.commit sys.store sync).1
          (t.commit sys.store sync).2.2.mvstore.version) := by
    intro r heq hs
    rw [heq, commitEvent, if_neg fun h => hs h.2]
    exact .nothing hp ht (Quiet.refl _)
  cases hs : t.status with
  | committed => exact hclosed (.ok ()) (by rw [Transaction.commit, hs]) (by rw [hs]; simp)
  | rolledBack => exact hclosed (.error _) (by rw [Transaction.commit, hs]) (by rw [hs]; simp)
  | opened =>
    unfold Transaction.commit
    simp only [hs]
    by_cases hundo : t.undoLog.isEmpty = true
    · rw [if_pos hundo, commitEvent, if_pos ⟨rfl, hs⟩]
      exact .closed ht hs hawake (List.isEmpty_iff.mp hundo)
    · rw [if_neg hundo]
      cases sync with
      | ok _ =>
        obtain ⟨mvstore, heq, hc⟩ := Transaction.commitWith_ok hv t.txId t.undoLog
        simp only [heq, commitEvent, hs, and_self, if_true]
        exact .committed ht hs hawake (hid ▸ hc)
      | error e =>
        -- the version is drawn before the record is logged, and the rollback does not give it back
        obtain ⟨mvstore, heq, hr⟩ := Transaction.commitWith_error hv t.txId t.undoLog e
        obtain ⟨ts', hrb, hrolled⟩ := Transaction.rollback_of_opened hs
          { sys.store with mvstore } (hv.congr hr.read)
        simp only [heq, hrb, commitEvent, reduceCtorEq, false_and, if_false]
        exact .rolledBack ht hs (hid ▸ refused_rolledBack hr hrolled)

theorem event_of_wrote {p : Progress} (hstep : (sys.step call).1 = .wrote p)
    (htarget : sys.target call = some (tx, wc)) :
    sys.event call = writeEvent tx wc p := by
  unfold event writeEvent
  rw [hstep, htarget]
  -- the four arms of `event`: begun, written, ended, and the rest
  split
  · rename_i h
    cases h
  · rename_i h
    cases h
    rfl
  · rename_i h
    cases h
  · rename_i h _
    rw [if_neg fun hp => h (congrArg _ hp)]

theorem event_of_ended {r : H2Result Unit} (hstep : (sys.step call).1 = .ended r) :
    sys.event call = if r = .ok () then
      (sys.commits call).map fun tx => .committed tx (sys.step call).2.store.mvstore.version
      else none := by
  unfold event
  rw [hstep]
  cases r with
  | ok _ => rfl
  | error e => rfl

theorem effect_of_write (hstep : sys.step call = sys.write tx p) (htarget : sys.target call = some (tx, wc))
    (h : Effect sys call (sys.after tx p.2) (writeEvent tx wc p.1)) :
    Effect sys call (sys.step call).2 (sys.event call) := by
  have hresponse : (sys.step call).1 = .wrote p.1 := by rw [hstep]; rfl
  rw [event_of_wrote hresponse htarget, hstep]
  exact h

theorem step_effect (hp : sys.Proper) (hv : sys.store.mvstore.AllVersioned) (call : Call) :
    Effect sys call (sys.step call).2 (sys.event call) := by
  cases call with
  | begin => exact .began rfl
  | get tx mapName key =>
    simp only [event, step]
    cases ht : sys.awake tx with
    | none => exact .idle
    | some t => exact get_effect hp (awake_eq_some ht).1 mapName key
  | put tx mapName key value remaining =>
    cases ht : sys.awake tx with
    | none =>
      simp only [event, step, ht]
      exact .idle
    | some t =>
      refine effect_of_write (p := t.put sys.store mapName key value remaining) ?_ rfl
        (write_effect hp hv ht remaining rfl)
      simp only [step, ht]
  | remove tx mapName key remaining =>
    cases ht : sys.awake tx with
    | none =>
      simp only [event, step, ht]
      exact .idle
    | some t =>
      refine effect_of_write (p := t.remove sys.store mapName key remaining) ?_ rfl
        (write_effect hp hv ht remaining rfl)
      simp only [step, ht]
  | wake tx remaining =>
    cases ht : sys.asleep tx with
    | none =>
      simp only [event, step, ht]
      exact .idle
    | some p =>
      obtain ⟨t, w⟩ := p
      have htarget : sys.target (.wake tx remaining) = some (tx, w.call) := by
        rw [target, ht, map_some]
      cases hrel : sys.store.lockManager.isReleased w.cell with
      | true =>
        refine effect_of_write (p := t.wake sys.store w remaining) ?_ htarget
          (wake_effect hp hv ht remaining htarget)
        simp only [step, ht, hrel, if_true]
      | false =>
        simp only [event, step, ht, hrel, Bool.false_eq_true, if_false]
        exact .idle
  | timeOut tx remaining =>
    cases ht : sys.asleep tx with
    | none =>
      simp only [event, step, ht]
      exact .idle
    | some p =>
      obtain ⟨t, w⟩ := p
      -- a write that times out does not succeed
      have hnone : sys.event (.timeOut tx remaining) = none := by
        simp only [event, step, ht, write, target, map_none]
        split
        · rename_i h
          cases h
        · rfl
        · rename_i h
          cases h
        · rfl
      have hstep : (sys.step (.timeOut tx remaining)).2 =
          sys.after tx (t.timeOut sys.store w remaining).2 := by
        simp only [step, ht]
        rfl
      rw [hnone, hstep]
      exact timeOut_effect hp hv ht remaining
  | commit tx sync =>
    cases ht : sys.awake tx with
    | none =>
      simp only [event, step, ht]
      exact .idle
    | some t =>
      have hlookup := (awake_eq_some ht).1
      have hstep : sys.step (.commit tx sync) = (.ended (t.commit sys.store sync).1,
          sys.after tx (t.commit sys.store sync).2) := by simp only [step, ht]
      have hevent : sys.event (.commit tx sync) = commitEvent tx t (t.commit sys.store sync).1
          (t.commit sys.store sync).2.2.mvstore.version := by
        rw [event_of_ended (r := (t.commit sys.store sync).1) (by rw [hstep]), hstep, commitEvent,
          commits, hlookup, filter_some]
        -- a second commit answers ok as well, but is no event
        by_cases hs : t.status = .opened <;> simp [hs, TxSystem.after]
      rw [hevent, hstep]
      exact commit_effect hp hv hlookup (awake_eq_some ht).2 sync
  | rollback tx =>
    cases ht : sys.awake tx with
    | none =>
      simp only [event, step, ht]
      exact .idle
    | some t =>
      have hstep : sys.step (.rollback tx) = (.ended (t.rollback sys.store).1,
          sys.after tx (t.rollback sys.store).2) := by simp only [step, ht]
      have hnone : sys.commits (.rollback tx) = none := rfl
      rw [event_of_ended (r := (t.rollback sys.store).1) (by rw [hstep]), hstep, hnone,
        map_none, ite_self]
      exact rollback_effect hp hv (awake_eq_some ht).1

end TxSystem

end H2Database.Mvstore
