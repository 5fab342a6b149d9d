import H2Database.Mvstore.Tx.Snapshot

/-!
# Scans (`h2-mvstore/src/tx/transaction.rs`)

`scan_visible`, and the values the maps of a store hold: for everyone the newest committed value of
each key, for an open transaction its own marks over what its snapshot sees.  A transaction whose
snapshot is the newest one sees its own writes over what is committed, and leaves that behind when it
commits.
-/

namespace H2Database.Mvstore

open Reasoning MVStore VersionedValue TransactionStore List Option Nat

/-- The entries in the order of their keys; an entry that cannot be decoded is passed over. -/
def Transaction.scanVisible (t : Transaction) (ts : TransactionStore) (mapName : String) :
    H2Result (List (Key × List UInt8)) × TransactionStore :=
  match t.checkOpen with
  | .error e => (.error e, ts)
  | .ok () =>
    let (map, ts) := ts.openMap mapName
    match ts.mvstore.maps.deref map with
    | none => (.ok [], ts)
    | some m => (.ok (m.tree.scanAll.filterMap fun e =>
        match e.value.fromBytes with
        | .error _ => none
        | .ok vv => (vv.readVisible t.txId t.snapshotVersion).map fun v => (e.key, v)), ts)

abbrev MapValues := String → Key → Option (List UInt8)

def MVStore.committed (s : MVStore Stored) : MapValues := fun n k =>
  (s.versioned n k).committedHistory.head?.bind VersionRecord.value

def MVStore.keys (s : MVStore Stored) (n : String) : List Key :=
  ((s.maps.get n).map fun m => m.tree.scanAll.map Entry.key).getD []

theorem MVStore.mem_keys_of_committed {s : MVStore Stored} {n : String} {k : Key} {v : List UInt8}
    (h : s.committed n k = some v) : k ∈ s.keys n := by
  cases hread : s.read n k with
  | none =>
    rw [committed, versioned_of_read_none hread] at h
    cases h
  | some stored =>
    rw [read, binding, contents] at hread
    obtain ⟨f, hf, hget⟩ := bind_eq_some_iff.mp hread
    obtain ⟨m, hm, rfl⟩ := map_eq_some_iff.mp hf
    rw [keys, hm, map_some, getD_some]
    exact mem_map.mpr ⟨⟨k, stored⟩, (MVTree.mem_scanAll m.tree k stored).mpr hget, rfl⟩

def MVStore.view (s : MVStore Stored) (tx snapshotVersion : Nat) : MapValues := fun n k =>
  (s.versioned n k).readVisible tx snapshotVersion

theorem Transaction.mem_scanVisible {t : Transaction} (hopen : t.status = .opened)
    {ts : TransactionStore} (hv : ts.mvstore.AllVersioned) (n : String) :
    ∃ entries, (t.scanVisible ts n).1 = .ok entries ∧ ∀ k v,
      (k, v) ∈ entries ↔ ts.mvstore.view t.txId t.snapshotVersion n k = some v := by
  have hget := mapGet_openMap ts.mvstore n
  unfold scanVisible
  rw [checkOpen, if_pos hopen]
  simp only
  change ∃ entries, (match (ts.mvstore.openMap n).2.maps.deref (ts.mvstore.openMap n).1 with
    | none => _
    | some m => _ : H2Result (List (Key × List UInt8)) × TransactionStore).1 = _ ∧ _
  cases hm : (ts.mvstore.openMap n).2.maps.deref (ts.mvstore.openMap n).1 with
  | none =>
    refine ⟨[], rfl, fun k v => ?_⟩
    have hread := (hget k).symm
    rw [hm, bind_none] at hread
    rw [view, versioned_of_read_none hread, readVisible_empty]
    simp
  | some m =>
    refine ⟨_, rfl, fun k v => ?_⟩
    have hread : ∀ k, m.get k = ts.mvstore.read n k := by
      intro k
      rw [← hget k, hm, bind_some]
    rw [mem_filterMap]
    constructor
    · intro h
      obtain ⟨e, he, heq⟩ := h
      have hstored : ts.mvstore.read n e.key = some e.value :=
        (hread e.key).symm.trans ((MVTree.mem_scanAll m.tree e.key e.value).mp he)
      rcases hv.read n e.key with hnone | hsome
      · rw [hnone] at hstored
        cases hstored
      · rw [← Option.some.inj (hsome.symm.trans hstored)] at heq
        obtain ⟨v', hvisible, hpair⟩ := map_eq_some_iff.mp heq
        cases hpair
        exact hvisible
    · intro h
      rcases hv.read n k with hnone | hsome
      · rw [view, versioned_of_read_none hnone, readVisible_empty] at h
        cases h
      · refine ⟨⟨k, _⟩, (MVTree.mem_scanAll m.tree k _).mpr ((hread k).trans hsome), ?_⟩
        change (ts.mvstore.view t.txId t.snapshotVersion n k).map _ = _
        rw [h]
        rfl

theorem Transaction.get_eq_view {t : Transaction} (hopen : t.status = .opened) {ts : TransactionStore}
    (hv : ts.mvstore.AllVersioned) (n : String) (k : Key) :
    (t.get ts n k).1 = .ok (ts.mvstore.view t.txId t.snapshotVersion n k) :=
  t.get_of_opened hopen hv n k

/-! ## What calls do to the values -/

namespace Faithful

variable {base : Base} {sys sys' : TxSystem} {tr : Trace} {call : Call} {e : Option Event}

theorem commitVersion_le (h : Faithful base sys tr) {n : String} {k : Key} {r : VersionRecord}
    (hr : r ∈ (sys.store.mvstore.versioned n k).committedHistory) :
    r.commitVersion ≤ sys.store.mvstore.version := by
  rw [h.kept n k] at hr
  exact h.bounded n k r (mem_of_mem_take hr)

theorem view_newest (h : Faithful base sys tr) (tx : Nat) (n : String) (k : Key) :
    sys.store.mvstore.view tx sys.store.mvstore.version n k =
      match (sys.store.mvstore.versioned n k).uncommitted with
      | some u => if u.txId = tx then u.value else sys.store.mvstore.committed n k
      | none => sys.store.mvstore.committed n k := by
  have hcommitted : (sys.store.mvstore.versioned n k).readCommitted sys.store.mvstore.version =
      sys.store.mvstore.committed n k := by
    unfold readCommitted visibleRecord MVStore.committed
    cases hhistory : (sys.store.mvstore.versioned n k).committedHistory with
    | nil => rfl
    | cons r rest =>
      have hle := h.commitVersion_le (n := n) (k := k) (r := r) (by rw [hhistory]; exact mem_cons_self)
      rw [find?_cons_of_pos (by simpa using hle)]
      rfl
  unfold MVStore.view readVisible
  cases (sys.store.mvstore.versioned n k).uncommitted with
  | none => exact hcommitted
  | some u => exact congrArg (fun v => if u.txId = tx then u.value else v) hcommitted

variable {tx : Nat} {ts : TransactionStore} {logs : List UndoLogEntry}

theorem view_marked (h : Faithful base sys tr) {wc : WriteCall} (hm : Marked sys.store ts tx wc)
    (hfind : ts.mvstore.maps.find wc.mapName = some wc.map) (tx' sv : Nat) (n : String) (k : Key) :
    ts.mvstore.view tx' sv n k = if tx' = tx ∧ n = wc.mapName ∧ k = wc.key then wc.value
      else sys.store.mvstore.view tx' sv n k := by
  unfold MVStore.view
  rw [hm.versioned hfind n k]
  by_cases hkey : n = wc.mapName ∧ k = wc.key
  · obtain ⟨rfl, rfl⟩ := hkey
    rw [if_pos ⟨rfl, rfl⟩]
    by_cases htx : tx' = tx
    · rw [if_pos ⟨htx, rfl, rfl⟩, readVisible]
      exact if_pos htx.symm
    · rw [if_neg fun hc => htx hc.1, readVisible, readVisible]
      simp only
      rw [if_neg (Ne.symm htx)]
      cases hu : (sys.store.mvstore.versioned wc.mapName wc.key).uncommitted with
      | none => rfl
      | some u =>
        -- a mark that was overwritten is the transaction's own
        simp only
        rw [if_neg (by rw [h.mark_owner hm hfind hu]; exact Ne.symm htx)]
        rfl
  · rw [if_neg hkey, if_neg fun hc => hkey hc.2]

theorem committed_marked {wc : WriteCall} (hm : Marked sys.store ts tx wc)
    (hfind : ts.mvstore.maps.find wc.mapName = some wc.map) :
    ts.mvstore.committed = sys.store.mvstore.committed := by
  funext n k
  unfold MVStore.committed
  rw [hm.versioned hfind n k]
  split_ifs <;> rfl

section

variable (h : Faithful base sys tr)

include h

theorem view_rolledBack (hr : RolledBack sys.store ts tx logs) {tx' : Nat}
    (hne : tx' ≠ tx) (sv : Nat) : ts.mvstore.view tx' sv = sys.store.mvstore.view tx' sv := by
  funext n k
  unfold MVStore.view
  rw [hr.versioned h.orderly.versioned n k]
  split_ifs with hown
  · obtain ⟨u, hu, hid⟩ := map_eq_some_iff.mp hown.2
    rw [readVisible, readVisible, hu]
    simp only [rollbackUncommitted]
    rw [if_neg (by rw [hid]; exact Ne.symm hne)]
    rfl
  · rfl

theorem committed_rolledBack (hr : RolledBack sys.store ts tx logs) :
    ts.mvstore.committed = sys.store.mvstore.committed := by
  funext n k
  unfold MVStore.committed
  rw [hr.versioned h.orderly.versioned n k]
  split_ifs <;> rfl

theorem committed_committed {sv : Nat} {mvstore : MVStore Stored}
    (htx : sys.opened tx = some (sv, logs)) (hc : Transaction.Committed sys.store.mvstore mvstore tx logs) :
    mvstore.committed = sys.store.mvstore.view tx sys.store.mvstore.version := by
  funext n k
  rw [h.view_newest]
  unfold MVStore.committed
  rw [hc.versioned h.orderly.versioned n k]
  cases hu : (sys.store.mvstore.versioned n k).uncommitted with
  | none => rw [if_neg (by simp [activeTxId, hu])]
  | some u =>
    simp only
    by_cases hid : u.txId = tx
    · -- a mark of the transaction is in its undo log
      have hmark := (h.marks n k u hu).2
      rw [hid] at hmark
      have hlog : (⟨n, k⟩ : UndoLogEntry) ∈ logs := (h.undo tx sv logs n k htx).mpr (by rw [hmark]; rfl)
      rw [if_pos ⟨hlog, by rw [activeTxId, hu, map_some, hid]⟩, if_pos hid, commitUncommitted, hu]
      rfl
    · rw [if_neg fun hown => hid (by simpa [activeTxId, hu] using hown.2), if_neg hid]

theorem committed_effect (he : TxSystem.Effect sys call sys' e) :
    sys'.store.mvstore.committed = sys.store.mvstore.committed ∨
      ∃ tx t version, e = some (.committed tx version) ∧ sys.transactions.lookup tx = some t ∧
        t.status = .opened ∧ t.undoLog ≠ [] ∧
          sys'.store.mvstore.committed = sys.store.mvstore.view tx sys.store.mvstore.version := by
  have hsame : ∀ {s : MVStore Stored}, s.versioned = sys.store.mvstore.versioned →
      s.committed = sys.store.mvstore.committed := by
    intro s hs
    funext n k
    rw [MVStore.committed, MVStore.committed, hs]
  cases he with
  | idle => exact .inl rfl
  | began _ => exact .inl rfl
  | quiet waiting ht hq hw => exact .inl (hsame (versioned_congr hq.read))
  | marked ht hopen htarget hreach hm hvisible =>
    exact .inl (committed_marked hm (h.bound.reaches ht hm.edited hreach))
  | rolledBack ht hopen hr => exact .inl (h.committed_rolledBack hr)
  | closed => exact .inl rfl
  | @committed tx t mvstore ht hopen hawake hc =>
    by_cases hundo : t.undoLog = []
    · left
      refine hsame (funext fun n => funext fun k => ?_)
      change mvstore.versioned n k = _
      rw [hc.versioned h.orderly.versioned, hundo, if_neg fun hin => not_mem_nil hin.1]
    · right
      exact ⟨tx, t, mvstore.version, rfl, ht, hopen, hundo,
        h.committed_committed (TxSystem.opened_of_lookup ht hopen) hc⟩

/-- A transaction on the newest snapshot has just begun, or was on the newest snapshot before the call
and sees what it saw, but for a write of its own. -/
theorem newest_effect (he : TxSystem.Effect sys call sys' e) {t' : Transaction}
    (ht' : sys'.transactions.lookup tx = some t') (hopen : t'.status = .opened)
    (hnewest : t'.snapshotVersion = sys'.store.mvstore.version) : (tx = sys.store.nextTxId ∧
      sys'.store.mvstore.view tx sys'.store.mvstore.version = sys.store.mvstore.committed) ∨
    ∃ t, sys.transactions.lookup tx = some t ∧ t.status = .opened ∧
      t.snapshotVersion = sys.store.mvstore.version ∧
      ((∀ n k value, e ≠ some (.wrote tx n k value)) ∧
        sys'.store.mvstore.view tx sys'.store.mvstore.version =
          sys.store.mvstore.view tx sys.store.mvstore.version ∨
      ∃ wc, sys.target call = some (tx, wc) ∧ e = some (.wrote tx wc.mapName wc.key wc.value) ∧
        ∀ n k, sys'.store.mvstore.view tx sys'.store.mvstore.version n k =
          if n = wc.mapName ∧ k = wc.key then wc.value
          else sys.store.mvstore.view tx sys.store.mvstore.version n k) := by
  cases he with
  | idle => exact .inr ⟨t', ht', hopen, hnewest, Or.inl ⟨by simp, rfl⟩⟩
  | began _ =>
    by_cases htx : tx = sys.store.nextTxId
    · left
      refine ⟨htx, funext fun n => funext fun k => ?_⟩
      change sys.store.mvstore.view tx sys.store.mvstore.version n k = _
      rw [h.view_newest]
      cases hu : (sys.store.mvstore.versioned n k).uncommitted with
      | none => rfl
      | some u =>
        -- nobody has marked for a transaction that has not begun
        have hne : u.txId ≠ tx := by
          intro hid
          have hown := (h.marks n k u hu).2
          rw [hid, htx, h.silent _ n k (le_refl _)] at hown
          cases hown
        exact if_neg hne
    · right
      have ht : sys.transactions.lookup tx = some t' := by
        rw [← ht']
        exact (AList.lookup_insert_ne htx).symm
      exact ⟨t', ht, hopen, hnewest, Or.inl ⟨by simp, rfl⟩⟩
  | @quiet tx₁ t ts waiting ht hq hw =>
    right
    have hview : ts.mvstore.view tx ts.mvstore.version =
        sys.store.mvstore.view tx sys.store.mvstore.version := by
      funext n k
      rw [MVStore.view, MVStore.view, versioned_congr hq.read, hq.version]
    rw [TxSystem.lookup_after] at ht'
    split_ifs at ht' with htx
    · cases ht'
      exact ⟨t, htx ▸ ht, hopen, hnewest.trans hq.version, Or.inl ⟨by simp, hview⟩⟩
    · exact ⟨t', ht', hopen, hnewest.trans hq.version, Or.inl ⟨by simp, hview⟩⟩
  | @marked tx₁ t ts wc ht hopen₁ htarget hreach hm hvisible =>
    right
    have hview := h.view_marked hm (h.bound.reaches ht hm.edited hreach) tx sys.store.mvstore.version
    have hversion : ts.mvstore.version = sys.store.mvstore.version := hm.version
    rw [TxSystem.lookup_after] at ht'
    split_ifs at ht' with htx
    · cases ht'
      refine ⟨t, htx ▸ ht, hopen₁, hnewest.trans hversion, Or.inr ⟨wc, htx ▸ htarget, by rw [htx], ?_⟩⟩
      intro n k
      change ts.mvstore.view tx ts.mvstore.version n k = _
      rw [hversion, hview n k]
      by_cases hkey : n = wc.mapName ∧ k = wc.key
      · rw [if_pos hkey, if_pos ⟨htx, hkey⟩]
      · rw [if_neg hkey, if_neg fun hc => hkey hc.2]
    · refine ⟨t', ht', hopen, hnewest.trans hversion, Or.inl ⟨fun n k value heq => ?_, ?_⟩⟩
      · cases heq
        exact htx rfl
      · funext n k
        change ts.mvstore.view tx ts.mvstore.version n k = _
        rw [hversion, hview n k, if_neg fun hc => htx hc.1]
  | @rolledBack tx₁ t ts ht hopen₁ hr =>
    right
    have hversion : ts.mvstore.version = sys.store.mvstore.version := hr.version
    rw [TxSystem.lookup_after] at ht'
    split_ifs at ht' with htx
    · cases ht'
      cases hopen
    · refine ⟨t', ht', hopen, hnewest.trans hversion, Or.inl ⟨by simp, ?_⟩⟩
      change ts.mvstore.view tx ts.mvstore.version = _
      rw [hversion, h.view_rolledBack hr htx]
  | @closed tx₁ t ht hopen₁ hawake hundo =>
    right
    rw [TxSystem.lookup_after] at ht'
    split_ifs at ht' with htx
    · cases ht'
      cases hopen
    · exact ⟨t', ht', hopen, hnewest, Or.inl ⟨by simp, rfl⟩⟩
  | @committed tx₁ t mvstore ht hopen₁ hawake hc =>
    exfalso
    rw [TxSystem.lookup_after] at ht'
    split_ifs at ht' with htx
    · cases ht'
      cases hopen
    · -- the commit has made a newer version than any snapshot
      have hle := h.snapshot tx _ _ (TxSystem.opened_of_lookup ht' hopen)
      have hcounter := h.orderly.counter
      have hversion := hc.version
      change t'.snapshotVersion = mvstore.version at hnewest
      omega

end

end Faithful

/-! ## What a write that has come out of its loop says -/

namespace Transaction

theorem waitFor_ne_ok (t : Transaction) (ts : TransactionStore) (call : WriteCall) (holder : Nat)
    (remaining : Option Nat) (b : Bool) : (t.waitFor ts call holder remaining).1 ≠ .returned (.ok b) := by
  unfold waitFor
  split
  · simp
  · simp only
    split_ifs <;> simp

variable {t : Transaction}

theorem writeOnce_false {ts : TransactionStore} {call : WriteCall}
    {remaining : Option Nat} (h : (t.writeOnce ts call remaining).1 = .returned (.ok false)) :
    call.value = none ∧ ∃ vv, existing ts call = .ok vv ∧
      (vv.getD ⟨none, []⟩).readVisible t.txId t.snapshotVersion = none := by
  unfold writeOnce at h
  split_ifs at h with hvalue
  · exfalso
    unfold putOnce at h
    split at h
    · cases h
    · split at h
      · exact waitFor_ne_ok _ _ _ _ _ _ h
      · cases h
  · refine ⟨not_isSome_iff_eq_none.mp hvalue, ?_⟩
    unfold removeOnce at h
    split at h
    · cases h
    · rename_i hvv
      exact ⟨none, hvv, rfl⟩
    · rename_i vv hvv
      refine ⟨some vv, hvv, ?_⟩
      split at h
      · exact absurd h (waitFor_ne_ok _ _ _ _ _ _)
      · split_ifs at h with hvisible
        · exact isNone_iff_eq_none.mp hvisible
        · cases h

theorem rollback_waiting (h : t.waiting = none) (ts : TransactionStore) :
    (t.rollback ts).2.1.waiting = none := by
  unfold rollback
  split
  · exact h
  · exact h
  · rfl

theorem Round.awake {ts : TransactionStore} {call : WriteCall}
    {p : Progress × Transaction × TransactionStore} (h : Round t ts call p) (hw : t.waiting = none)
    {r : H2Result Bool} (hr : p.1 = .returned r) : p.2.1.waiting = none := by
  cases h with
  | unchanged r hr => exact hw
  | sleeps w lockManager vv hcall hvv hblock => cases hr
  | gaveUp e lockManager => exact rollback_waiting hw _
  | marks vv hvv hblock hvisible => exact hw

end Transaction

/-- The puts and removals of a transaction, and what becomes of one that sleeps. -/
def Call.IsWriteOf (tx : Nat) : Call → Prop
  | .put tx' .. | .remove tx' .. | .wake tx' _ | .timeOut tx' _ => tx' = tx
  | _ => False

namespace TxSystem

theorem lookup_after_self (sys : TxSystem) (tx : Nat) (p : Transaction × TransactionStore) :
    (sys.after tx p).transactions.lookup tx = some p.1 := by
  rw [lookup_after, if_pos rfl]

structure Answers (sys : TxSystem) (call : Call) (tx : Nat) (t : Transaction)
    (p : Progress × Transaction × TransactionStore) : Prop where
  awake : ∀ r, p.1 = .returned r → p.2.1.waiting = none
  target : ∀ b, p.1 = .returned (.ok b) → ∃ wc, sys.target call = some (tx, wc)
  nothing : p.1 = .returned (.ok false) → ∀ wc, sys.target call = some (tx, wc) → wc.value = none ∧
    sys.store.mvstore.view tx t.snapshotVersion wc.mapName wc.key = none

variable {sys : TxSystem} {tx : Nat} {t : Transaction}

variable {base : Base} {tr : Trace} {call : Call}

theorem answers_write (h : Faithful base sys tr) (ht : sys.awake tx = some t) {mapName : String}
    {key : Key} {value : Option (List UInt8)} (remaining : Option Nat)
    (htarget : sys.target call = some (tx, ⟨mapName, (sys.store.openMap mapName).1, key, value⟩)) :
    Answers sys call tx t (t.write sys.store mapName key value remaining) := by
  obtain ⟨ht, hw⟩ := awake_eq_some ht
  have hid := h.orderly.proper.txId tx t ht
  have hq := quiet_openMap sys.store mapName
  unfold Transaction.write
  rcases checkOpen_cases t with ⟨-, hok⟩ | ⟨e, herror⟩
  · rw [hok]
    refine ⟨fun r hr => (Transaction.writeOnce_round _ _ _ _).awake hw hr, fun _ _ => ⟨_, htarget⟩,
      fun hfalse wc hwc => ?_⟩
    cases htarget.symm.trans hwc
    obtain ⟨hvalue, vv, hvv, hvisible⟩ := Transaction.writeOnce_false hfalse
    refine ⟨hvalue, ?_⟩
    have hfind : (sys.store.openMap mapName).2.mvstore.maps.find mapName =
        some (sys.store.openMap mapName).1 := find_openMap_self _ _
    rw [Transaction.existing_of_find (h.orderly.versioned.congr hq.read) hfind hvv,
      versioned_congr hq.read, hid] at hvisible
    exact hvisible
  · rw [herror]
    exact ⟨fun r _ => hw, fun b hok => by (cases hok), fun hfalse => by cases hfalse⟩

theorem answers_wake (h : Faithful base sys tr)
    {w : Waiting} (ht : sys.asleep tx = some (t, w)) (remaining : Option Nat) :
    Answers sys (.wake tx remaining) tx t (t.wake sys.store w remaining) := by
  have htarget : sys.target (.wake tx remaining) = some (tx, w.call) := by
    rw [target, ht]
    rfl
  obtain ⟨ht, hw⟩ := asleep_eq_some ht
  have hid := h.orderly.proper.txId tx t ht
  refine ⟨fun r hr => (Transaction.writeOnce_round { t with waiting := none } _ _ _).awake rfl hr,
    fun _ _ => ⟨_, htarget⟩, fun hfalse wc hwc => ?_⟩
  cases htarget.symm.trans hwc
  obtain ⟨hvalue, vv, hvv, hvisible⟩ := Transaction.writeOnce_false hfalse
  refine ⟨hvalue, ?_⟩
  rw [Transaction.existing_of_find h.orderly.versioned (h.bound tx t w ht hw) hvv] at hvisible
  simp only [hid] at hvisible
  exact hvisible

theorem answers_timeOut (sys : TxSystem) (tx : Nat) (t : Transaction) (w : Waiting)
    (remaining : Option Nat) :
    Answers sys (.timeOut tx remaining) tx t (t.timeOut sys.store w remaining) := by
  unfold Transaction.timeOut
  simp only
  split_ifs
  · exact ⟨fun r _ => Transaction.rollback_waiting rfl _, fun b hok => by (cases hok),
      fun hfalse => by cases hfalse⟩
  · exact ⟨fun r _ => rfl, fun b hok => by (cases hok), fun hfalse => by cases hfalse⟩

theorem step_write_cases (h : Faithful base sys tr) (hcall : call.IsWriteOf tx) :
    sys.step call = (.idle, sys) ∨ ∃ t p, sys.transactions.lookup tx = some t ∧
      sys.step call = sys.write tx p ∧ Answers sys call tx t p := by
  cases call with
  | put tx' mapName key value remaining =>
    cases hcall
    cases hawake : sys.awake tx with
    | none => exact .inl (by simp only [step, hawake])
    | some t =>
      exact .inr ⟨t, _, (awake_eq_some hawake).1, by simp only [step, hawake]; rfl,
        answers_write h hawake remaining rfl⟩
  | remove tx' mapName key remaining =>
    cases hcall
    cases hawake : sys.awake tx with
    | none => exact .inl (by simp only [step, hawake])
    | some t =>
      exact .inr ⟨t, _, (awake_eq_some hawake).1, by simp only [step, hawake]; rfl,
        answers_write h hawake remaining rfl⟩
  | wake tx' remaining =>
    cases hcall
    cases hasleep : sys.asleep tx with
    | none => exact .inl (by simp only [step, hasleep])
    | some p =>
      obtain ⟨t, w⟩ := p
      by_cases hreleased : sys.store.lockManager.isReleased w.cell = true
      · exact .inr ⟨t, _, (asleep_eq_some hasleep).1, by simp only [step, hasleep, if_pos hreleased],
          answers_wake h hasleep remaining⟩
      · exact .inl (by simp only [step, hasleep, if_neg hreleased])
  | timeOut tx' remaining =>
    cases hcall
    cases hasleep : sys.asleep tx with
    | none => exact .inl (by simp only [step, hasleep])
    | some p =>
      obtain ⟨t, w⟩ := p
      exact .inr ⟨t, _, (asleep_eq_some hasleep).1, by simp only [step, hasleep],
        answers_timeOut sys tx t w remaining⟩
  | begin | get | commit | rollback => cases hcall

theorem target_of_isWriteOf {tx tx' : Nat} {wc : WriteCall}
    (hcall : call.IsWriteOf tx) (h : sys.target call = some (tx', wc)) : tx' = tx := by
  have hwriter := writer_of_target h
  cases call with
  | put | remove | wake =>
    cases hcall
    exact (Option.some.inj hwriter).symm
  | timeOut | begin | get | commit | rollback => cases hwriter

namespace Effect

variable {sys sys' : TxSystem} {call : Call} {e : Option Event}

theorem nextTxId_le (h : Effect sys call sys' e) : sys.store.nextTxId ≤ sys'.store.nextTxId := by
  cases h with
  | idle => exact le_refl _
  | began _ => exact le_succ _
  | quiet _ _ hq _ => exact le_of_eq hq.nextTxId.symm
  | marked _ _ _ _ hm _ => exact le_of_eq hm.nextTxId.symm
  | rolledBack _ _ hr => exact le_of_eq hr.nextTxId.symm
  | closed => exact le_refl _
  | committed => exact le_refl _

theorem waiting_cases (h : Effect sys call sys' e) {w : Waiting}
    (ht : sys'.transactions.lookup tx = some t) (hw : t.waiting = some w) :
    (∃ t₀, sys.transactions.lookup tx = some t₀ ∧ t₀.waiting = some w) ∨
      sys.target call = some (tx, w.call) := by
  have hother : ∀ (tx₁ : Nat) (t₁ : Transaction) (ts : TransactionStore), t₁.waiting = none →
      (sys.after tx₁ (t₁, ts)).transactions.lookup tx = some t →
        ∃ t₀, sys.transactions.lookup tx = some t₀ ∧ t₀.waiting = some w := by
    intro tx₁ t₁ ts hnone ht
    rw [lookup_after] at ht
    split_ifs at ht
    · cases ht
      rw [hnone] at hw
      cases hw
    · exact ⟨t, ht, hw⟩
  cases h with
  | idle => exact .inl ⟨t, ht, hw⟩
  | began _ => exact .inl (hother _ sys.store.begin.1 sys.store.begin.2 rfl ht)
  | @quiet tx₁ t₁ ts waiting ht₁ hq hsleeps =>
    rw [lookup_after] at ht
    split_ifs at ht with htx
    · cases ht
      rcases (hsleeps w hw).2 with hold | hnew
      · exact .inl ⟨t₁, htx ▸ ht₁, hold⟩
      · exact .inr (htx ▸ hnew.target)
    · exact .inl ⟨t, ht, hw⟩
  | marked => exact .inl (hother _ _ _ rfl ht)
  | rolledBack => exact .inl (hother _ _ _ rfl ht)
  | @closed _ t₁ _ _ hawake _ => exact .inl (hother _ (t₁.closed sys.store).1 _ hawake ht)
  | @committed _ t₁ mvstore _ _ hawake _ =>
    exact .inl (hother _ (t₁.closed { sys.store with mvstore }).1 _ hawake ht)

end Effect

theorem lookup_rollback (hawake : ∀ t, sys.transactions.lookup tx = some t → t.waiting = none)
    (ht : (sys.step (.rollback tx)).2.transactions.lookup tx = some t) : t.status ≠ .opened := by
  cases hlookup : sys.awake tx with
  | none =>
    simp only [step, hlookup] at ht
    have hsome : sys.awake tx = some t := by
      rw [awake, ht, filter_some, if_pos]
      rw [hawake t ht]
      rfl
    rw [hlookup] at hsome
    cases hsome
  | some t₀ =>
    simp only [step, hlookup] at ht
    rw [lookup_after_self] at ht
    rw [← Option.some.inj ht]
    unfold Transaction.rollback
    cases hs : t₀.status with
    | opened => simp
    | committed => simp [hs]
    | rolledBack => simp [hs]

end TxSystem

end H2Database.Mvstore
