import H2Database.Mvstore.Tx.Steps

/-!
# The table of transactions

`TxSystem.opened` is what matters of a system's transactions: the snapshots and undo logs of the open
ones.  `Orderly` is the invariant between the table, the ids and counters of the store and the values
it holds; it is kept by every call.
-/

namespace H2Database.Mvstore

open Reasoning MVStore VersionedValue TransactionStore Function AList

def Transaction.openView (t : Transaction) : Option (Nat × List UndoLogEntry) :=
  if t.status = .opened then some (t.snapshotVersion, t.undoLog) else none

namespace TxSystem

def opened (sys : TxSystem) (tx : Nat) : Option (Nat × List UndoLogEntry) :=
  (sys.transactions.lookup tx).bind Transaction.openView

variable {sys : TxSystem} {tx : Nat} {t t' : Transaction} {ts : TransactionStore}

theorem opened_of_lookup (ht : sys.transactions.lookup tx = some t) (hopen : t.status = .opened) :
    sys.opened tx = some (t.snapshotVersion, t.undoLog) := by
  rw [opened, ht, Option.bind_some, Transaction.openView, if_pos hopen]

theorem lookup_after (sys : TxSystem) (tx : Nat) (p : Transaction × TransactionStore) (tx' : Nat) :
    (sys.after tx p).transactions.lookup tx' =
      if tx' = tx then some p.1 else sys.transactions.lookup tx' := by
  change (sys.transactions.insert tx p.1).lookup tx' = _
  by_cases h : tx' = tx
  · rw [if_pos h, h, lookup_insert]
  · rw [if_neg h, lookup_insert_ne h]

theorem opened_after (sys : TxSystem) (tx : Nat) (p : Transaction × TransactionStore) :
    (sys.after tx p).opened = Function.update sys.opened tx p.1.openView := by
  funext tx'
  rw [opened, lookup_after, update_apply]
  split_ifs
  · rfl
  · rfl

theorem opened_after_same (ht : sys.transactions.lookup tx = some t) (h : t'.openView = t.openView) :
    (sys.after tx (t', ts)).opened = sys.opened := by
  have htx : sys.opened tx = t.openView := by rw [opened, ht, Option.bind_some]
  rw [opened_after, h, ← htx, update_eq_self]

structure Orderly (sys : TxSystem) : Prop where
  proper : sys.Proper
  versioned : sys.store.mvstore.AllVersioned
  counter : sys.store.mvstore.version ≤ sys.store.mvstore.nextCommitVersion
  fresh : ∀ tx, sys.store.nextTxId ≤ tx → sys.transactions.lookup tx = none
  active : ∀ tx, sys.store.isTxActive tx = (sys.opened tx).isSome

theorem Orderly.step_effect (h : sys.Orderly) (call : Call) :
    Effect sys call (sys.step call).2 (sys.event call) :=
  TxSystem.step_effect h.proper h.versioned call

theorem orderly_new {s : MVStore Stored} (hv : s.AllVersioned)
    (hc : s.version ≤ s.nextCommitVersion) : (new s).Orderly where
  proper := ⟨fun _ _ h => (by cases h), fun _ _ _ h => (by cases h)⟩
  versioned := hv
  counter := hc
  fresh _ _ := rfl
  active _ := rfl

theorem allVersioned_change {s : MVStore Stored} (hv : s.AllVersioned) (id : Nat) (key : Key)
    (vv : VersionedValue) : (s.change id key (some (.versioned vv))).AllVersioned := by
  intro n k stored hst
  by_cases hlive : s.maps.Live id
  · obtain ⟨n', hn'⟩ := hlive
    rw [read_change hn'] at hst
    split_ifs at hst
    · cases hst
      exact ⟨vv, rfl⟩
    · exact hv n k stored hst
  · rw [MVStore.read, contents_change_of_not_live hlive] at hst
    exact hv n k stored hst

theorem Proper.after (h : sys.Proper) (hid : t.txId = tx) (hw : ∀ w, t.waiting = some w → t.status = .opened)
    (ts : TransactionStore) : (sys.after tx (t, ts)).Proper := by
  constructor
  · intro tx' t' ht'
    rw [lookup_after] at ht'
    split_ifs at ht' with htx
    · cases ht'
      rw [hid, htx]
    · exact h.txId tx' t' ht'
  · intro tx' t' w ht' hw'
    rw [lookup_after] at ht'
    split_ifs at ht' with htx
    · cases ht'
      exact hw w hw'
    · exact h.sleeper tx' t' w ht' hw'

theorem isTxActive_erase (ts : TransactionStore) (tx tx' : Nat) :
    ((ts.activeTransactions.erase tx).lookup tx').isSome =
      if tx' = tx then false else ts.isTxActive tx' := by
  by_cases h : tx' = tx
  · rw [if_pos h, h, lookup_erase]
    rfl
  · rw [if_neg h, lookup_erase_ne h]
    rfl

section

variable (ht : sys.transactions.lookup tx = some t)

include ht

theorem Orderly.after (h : sys.Orderly) (hid : t'.txId = t.txId)
    (hw : ∀ w, t'.waiting = some w → t'.status = .opened) (hv : ts.mvstore.AllVersioned)
    (hc : ts.mvstore.version ≤ ts.mvstore.nextCommitVersion) (hnext : ts.nextTxId = sys.store.nextTxId)
    (hactive : ∀ tx', ts.isTxActive tx' = (Function.update sys.opened tx t'.openView tx').isSome) :
    (sys.after tx (t', ts)).Orderly where
  proper := h.proper.after (hid.trans (h.proper.txId tx t ht)) hw ts
  versioned := hv
  counter := hc
  fresh tx' htx' := by
    change ts.nextTxId ≤ tx' at htx'
    rw [hnext] at htx'
    have hnone := h.fresh tx' htx'
    rw [lookup_after, if_neg, hnone]
    rintro rfl
    rw [ht] at hnone
    cases hnone
  active tx' := by
    rw [opened_after]
    exact hactive tx'

theorem Orderly.ended (h : sys.Orderly) (hid : t'.txId = t.txId)
    (hclosed : t'.status ≠ .opened) (hawake : t'.waiting = none) (hv : ts.mvstore.AllVersioned)
    (hc : ts.mvstore.version ≤ ts.mvstore.nextCommitVersion) (hnext : ts.nextTxId = sys.store.nextTxId)
    (hactive : ts.activeTransactions = sys.store.activeTransactions.erase tx) :
    (sys.after tx (t', ts)).Orderly := by
  refine h.after ht hid (fun w hw => ?_) hv hc hnext fun tx' => ?_
  · rw [hawake] at hw
    cases hw
  · rw [isTxActive, hactive, isTxActive_erase, update_apply]
    split_ifs
    · rw [Transaction.openView, if_neg hclosed]
      rfl
    · exact h.active tx'

theorem Orderly.continued (h : sys.Orderly) (hid : t'.txId = t.txId) (hstatus : t'.status = t.status)
    (hw : ∀ w, t'.waiting = some w → t.status = .opened) (hv : ts.mvstore.AllVersioned)
    (hc : ts.mvstore.version ≤ ts.mvstore.nextCommitVersion) (hnext : ts.nextTxId = sys.store.nextTxId)
    (hactive : ts.activeTransactions = sys.store.activeTransactions) : (sys.after tx (t', ts)).Orderly := by
  refine h.after ht hid (fun w hw' => hstatus.trans (hw w hw')) hv hc hnext fun tx' => ?_
  rw [isTxActive, hactive, update_apply]
  refine (h.active tx').trans ?_
  split_ifs with htx
  · rw [htx, opened, ht, Option.bind_some]
    unfold Transaction.openView
    rw [hstatus]
    split_ifs <;> rfl
  · rfl

end

theorem Orderly.began (h : sys.Orderly) :
    Orderly ⟨sys.store.begin.2, sys.transactions.insert sys.store.nextTxId sys.store.begin.1⟩ := by
  change (sys.after sys.store.nextTxId (sys.store.begin.1, sys.store.begin.2)).Orderly
  refine ⟨?_, h.versioned, h.counter, fun tx' htx' => ?_, fun tx' => ?_⟩
  · exact h.proper.after rfl (fun w hw => by cases hw) _
  · change sys.store.nextTxId + 1 ≤ tx' at htx'
    rw [lookup_after, if_neg (by omega), h.fresh tx' (by omega)]
  · rw [opened_after, update_apply]
    change ((sys.store.activeTransactions.insert _ _).lookup tx').isSome = _
    split_ifs with htx
    · rw [htx, lookup_insert]
      rfl
    · rw [lookup_insert_ne htx]
      exact h.active tx'

end TxSystem

variable {logs : List UndoLogEntry}

theorem TransactionStore.RolledBack.allVersioned {ts ts' : TransactionStore} {tx : Nat}
    (h : RolledBack ts ts' tx logs) (hv : ts.mvstore.AllVersioned) :
    ts'.mvstore.AllVersioned := by
  intro n k stored hst
  rw [h.read] at hst
  split_ifs at hst
  · exact afterRollback_versioned (hv n k) hst
  · exact hv n k stored hst

theorem Transaction.Committed.allVersioned {s s' : MVStore Stored} {tx : Nat}
    (h : Transaction.Committed s s' tx logs) (hv : s.AllVersioned) :
    s'.AllVersioned := by
  intro n k stored hst
  rw [h.read] at hst
  split_ifs at hst
  · exact afterCommit_versioned (hv n k) hst
  · exact hv n k stored hst

namespace TxSystem

theorem Orderly.effect {sys sys' : TxSystem} (h : sys.Orderly) {call : Call} {e : Option Event}
    (he : Effect sys call sys' e) : sys'.Orderly := by
  cases he with
  | idle => exact h
  | began _ => exact h.began
  | quiet waiting ht hq hw =>
    refine h.continued ht rfl rfl (fun w hw' => (hw w hw').1) (h.versioned.congr hq.read) ?_
      hq.nextTxId hq.active
    rw [hq.version, hq.nextCommitVersion]
    exact h.counter
  | marked ht hopen htarget hreach hm hvisible =>
    refine h.continued ht rfl rfl (fun w hw => hopen) ?_ ?_ hm.nextTxId hm.active
    · obtain ⟨s, vv, _, heq, hread⟩ := hm.change
      rw [heq]
      exact allVersioned_change (h.versioned.congr hread) _ _ _
    · rw [hm.version, hm.nextCommitVersion]
      exact h.counter
  | rolledBack ht hopen hr =>
    refine h.ended ht rfl (by simp [Transaction.undone]) rfl (hr.allVersioned h.versioned) ?_
      hr.nextTxId hr.active
    rw [hr.version]
    exact Nat.le_trans h.counter hr.nextCommitVersion
  | @closed tx t ht hopen hawake hundo =>
    have hid := h.proper.txId tx t ht
    refine h.ended ht rfl (by simp) hawake h.versioned h.counter rfl ?_
    rw [hid]
    rfl
  | @committed tx t mvstore ht hopen hawake hc =>
    have hid := h.proper.txId tx t ht
    refine h.ended ht rfl (by simp) hawake (hc.allVersioned h.versioned) ?_ rfl ?_
    · change mvstore.version ≤ mvstore.nextCommitVersion
      rw [hc.version, hc.nextCommitVersion]
    · rw [hid]
      rfl

end TxSystem

end H2Database.Mvstore
