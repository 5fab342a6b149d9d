import H2Database.Mvstore.Tx.Snapshot

/-!
# What a rollback restores (`h2-mvstore/src/tx/transaction.rs`)

An undo log names keys only, some of them several times.  It is enough, because a key has a mark of an open
transaction if and only if it is in the transaction's log, whatever the others have done in between.
-/

namespace H2Database.Mvstore

open Reasoning MVStore VersionedValue TransactionStore

structure Restored (tr : Trace) (tx : Nat) (before after : TransactionStore) : Prop where
  unmarked : ∀ n k u, (after.mvstore.versioned n k).uncommitted = some u → u.txId ≠ tx
  others : ∀ n k u, u.txId ≠ tx →
    ((after.mvstore.versioned n k).uncommitted = some u ↔
      (before.mvstore.versioned n k).uncommitted = some u)
  histories : ∀ n k, (after.mvstore.versioned n k).committedHistory =
    (before.mvstore.versioned n k).committedHistory
  /-- no commit has reached a key that the transaction wrote -/
  created : ∀ n k, (tr.ownWrite tx n k).isSome → (before.mvstore.versioned n k).committedHistory = [] →
    after.mvstore.read n k = none
  untouched : ∀ n k, tr.ownWrite tx n k = none → after.mvstore.read n k = before.mvstore.read n k
  inactive : after.isTxActive tx = false

variable {logs : List UndoLogEntry} {ts' : TransactionStore}

theorem Faithful.versioned_rolledBack {base : Base} {sys : TxSystem} {tr : Trace} {tx sv : Nat}
    (h : Faithful base sys tr)
    (htx : sys.opened tx = some (sv, logs)) (hr : RolledBack sys.store ts' tx logs) (n : String) (k : Key) :
    ts'.mvstore.versioned n k =
      if (sys.store.mvstore.versioned n k).activeTxId = some tx then
        (sys.store.mvstore.versioned n k).rollbackUncommitted else sys.store.mvstore.versioned n k := by
  rw [hr.versioned h.orderly.versioned n k]
  apply if_congr _ rfl rfl
  rw [h.mem_undo_iff htx, and_self]

theorem Faithful.restored {base : Base} {sys : TxSystem} {tr : Trace} {tx sv : Nat} (h : Faithful base sys tr)
    (htx : sys.opened tx = some (sv, logs)) (hr : RolledBack sys.store ts' tx logs) :
    Restored tr tx sys.store ts' where
  unmarked n k u hu := by
    rw [h.versioned_rolledBack htx hr] at hu
    split_ifs at hu with hactive
    · cases hu
    · rintro rfl
      exact hactive (by rw [activeTxId, hu, Option.map_some])
  others n k u hu := by
    rw [h.versioned_rolledBack htx hr]
    split_ifs with hactive
    · refine iff_of_false (fun hnone => by cases hnone) fun hsome => ?_
      rw [activeTxId, hsome, Option.map_some, Option.some_inj] at hactive
      exact hu hactive
    · rfl
  histories n k := by
    rw [h.versioned_rolledBack htx hr]
    split_ifs <;> rfl
  created n k hown hempty := by
    have hlog := (h.undo tx sv logs n k htx).mpr hown
    have hactive := (h.mem_undo_iff htx n k).mp hlog
    rw [hr.read, if_pos hlog]
    rcases h.orderly.versioned.read n k with hnone | hsome
    · rw [hnone]
      rfl
    · rw [hsome, afterRollback, if_pos hactive, hempty]
      rfl
  untouched n k hown := by
    rw [hr.read, if_neg]
    rw [h.undo tx sv logs n k htx, hown]
    exact Bool.false_ne_true
  inactive := by
    rw [isTxActive, hr.active, AList.lookup_erase]
    rfl

namespace TracedTx

/-- In every run, a rollback of an open transaction restores what was there without it. -/
theorem rollback_restores (s : MVStore Stored) (hs : s.AtRest) (calls : List Call) (tx : Nat)
    (t : Transaction) (ht : (runs step (new s) calls).sys.transactions.lookup tx = some t)
    (hopen : t.status = .opened) :
    (t.rollback (runs step (new s) calls).sys.store).1 = .ok () ∧
      Restored (runs step (new s) calls).trace tx (runs step (new s) calls).sys.store
        (t.rollback (runs step (new s) calls).sys.store).2.2 := by
  have hf := faithful_runs (faithful_new hs) calls
  obtain ⟨ts', hrollback, hr⟩ :=
    Transaction.rollback_of_opened hopen (runs step (new s) calls).sys.store hf.orderly.versioned
  rw [hf.orderly.proper.txId tx t ht] at hr
  rw [hrollback]
  exact ⟨rfl, hf.restored (TxSystem.opened_of_lookup ht hopen) hr⟩

/-- The second transaction writes a key twice and removes it, creates another, and a third transaction has
marked a key, too. -/
def writersCalls : List Call :=
  commitsKey 1 [10] ++ [.begin, .put 2 "a" [1] [20] none, .put 2 "a" [1] [21] none, .remove 2 "a" [1] none,
    .put 2 "a" [2] [30] none, .begin, .put 3 "b" [1] [40] none]

theorem rollback_restores_writers :
    ∃ t, (runs step (new MVStore.new) writersCalls).sys.transactions.lookup 2 = some t ∧
      (t.rollback (runs step (new MVStore.new) writersCalls).sys.store).2.2.mvstore.read "a" [2] = none ∧
      Restored (runs step (new MVStore.new) writersCalls).trace 2
        (runs step (new MVStore.new) writersCalls).sys.store
        (t.rollback (runs step (new MVStore.new) writersCalls).sys.store).2.2 := by
  refine ⟨⟨2, 1, .opened, [⟨"a", [1]⟩, ⟨"a", [1]⟩, ⟨"a", [1]⟩, ⟨"a", [2]⟩], none⟩, by decide +kernel, ?_, ?_⟩
  · decide +kernel
  · exact (rollback_restores MVStore.new atRest_new writersCalls 2 _ (by decide +kernel) rfl).2

end TracedTx

end H2Database.Mvstore
