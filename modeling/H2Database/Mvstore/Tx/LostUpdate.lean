import H2Database.Mvstore.Tx.Snapshot

/-!
# Lost updates

Two transactions that both commit a write of one key should not have run on the same snapshot of it.
A write looks only at the mark under its key and never compares the newest committed version with the
snapshot of its transaction, so the law holds for the runs in which that comparison would succeed.
-/

namespace H2Database.Mvstore

open Reasoning MVStore VersionedValue TransactionStore List

/-- The transactions that committed a write of the key, with their versions, newest first. -/
def Trace.writers (n : String) (k : Key) : Trace → List (Nat × Nat)
  | [] => []
  | .committed tx version :: tr =>
    if (Trace.ownWrite tx n k tr).isSome then (tx, version) :: writers n k tr else writers n k tr
  | _ :: tr => writers n k tr

namespace TxSystem

/-- The write would put its mark under the key: the transaction is open, no other active transaction
has marked the key, and a removal has something to remove. -/
def wouldMark (sys : TxSystem) (t : Transaction) (wc : WriteCall) : Bool :=
  let vv := sys.store.mvstore.versioned wc.mapName wc.key
  decide (t.status = .opened) &&
    vv.uncommitted.all (fun u => u.txId == t.txId || !sys.store.isTxActive u.txId) &&
    (wc.value.isSome || (vv.readVisible t.txId t.snapshotVersion).isSome)

/-- No mark is put over a version the transaction's snapshot does not see. -/
def firstCommitter (sys : TxSystem) (call : Call) : Bool :=
  match sys.target call with
  | none => true
  | some (tx, wc) =>
    match sys.transactions.lookup tx with
    | none => true
    | some t => !sys.wouldMark t wc ||
      (sys.store.mvstore.versioned wc.mapName wc.key).committedHistory.head?.all
        fun r => decide (r.commitVersion ≤ t.snapshotVersion)

theorem newest_le_of_firstCommitter {base : Base} {sys : TxSystem} {tr : Trace}
    (h : Faithful base sys tr) {call : Call} (hf : sys.firstCommitter call = true) {tx : Nat}
    {t : Transaction} {ts : TransactionStore} {wc : WriteCall}
    (ht : sys.transactions.lookup tx = some t) (hopen : t.status = .opened)
    (htarget : sys.target call = some (tx, wc)) (hm : Marked sys.store ts tx wc)
    (hfind : ts.mvstore.maps.find wc.mapName = some wc.map)
    (hvisible : wc.value.isSome ∨
      ((sys.store.mvstore.versioned wc.mapName wc.key).readVisible tx t.snapshotVersion).isSome)
    {r : VersionRecord}
    (hr : (sys.store.mvstore.versioned wc.mapName wc.key).committedHistory.head? = some r) :
    r.commitVersion ≤ t.snapshotVersion := by
  have hid := h.orderly.proper.txId tx t ht
  have hmark : sys.wouldMark t wc = true := by
    unfold wouldMark
    simp only [hopen, decide_true, Bool.true_and, Bool.and_eq_true, Bool.or_eq_true, hid]
    refine ⟨?_, hvisible⟩
    rw [Option.all_eq_true]
    intro u hu
    rw [h.mark_owner hm hfind hu]
    simp
  unfold firstCommitter at hf
  simp only [htarget, ht, hmark, hr, Bool.not_true, Bool.false_or, Option.all_some,
    decide_eq_true_eq] at hf
  exact hf

end TxSystem

/-- Under every key, what an open transaction has marked it has seen, and each commit saw the commits
before it. -/
structure Serial (base : Base) (sys : TxSystem) (tr : Trace) : Prop where
  faithful : Faithful base sys tr
  known : ∀ n k, ∀ p ∈ tr.writers n k, ∃ t, sys.transactions.lookup p.1 = some t
  logged : ∀ n k, ∀ p ∈ tr.writers n k, ∃ r ∈ tr.commitLog (base n k) n k, r.commitVersion = p.2
  ordered : ∀ n k, (tr.writers n k).Pairwise fun p q =>
    ∀ t, sys.transactions.lookup p.1 = some t → q.2 ≤ t.snapshotVersion
  ahead : ∀ tx sv logs n k, sys.opened tx = some (sv, logs) → ⟨n, k⟩ ∈ logs →
    ∀ p ∈ tr.writers n k, p.2 ≤ sv

theorem Faithful.le_newest {base : Base} {sys : TxSystem} {tr : Trace} (h : Faithful base sys tr)
    {n : String} {k : Key} {r : VersionRecord} (hr : r ∈ tr.commitLog (base n k) n k) :
    ∃ r₀, (sys.store.mvstore.versioned n k).committedHistory.head? = some r₀ ∧
      r.commitVersion ≤ r₀.commitVersion := by
  have hdesc := h.descending n k
  rw [h.kept n k]
  cases hlog : tr.commitLog (base n k) n k with
  | nil =>
    rw [hlog] at hr
    cases hr
  | cons r₀ rest =>
    rw [hlog, pairwise_cons] at hdesc
    rw [hlog] at hr
    refine ⟨r₀, rfl, ?_⟩
    rcases mem_cons.mp hr with rfl | hrest
    · exact Nat.le_refl _
    · exact Nat.le_of_lt (hdesc.1 r hrest)

namespace Serial

variable {base : Base} {sys sys' : TxSystem} {tr : Trace} {call : Call} {e : Option Event}

theorem new {s : MVStore Stored} (h : s.AtRest) :
    Serial s.base (TracedTx.new s).sys (TracedTx.new s).trace where
  faithful := TracedTx.faithful_new h
  known _ _ p hp := by cases hp
  logged _ _ p hp := by cases hp
  ordered _ _ := List.Pairwise.nil
  ahead _ _ _ _ _ htx := by cases htx

section

variable (h : Serial base sys tr)

include h

theorem ordered_effect (he : TxSystem.Effect sys call sys' e) (n : String)
    (k : Key) : (tr.writers n k).Pairwise fun p q =>
      ∀ t, sys'.transactions.lookup p.1 = some t → q.2 ≤ t.snapshotVersion := by
  refine (h.ordered n k).imp_of_mem fun {p q} hp _ hpq t' ht' => ?_
  obtain ⟨t, ht⟩ := h.known n k p hp
  obtain ⟨t'', ht'', hsv⟩ := he.snapshotVersion_eq h.faithful.orderly ht
  cases ht'.symm.trans ht''
  rw [hsv]
  exact hpq t ht

theorem known_effect (he : TxSystem.Effect sys call sys' e) (n : String)
    (k : Key) : ∀ p ∈ tr.writers n k, ∃ t, sys'.transactions.lookup p.1 = some t := by
  intro p hp
  obtain ⟨t, ht⟩ := h.known n k p hp
  obtain ⟨t', ht', _⟩ := he.snapshotVersion_eq h.faithful.orderly ht
  exact ⟨t', ht'⟩

theorem uncommitted (he : TxSystem.Effect sys call sys' e)
    (hw : ∀ n k, Trace.writers n k (e.toList ++ tr) = tr.writers n k)
    (hl : ∀ n k, Trace.commitLog (base n k) n k (e.toList ++ tr) = tr.commitLog (base n k) n k)
    (ha : ∀ tx sv logs n k, sys'.opened tx = some (sv, logs) → ⟨n, k⟩ ∈ logs →
      ∀ p ∈ tr.writers n k, p.2 ≤ sv) : Serial base sys' (e.toList ++ tr) where
  faithful := h.faithful.effect he
  known n k := by rw [hw]; exact h.known_effect he n k
  logged n k := by rw [hw, hl]; exact h.logged n k
  ordered n k := by rw [hw]; exact h.ordered_effect he n k
  ahead tx sv logs n k := by rw [hw]; exact ha tx sv logs n k

theorem marked {tx : Nat} {t : Transaction} {ts : TransactionStore} {wc : WriteCall}
    (hf : sys.firstCommitter call = true)
    (ht : sys.transactions.lookup tx = some t) (hopen : t.status = .opened)
    (htarget : sys.target call = some (tx, wc)) (hreach : TxSystem.Reaches t ts wc)
    (hm : Marked sys.store ts tx wc)
    (hvisible : ts.mvstore.maps.find wc.mapName = some wc.map → wc.value.isSome ∨
      ((sys.store.mvstore.versioned wc.mapName wc.key).readVisible tx t.snapshotVersion).isSome)
    {tx' sv : Nat} {logs : List UndoLogEntry} {n : String} {k : Key} (htx' : Function.update sys.opened tx
      (some (t.snapshotVersion, t.undoLog ++ [⟨wc.mapName, wc.key⟩])) tx' = some (sv, logs))
    (hlog : ⟨n, k⟩ ∈ logs) : ∀ p ∈ tr.writers n k, p.2 ≤ sv := by
  rw [Function.update_apply] at htx'
  split_ifs at htx' with heq
  · cases htx'
    rcases mem_append.mp hlog with hold | hnew
    · exact h.ahead tx _ _ n k (TxSystem.opened_of_lookup ht hopen) hold
    · obtain ⟨rfl, rfl⟩ := UndoLogEntry.mk.inj (mem_singleton.mp hnew)
      intro p hp
      obtain ⟨r, hr, hrp⟩ := h.logged _ _ p hp
      obtain ⟨r₀, hhead, hle⟩ := h.faithful.le_newest hr
      have hfind := h.faithful.bound.reaches ht hm.edited hreach
      have hnewest := TxSystem.newest_le_of_firstCommitter h.faithful hf ht hopen htarget hm hfind
        (hvisible hfind) hhead
      omega
  · exact h.ahead tx' sv logs n k htx' hlog

theorem committed {tx : Nat} {t : Transaction} {mvstore : MVStore Stored}
    (ht : sys.transactions.lookup tx = some t) (hopen : t.status = .opened) (hawake : t.waiting = none)
    (hc : Transaction.Committed sys.store.mvstore mvstore tx t.undoLog) :
    Serial base (sys.after tx (t.closed { sys.store with mvstore }))
      (.committed tx mvstore.version :: tr) := by
  have he : TxSystem.Effect sys (.commit tx (.ok ())) _ _ := .committed ht hopen hawake hc
  have htx := TxSystem.opened_of_lookup ht hopen
  have hundo := h.faithful.undo tx t.snapshotVersion t.undoLog
  have hopened : (sys.after tx (t.closed { sys.store with mvstore })).opened =
      Function.update sys.opened tx none := TxSystem.opened_after sys tx _
  have hself : (sys.after tx (t.closed { sys.store with mvstore })).transactions.lookup tx =
      some (t.closed { sys.store with mvstore }).1 := by rw [TxSystem.lookup_after, if_pos rfl]
  refine ⟨h.faithful.effect he, fun n k p hp => ?_, fun n k p hp => ?_, fun n k => ?_, ?_⟩
  · unfold Trace.writers at hp
    split_ifs at hp
    · rcases mem_cons.mp hp with rfl | hp
      · exact ⟨_, hself⟩
      · exact h.known_effect he n k p hp
    · exact h.known_effect he n k p hp
  · unfold Trace.writers at hp
    cases hown : tr.ownWrite tx n k with
    | none =>
      rw [hown, if_neg (by simp)] at hp
      rw [Trace.commitLog_committed_of_none hown]
      exact h.logged n k p hp
    | some value =>
      rw [hown, if_pos (by simp)] at hp
      rw [Trace.commitLog_committed_of_some hown]
      rcases mem_cons.mp hp with rfl | hp
      · exact ⟨_, mem_cons_self, rfl⟩
      · obtain ⟨r, hr, hrp⟩ := h.logged n k p hp
        exact ⟨r, mem_cons_of_mem _ hr, hrp⟩
  · unfold Trace.writers
    split_ifs with hown
    · refine List.Pairwise.cons (fun q hq t' ht' => ?_) (h.ordered_effect he n k)
      cases ht'.symm.trans hself
      exact h.ahead tx _ _ n k htx ((hundo n k htx).mpr hown) q hq
    · exact h.ordered_effect he n k
  · intro tx' sv logs n k htx' hlog
    obtain ⟨hne, htx₀⟩ := Faithful.opened_ended hopened htx'
    -- the key has the mark of the other transaction, so this one has not written it
    have hnot : ¬ (tr.ownWrite tx n k).isSome = true := by
      rw [← hundo n k htx, h.faithful.mem_undo_iff htx,
        (h.faithful.mem_undo_iff htx₀ n k).mp hlog]
      intro hc
      exact hne (Option.some.inj hc)
    unfold Trace.writers
    rw [if_neg hnot]
    exact h.ahead tx' sv logs n k htx₀ hlog

theorem effect (hf : sys.firstCommitter call = true)
    (he : TxSystem.Effect sys call sys' e) : Serial base sys' (e.toList ++ tr) := by
  have he' := he
  cases he with
  | idle => exact h
  | began _ =>
    refine h.uncommitted he' (fun _ _ => rfl) (fun _ _ => rfl) fun tx sv logs n k htx hlog => ?_
    refine h.ahead tx sv logs n k ?_ hlog
    have hopened := TxSystem.opened_after sys sys.store.nextTxId (sys.store.begin.1, sys.store.begin.2)
    change (sys.after sys.store.nextTxId (sys.store.begin.1, sys.store.begin.2)).opened tx = _ at htx
    rw [hopened, Function.update_apply] at htx
    split_ifs at htx
    · cases htx
      cases hlog
    · exact htx
  | @quiet tx t ts waiting ht hq hw =>
    have hopened : (sys.after tx ({ t with waiting }, ts)).opened = sys.opened :=
      TxSystem.opened_after_same ht (by rfl)
    refine h.uncommitted he' (fun _ _ => rfl) (fun _ _ => rfl) fun tx' sv logs n k htx' => ?_
    rw [hopened] at htx'
    exact h.ahead tx' sv logs n k htx'
  | marked ht hopen htarget hreach hm hvisible =>
    refine h.uncommitted he' (fun _ _ => rfl) (fun _ _ => rfl) fun tx' sv logs n k htx' => ?_
    rw [TxSystem.opened_after, Transaction.openView, if_pos hopen] at htx'
    exact h.marked hf ht hopen htarget hreach hm hvisible htx'
  | rolledBack ht hopen hr =>
    refine h.uncommitted he' (fun _ _ => rfl) (fun _ _ => rfl) fun tx' sv logs n k htx' => ?_
    exact h.ahead tx' sv logs n k
      (Faithful.opened_ended (TxSystem.opened_after sys _ (_, _)) htx').2
  | @closed tx t ht hopen hawake hundo =>
    have hnone : ∀ n k, tr.ownWrite tx n k = none := by
      intro n k
      rw [← Option.not_isSome_iff_eq_none,
        ← h.faithful.undo tx _ _ n k (TxSystem.opened_of_lookup ht hopen), hundo]
      exact not_mem_nil
    refine h.uncommitted he' (fun n k => ?_) (fun n k => ?_) fun tx' sv logs n k htx' => ?_
    · change Trace.writers n k (.committed tx _ :: tr) = _
      rw [Trace.writers, hnone, if_neg (by simp)]
    · exact Trace.commitLog_committed_of_none (hnone n k) _ _
    · exact h.ahead tx' sv logs n k
        (Faithful.opened_ended (TxSystem.opened_after sys _ (_, _)) htx').2
  | committed ht hopen hawake hc => exact h.committed ht hopen hawake hc

end

end Serial

namespace TracedTx

theorem serial_runs {base : Base} {t : TracedTx} {calls : List Call}
    (h : Serial base t.sys t.trace)
    (hm : Meets step (fun t c => t.sys.firstCommitter c = true) t calls) :
    Serial base (runs step t calls).sys (runs step t calls).trace := by
  induction calls generalizing t with
  | nil => exact h
  | cons c calls ih =>
    have ho := h.faithful.orderly
    exact ih (h.effect hm.1 (ho.step_effect c)) hm.2

/-- Of two committed writers, with their versions, one has the other's commit in its snapshot. -/
def OneSawOther (sys : TxSystem) (p q : Nat × Nat) : Prop :=
  ∀ t₁ t₂, sys.transactions.lookup p.1 = some t₁ → sys.transactions.lookup q.1 = some t₂ →
    p.2 ≤ t₂.snapshotVersion ∨ q.2 ≤ t₁.snapshotVersion

instance (sys : TxSystem) : Std.Symm (OneSawOther sys) :=
  ⟨fun _ _ h t₁ t₂ ht₁ ht₂ => (h t₂ t₁ ht₂ ht₁).symm⟩

/-- In a run whose marks are all put over versions their transactions see, of two transactions that
committed a write of one key one has seen the other's commit. -/
theorem no_lost_update (s : MVStore Stored) (hs : s.AtRest) (calls : List Call)
    (hm : Meets step (fun t c => t.sys.firstCommitter c = true) (new s) calls) (n : String) (k : Key)
    (p q : Nat × Nat) (hp : p ∈ (runs step (new s) calls).trace.writers n k)
    (hq : q ∈ (runs step (new s) calls).trace.writers n k) (hpq : p ≠ q) (t₁ t₂ : Transaction)
    (ht₁ : (runs step (new s) calls).sys.transactions.lookup p.1 = some t₁)
    (ht₂ : (runs step (new s) calls).sys.transactions.lookup q.1 = some t₂) :
    p.2 ≤ t₂.snapshotVersion ∨ q.2 ≤ t₁.snapshotVersion := by
  have hserial := serial_runs (Serial.new hs) hm
  have hpair : ((runs step (new s) calls).trace.writers n k).Pairwise
      (OneSawOther (runs step (new s) calls).sys) :=
    (hserial.ordered n k).imp fun h t₁ t₂ ht₁ _ => Or.inr (h t₁ ht₁)
  exact hpair.forall hp hq hpq t₁ t₂ ht₁ ht₂

def turnsCalls : List Call := commitsKey 1 [10] ++ commitsKey 2 [20]

theorem no_lost_update_sample :
    (1, 1) ∈ (runs step (new MVStore.new) turnsCalls).trace.writers "a" [1] ∧
    (2, 2) ∈ (runs step (new MVStore.new) turnsCalls).trace.writers "a" [1] ∧
    ∀ t₁ t₂, (runs step (new MVStore.new) turnsCalls).sys.transactions.lookup 1 = some t₁ →
      (runs step (new MVStore.new) turnsCalls).sys.transactions.lookup 2 = some t₂ →
      1 ≤ t₂.snapshotVersion ∨ 2 ≤ t₁.snapshotVersion := by
  have hp : (1, 1) ∈ (runs step (new MVStore.new) turnsCalls).trace.writers "a" [1] := by
    decide +kernel
  have hq : (2, 2) ∈ (runs step (new MVStore.new) turnsCalls).trace.writers "a" [1] := by
    decide +kernel
  refine ⟨hp, hq, ?_⟩
  exact no_lost_update MVStore.new atRest_new turnsCalls
    ⟨by decide +kernel, by decide +kernel, by decide +kernel, by decide +kernel, by decide +kernel,
      by decide +kernel, trivial⟩ "a" [1] (1, 1) (2, 2) hp hq (by decide)

/-- Both transactions begin at version 0; the second write waits for the first transaction to commit
and then goes over its value. -/
def waitedCalls : List Call :=
  [.begin, .begin, .put 1 "a" [1] [10] none, .put 2 "a" [1] [20] none, .commit 1 (.ok ()),
    .wake 2 none, .commit 2 (.ok ())]

theorem waited_write_loses_update :
    (runs step (new MVStore.new) waitedCalls).trace.writers "a" [1] = [(2, 2), (1, 1)] ∧
    ((runs step (new MVStore.new) waitedCalls).sys.transactions.lookup 1).map
      Transaction.snapshotVersion = some 0 ∧
    ((runs step (new MVStore.new) waitedCalls).sys.transactions.lookup 2).map
      Transaction.snapshotVersion = some 0 := by
  decide +kernel

end TracedTx

end H2Database.Mvstore
