import H2Database.Mvstore.Tx.BatchCommit

/-!
# Marks and committed records under group commit

`Batched` is kept by every interleaving of transactions, of their commits and of the leaders that drain
the queue.  A mark stands in the undo log of its transaction as long as that is open; what is committed
in a map was there before or belongs to an applied record; and a transaction ends as the answer to its
commit says.
-/

namespace H2Database.Mvstore

open Reasoning MVStore VersionedValue TransactionStore List AList Option

/-! ## Marks -/

namespace TxSystem

variable {sys sys' : TxSystem} {call : Call} {e : Option Event}

/-- A mark belongs to a transaction that was begun, and an open transaction has it in its undo log. -/
structure Marks (sys : TxSystem) : Prop where
  known : ∀ n k u, (sys.store.mvstore.versioned n k).uncommitted = some u →
    u.txId < sys.store.nextTxId
  owned : ∀ n k u t, (sys.store.mvstore.versioned n k).uncommitted = some u →
    sys.transactions.lookup u.txId = some t →
      t.status ≠ .rolledBack ∧ (t.status = .opened → ⟨n, k⟩ ∈ t.undoLog)

variable {tx : Nat} {t : Transaction}

theorem Marks.after (h : sys.Marks) {ts : TransactionStore} (hnext : ts.nextTxId = sys.store.nextTxId)
    (hmarks : ∀ n k u, (ts.mvstore.versioned n k).uncommitted = some u →
      (sys.store.mvstore.versioned n k).uncommitted = some u ∧
        (u.txId = tx → t.status ≠ .rolledBack ∧ (t.status = .opened → ⟨n, k⟩ ∈ t.undoLog))) :
    (sys.after tx (t, ts)).Marks := by
  constructor
  · intro n k u hu
    show u.txId < ts.nextTxId
    rw [hnext]
    exact h.known n k u (hmarks n k u hu).1
  · intro n k u t' hu ht'
    obtain ⟨hold, hown⟩ := hmarks n k u hu
    rw [lookup_after] at ht'
    split_ifs at ht' with htx
    · cases ht'
      exact hown htx
    · exact h.owned n k u t' hold ht'

theorem lt_nextTxId (ho : sys.Orderly)
    (ht : sys.transactions.lookup tx = some t) : tx < sys.store.nextTxId := by
  by_contra hle
  rw [ho.fresh tx (Nat.le_of_not_lt hle)] at ht
  cases ht

theorem Marks.effect (h : sys.Marks) (ho : sys.Orderly) (hb : sys.Bound)
    (he : Effect sys call sys' e) : sys'.Marks := by
  cases he with
  | idle => exact h
  | began _ =>
    refine ⟨fun n k u hu => Nat.lt_succ_of_lt (h.known n k u hu), fun n k u t hu ht => ?_⟩
    have hne : u.txId ≠ sys.store.nextTxId := Nat.ne_of_lt (h.known n k u hu)
    rw [lookup_insert_ne hne] at ht
    exact h.owned n k u t hu ht
  | @quiet tx t ts waiting ht hq hw =>
    refine h.after hq.nextTxId fun n k u hu => ?_
    rw [versioned_congr hq.read] at hu
    refine ⟨hu, fun htx => ?_⟩
    rw [← htx] at ht
    exact h.owned n k u t hu ht
  | @marked tx t ts wc ht hopen htarget hreach hm hvisible =>
    have hfind := hb.reaches ht hm.edited hreach
    have hlt := lt_nextTxId ho ht
    constructor
    · intro n k u hu
      show u.txId < ts.nextTxId
      rw [hm.nextTxId]
      change (ts.mvstore.versioned n k).uncommitted = some u at hu
      rw [hm.versioned hfind] at hu
      split_ifs at hu
      · cases hu
        exact hlt
      · exact h.known n k u hu
    · intro n k u t' hu ht'
      change (ts.mvstore.versioned n k).uncommitted = some u at hu
      rw [hm.versioned hfind] at hu
      rw [lookup_after] at ht'
      split_ifs at hu with hnk
      · -- the new mark, which is the last entry of the undo log
        cases hu
        rw [if_pos rfl] at ht'
        cases ht'
        rw [hnk.1, hnk.2, hopen]
        exact ⟨by decide, fun _ => mem_append_right _ mem_cons_self⟩
      · split_ifs at ht' with htx
        · cases ht'
          rw [← htx] at ht
          have hold := h.owned n k u t hu ht
          exact ⟨hold.1, fun hs => mem_append_left _ (hold.2 hs)⟩
        · exact h.owned n k u t' hu ht'
  | @rolledBack tx t ts ht hopen hr =>
    refine h.after hr.nextTxId fun n k u hu => ?_
    rw [hr.versioned ho.versioned] at hu
    split_ifs at hu with hundone
    · cases hu
    · refine ⟨hu, fun htx => ?_⟩
      -- a mark of the transaction is in its undo log, so it would be gone
      rw [← htx] at ht
      refine absurd ⟨(h.owned n k u t hu ht).2 hopen, ?_⟩ hundone
      rw [activeTxId, hu, map_some, htx]
  | @closed tx t ht hopen hawake hundo =>
    exact h.after rfl fun n k u hu => ⟨hu, fun _ => ⟨by simp, by simp⟩⟩
  | @committed tx t mvstore ht hopen hawake hc =>
    refine h.after rfl fun n k u hu => ?_
    change (mvstore.versioned n k).uncommitted = some u at hu
    rw [hc.versioned ho.versioned] at hu
    split_ifs at hu with hcommitted
    · obtain ⟨u', hu', _⟩ := map_eq_some_iff.mp hcommitted.2
      rw [commitUncommitted, hu'] at hu
      cases hu
    · exact ⟨hu, fun _ => ⟨by simp, by simp⟩⟩

/-! ## What a call leaves alone -/

theorem lookup_step_ne (ho : sys.Orderly)
    (ht : sys.transactions.lookup tx = some t) (hne : call.transaction ≠ some tx) :
    (sys.step call).2.transactions.lookup tx = some t := by
  have hafter : ∀ {tx' : Nat} (p : Transaction × TransactionStore), call.transaction = some tx' →
      (sys.after tx' p).transactions.lookup tx = some t := by
    intro tx' p htx'
    rw [lookup_after, if_neg, ht]
    rintro rfl
    exact hne htx'
  cases call with
  | begin =>
    refine (lookup_insert_ne ?_).trans ht
    exact Nat.ne_of_lt (lt_nextTxId ho ht)
  | get tx' mapName key =>
    simp only [step]
    split
    · exact ht
    · exact hafter _ rfl
  | put tx' mapName key value remaining =>
    simp only [step]
    split
    · exact ht
    · exact hafter _ rfl
  | remove tx' mapName key remaining =>
    simp only [step]
    split
    · exact ht
    · exact hafter _ rfl
  | wake tx' remaining =>
    simp only [step]
    split
    · exact ht
    · split_ifs
      · exact hafter _ rfl
      · exact ht
  | timeOut tx' remaining =>
    simp only [step]
    split
    · exact ht
    · exact hafter _ rfl
  | commit tx' sync =>
    simp only [step]
    split
    · exact ht
    · exact hafter _ rfl
  | rollback tx' =>
    simp only [step]
    split
    · exact ht
    · exact hafter _ rfl

theorem Effect.ended (he : Effect sys call sys' e) (ho : sys.Orderly)
    (ht : sys.transactions.lookup tx = some t) (hended : t.status ≠ .opened) :
    ∃ t', sys'.transactions.lookup tx = some t' ∧ t'.status = t.status := by
  -- whoever has taken the step, if it is this transaction then its status is the old one
  have hafter : ∀ {tx' : Nat} {t₁ t₂ : Transaction} (ts : TransactionStore),
      sys.transactions.lookup tx' = some t₁ → (t₁.status = .opened ∨ t₂.status = t₁.status) →
        ∃ t', (sys.after tx' (t₂, ts)).transactions.lookup tx = some t' ∧ t'.status = t.status := by
    intro tx' t₁ t₂ ts ht₁ hstatus
    rw [lookup_after]
    split_ifs with htx
    · rw [← htx, ht] at ht₁
      cases ht₁
      exact ⟨t₂, rfl, hstatus.resolve_left hended⟩
    · exact ⟨t, ht, rfl⟩
  cases he with
  | idle => exact ⟨t, ht, rfl⟩
  | began _ =>
    refine ⟨t, (lookup_insert_ne ?_).trans ht, rfl⟩
    exact Nat.ne_of_lt (lt_nextTxId ho ht)
  | quiet waiting ht' hq hw => exact hafter _ ht' (.inr rfl)
  | marked ht' hopen htarget hreach hm hvisible => exact hafter _ ht' (.inl hopen)
  | rolledBack ht' hopen hr => exact hafter _ ht' (.inl hopen)
  | closed ht' hopen hawake hundo => exact hafter _ ht' (.inl hopen)
  | committed ht' hopen hawake hc => exact hafter _ ht' (.inl hopen)

structure Spares (s s' : MVStore Stored) : Prop where
  wal : s'.wal = s.wal
  version : s'.version = s.version
  nextCommitVersion : s.nextCommitVersion ≤ s'.nextCommitVersion
  history : ∀ n k, (s'.versioned n k).committedHistory = (s.versioned n k).committedHistory

theorem Effect.spares (he : Effect sys call sys' e) (ho : sys.Orderly) (hb : sys.Bound)
    (hcommit : ∀ tx version, e ≠ some (.committed tx version)) :
    Spares sys.store.mvstore sys'.store.mvstore := by
  have hrefl : ∀ s : MVStore Stored, Spares s s := fun _ => ⟨rfl, rfl, Nat.le_refl _, fun _ _ => rfl⟩
  cases he with
  | idle => exact hrefl _
  | began _ => exact hrefl _
  | quiet waiting ht hq hw =>
    refine ⟨hq.wal, hq.version, Nat.le_of_eq hq.nextCommitVersion.symm, fun n k => ?_⟩
    exact congrArg VersionedValue.committedHistory (versioned_of_read_eq (by rw [← hq.read]; rfl))
  | @marked tx t ts wc ht hopen htarget hreach hm hvisible =>
    refine ⟨hm.wal, hm.version, Nat.le_of_eq hm.nextCommitVersion.symm, fun n k => ?_⟩
    show (ts.mvstore.versioned n k).committedHistory = _
    rw [hm.versioned (hb.reaches ht hm.edited hreach)]
    split_ifs <;> rfl
  | @rolledBack tx t ts ht hopen hr =>
    refine ⟨hr.wal, hr.version, hr.nextCommitVersion, fun n k => ?_⟩
    show (ts.mvstore.versioned n k).committedHistory = _
    rw [hr.versioned ho.versioned]
    split_ifs <;> rfl
  | closed ht hopen hawake hundo => exact hrefl _
  | committed ht hopen hawake hc => exact absurd rfl (hcommit _ _)

theorem event_ne_committed (sys : TxSystem) (hcall : call.isCommit = false) (tx version : Nat) :
    sys.event call ≠ some (.committed tx version) := by
  have hnone : sys.commits call = none := by
    cases call with
    | commit tx sync => cases hcall
    | _ => rfl
  unfold event
  intro h
  split at h
  · cases h
  · obtain ⟨p, _, hp⟩ := map_eq_some_iff.mp h
    cases hp
  · rw [hnone] at h
    cases h
  · cases h

end TxSystem

/-! ## Committed records -/

/-- The record was there at the beginning, or an applied commit has its version. -/
def Accounted (base : MVStore Stored) (applied : List (WalRecord Stored)) (n : String) (k : Key)
    (r : VersionRecord) : Prop :=
  r ∈ (base.versioned n k).committedHistory ∨ ∃ w ∈ applied, w.commitVersion = r.commitVersion

theorem Accounted.mono {base : MVStore Stored} {applied more : List (WalRecord Stored)} {n : String}
    {k : Key} {r : VersionRecord} (h : Accounted base applied n k r) :
    Accounted base (applied ++ more) n k r := by
  rcases h with hbase | ⟨w, hw, hversion⟩
  · exact .inl hbase
  · exact .inr ⟨w, mem_append_left _ hw, hversion⟩

/-- A change that a commit may log: a removal, or a value without a mark whose records are accounted
for, the newest by the commit itself. -/
def Sound (base : MVStore Stored) (applied : List (WalRecord Stored)) (version : Nat)
    (c : WalChange Stored) : Prop :=
  ∀ stored, c.value = some stored → ∃ vv, stored = .versioned vv ∧ vv.uncommitted = none ∧
    ∀ r ∈ vv.committedHistory,
      Accounted base applied c.mapName c.key r ∨ r.commitVersion = version

structure Shown (base : MVStore Stored) (g : GroupCommit Stored) (s : MVStore Stored) : Prop where
  history : ∀ n k, ∀ r ∈ (s.versioned n k).committedHistory, Accounted base g.applied n k r
  queued : ∀ x ∈ g.queue.pending, ∀ c ∈ x.record.changes,
    Sound base g.applied x.record.commitVersion c

namespace Shown

variable {base s : MVStore Stored} {g : GroupCommit Stored} {persistent : Bool}
  {bc : Bincode (WalRecord Stored)}

theorem sound_commitChange (h : Shown base g s) {txId version : Nat} {log : UndoLogEntry}
    {c : WalChange Stored} (hc : c ∈ Transaction.commitChange txId version s log) :
    Sound base g.applied version c := by
  intro stored hstored
  unfold Transaction.commitChange at hc
  split at hc
  · rename_i vv hread
    split_ifs at hc with hown
    · -- the mark becomes the newest record
      rw [mem_singleton.mp hc] at hstored ⊢
      cases hstored
      obtain ⟨u, hu, _⟩ := map_eq_some_iff.mp hown
      refine ⟨_, rfl, by rw [commitUncommitted, hu], fun r hr => ?_⟩
      rw [commitUncommitted, hu] at hr
      rcases mem_cons.mp (mem_of_mem_take hr) with rfl | hr
      · exact .inr rfl
      · rw [← versioned_of_read hread] at hr
        exact .inl (h.history _ _ r hr)
    · cases hc
  · rw [mem_singleton.mp hc] at hstored
    cases hstored

variable {p : GroupCommit Stored × MVStore Stored}

theorem enqueued (h : Shown base g s) (hv : s.AllVersioned) {file : List UInt8} {txId : Nat} {t : Transaction}
    (he : GroupCommit.Enqueued bc g persistent file s txId t.preparation p) : Shown base p.1 p.2 := by
  have happlied := he.applied
  have hread := he.prepared.read
  constructor
  · rw [happlied, versioned_congr hread]
    exact h.history
  · rw [happlied]
    cases he with
    | refused e hs hpending hleader hoffset hfile =>
      intro x hx
      exact h.queued x (hpending ▸ hx)
    | @queued record wal s' hs hclean htx hversion hnext hchanges hfile =>
      intro x hx
      rcases mem_append.mp hx with hx | hx
      · exact h.queued x hx
      · rw [mem_singleton.mp hx]
        intro c hc
        have hv' : AllVersioned { s with nextCommitVersion := record.commitVersion } := hv
        have heq := hchanges
        rw [Transaction.preparation] at heq
        simp only [Transaction.prepare_eq hv'] at heq
        have hlist := Except.ok.inj heq
        rw [← hlist] at hc
        obtain ⟨log, _, hlog⟩ := mem_flatMap.mp hc
        exact h.sound_commitChange hlog

theorem read_applyAll (s : MVStore Stored) (pending : List (PendingCommit Stored)) (n : String)
    (k : Key) :
    (GroupCommit.applyAll s pending).read n k =
      (lastChange n k ((pending.map PendingCommit.record).flatMap WalRecord.changes)).getD
        (s.read n k) := by
  rw [GroupCommit.applyAll_fields, ← read_applyWalChanges]
  rfl

theorem applyAll_cases (h : Shown base g s) (n : String) (k : Key) :
    (GroupCommit.applyAll s g.queue.pending).read n k = s.read n k ∨
      ∃ x ∈ g.queue.pending, Sound base g.applied x.record.commitVersion
        ⟨n, k, (GroupCommit.applyAll s g.queue.pending).read n k⟩ := by
  rw [read_applyAll]
  cases hlast : lastChange n k ((g.queue.pending.map PendingCommit.record).flatMap WalRecord.changes) with
  | none => exact .inl rfl
  | some value =>
    obtain ⟨record, hrecord, hc⟩ := mem_flatMap.mp (exists_of_lastChange hlast)
    obtain ⟨x, hx, rfl⟩ := mem_map.mp hrecord
    exact .inr ⟨x, hx, h.queued x hx _ hc⟩

theorem edited_applyAll (s : MVStore Stored) (pending : List (PendingCommit Stored)) :
    Edited s (GroupCommit.applyAll s pending) := by
  rw [GroupCommit.applyAll_eq]
  refine Edited.foldl (fun s record => ?_) _ s
  have hlogged : Edited s { s with wal := s.wal ++ [record] } := .frame rfl rfl rfl rfl
  refine (hlogged.trans (Edited.foldl Edited.applyWalChange record.changes _)).trans ?_
  exact .frame rfl rfl rfl rfl

structure Drains (s s' : MVStore Stored) : Prop where
  edited : Edited s s'
  versioned : s'.AllVersioned
  marks : ∀ n k u, (s'.versioned n k).uncommitted = some u → (s.versioned n k).uncommitted = some u

variable {front rest : List UInt8}

theorem drains (h : Shown base g s) (hv : s.AllVersioned) {leader : Nat}
    (hd : GroupCommit.Drained g persistent front rest s leader p) : Drains s p.2 := by
  have hrefl : Drains s s := ⟨Edited.refl s, hv, fun _ _ _ hu => hu⟩
  cases hd with
  | idle hleads => exact hrefl
  | failed message hleads hfile => exact hrefl
  | applied hleads hitems hdurable =>
    refine ⟨edited_applyAll s _, fun n k stored hst => ?_, fun n k u hu => ?_⟩
    · rcases h.applyAll_cases n k with hsame | ⟨x, hx, hsound⟩
      · exact hv n k stored (hsame ▸ hst)
      · obtain ⟨vv, rfl, _⟩ := hsound stored hst
        exact ⟨vv, rfl⟩
    · rcases h.applyAll_cases n k with hsame | ⟨x, hx, hsound⟩
      · rw [versioned_of_read_eq hsame] at hu
        exact hu
      · -- a change of the batch leaves no mark
        cases hread : (GroupCommit.applyAll s g.queue.pending).read n k with
        | none =>
          rw [versioned_of_read_none hread] at hu
          cases hu
        | some stored =>
          obtain ⟨vv, rfl, hclean, _⟩ := hsound stored hread
          rw [versioned_of_read hread, hclean] at hu
          cases hu

theorem drained (h : Shown base g s) {leader : Nat}
    (hd : GroupCommit.Drained g persistent front rest s leader p) : Shown base p.1 p.2 := by
  cases hd with
  | idle hleads => exact h
  | failed message hleads hfile =>
    refine ⟨?_, fun _ hx => absurd hx not_mem_nil⟩
    rw [GroupCommit.finish_unapplied rfl]
    exact h.history
  | applied hleads hitems hdurable =>
    refine ⟨fun n k r hr => ?_, fun _ hx => absurd hx not_mem_nil⟩
    rw [GroupCommit.finish_applied rfl hitems leader]
    rcases h.applyAll_cases n k with hsame | ⟨x, hx, hsound⟩
    · rw [versioned_of_read_eq hsame] at hr
      exact (h.history n k r hr).mono
    · cases hread : (GroupCommit.applyAll s g.queue.pending).read n k with
      | none =>
        rw [versioned_of_read_none hread] at hr
        cases hr
      | some stored =>
        obtain ⟨vv, rfl, _, hrecords⟩ := hsound stored hread
        rw [versioned_of_read hread] at hr
        rcases hrecords r hr with hold | hnew
        · exact hold.mono
        · exact .inr ⟨x.record, mem_append_right _ (mem_map_of_mem hx), hnew.symm⟩

theorem spared (h : Shown base g s) {s' : MVStore Stored} (hs : TxSystem.Spares s s') :
    Shown base g s' := by
  refine ⟨fun n k r hr => ?_, h.queued⟩
  rw [hs.history] at hr
  exact h.history n k r hr

end Shown

def CommitFailure.ending : Except CommitFailure Unit → TransactionStatus
  | .ok () => .committed
  | .error failure => if failure.durable then .committed else .rolledBack

namespace BatchSystem

variable {bc : Bincode (WalRecord Stored)} {base : MVStore Stored} {persistent : Bool}

structure Batched (bc : Bincode (WalRecord Stored)) (base : MVStore Stored) (persistent : Bool)
    (b : BatchSystem) : Prop where
  grouped : CommitSystem.Grouped bc base persistent ⟨b.group, b.sys.store.mvstore⟩
  settled : b.group.Settled
  orderly : b.sys.Orderly
  bound : b.sys.Bound
  marks : b.sys.Marks
  shown : Shown base b.group b.sys.store.mvstore
  attempts : ∀ tx i, b.attempts.lookup tx = some i → ∃ t, b.sys.transactions.lookup tx = some t ∧
    t.waiting = none ∧ (t.status = .opened ∨
      ∃ r, b.group.result i = some r ∧ t.status = CommitFailure.ending r)
  recorded : ∀ x ∈ b.group.arrivals, b.attempts.lookup x.record.txId = some x.caller

theorem batched_new (bc : Bincode (WalRecord Stored)) (h : base.AtRest) (persistent sync : Bool) :
    Batched bc base persistent (new bc base persistent sync) where
  grouped := CommitSystem.grouped_new bc base persistent sync
  settled := GroupCommit.settled_new bc base persistent sync
  orderly := TxSystem.orderly_new h.versioned h.counter
  bound _ _ _ ht := by cases ht
  marks := by
    refine ⟨fun n k u hu => ?_, fun n k u t hu ht => by cases ht⟩
    change (base.versioned n k).uncommitted = some u at hu
    rw [h.unmarked] at hu
    cases hu
  shown := ⟨fun n k r hr => Or.inl hr, fun x hx => by cases hx⟩
  attempts _ _ h := by cases h
  recorded _ h := by cases h

variable {b : BatchSystem} {t : Transaction}

theorem inCommit_eq_some {tx i : Nat} (h : b.inCommit tx = some (t, i)) :
    b.sys.transactions.lookup tx = some t ∧ b.attempts.lookup tx = some i ∧ t.status = .opened := by
  unfold inCommit at h
  split at h
  · rename_i t' i' ht hi
    split_ifs at h with hopen
    cases h
    exact ⟨ht, hi, hopen⟩
  · cases h

theorem inCommit_of_opened {tx i : Nat} (ht : b.sys.transactions.lookup tx = some t)
    (hi : b.attempts.lookup tx = some i) (hopen : t.status = .opened) : b.inCommit tx = some (t, i) := by
  rw [inCommit, ht, hi]
  exact if_pos hopen

section

variable (h : Batched bc base persistent b)

include h

theorem Batched.moved {sys : TxSystem}
    (hspares : TxSystem.Spares b.sys.store.mvstore sys.store.mvstore) (ho : sys.Orderly) (hb : sys.Bound)
    (hm : sys.Marks)
    (hattempts : ∀ tx i t, b.attempts.lookup tx = some i → b.sys.transactions.lookup tx = some t →
      ∃ t', sys.transactions.lookup tx = some t' ∧ t'.waiting = none ∧ (t'.status = t.status ∨
        ∃ r, b.group.result i = some r ∧ t'.status = CommitFailure.ending r)) :
    Batched bc base persistent { b with sys } where
  grouped := h.grouped.congr hspares.wal hspares.version hspares.nextCommitVersion
  settled := h.settled
  orderly := ho
  bound := hb
  marks := hm
  shown := h.shown.spared hspares
  attempts tx i hi := by
    obtain ⟨t, ht, _, hstatus⟩ := h.attempts tx i hi
    obtain ⟨t', ht', hawake, hnew⟩ := hattempts tx i t hi ht
    refine ⟨t', ht', hawake, ?_⟩
    rcases hnew with hsame | hended
    · rw [hsame]
      exact hstatus
    · exact .inr hended
  recorded := h.recorded

theorem Batched.call {c : Call} (hc : b.allows c = true) :
    Batched bc base persistent { b with sys := (b.sys.step c).2 } := by
  rw [allows, Bool.and_eq_true, Bool.not_eq_true'] at hc
  obtain ⟨hcommit, hfree⟩ := hc
  have he := h.orderly.step_effect c
  have ho := h.orderly.effect he
  refine h.moved (he.spares h.orderly h.bound (TxSystem.event_ne_committed b.sys hcommit)) ho
    (h.bound.effect he) (h.marks.effect h.orderly h.bound he) fun tx i t hi ht => ?_
  by_cases hopen : t.status = .opened
  · -- it is in `commit_with`, so the call is somebody else's
    have hne : c.transaction ≠ some tx := by
      intro htx
      rw [htx, all_some, inCommit_of_opened ht hi hopen] at hfree
      cases hfree
    obtain ⟨t', ht', hawake, _⟩ := h.attempts tx i hi
    rw [ht] at ht'
    cases ht'
    exact ⟨t, TxSystem.lookup_step_ne h.orderly ht hne, hawake, Or.inl rfl⟩
  · obtain ⟨t', ht', hstatus⟩ := he.ended h.orderly ht hopen
    refine ⟨t', ht', ?_, Or.inl hstatus⟩
    -- only open transactions sleep
    cases hw : t'.waiting with
    | none => rfl
    | some w => exact absurd (hstatus.symm.trans (ho.proper.sleeper tx t' w ht' hw)) hopen

section

variable (hbase : base.version ≤ base.nextCommitVersion)

include hbase

theorem Batched.restored
    {group : GroupCommit Stored} {mvstore : MVStore Stored} {attempts : AList fun _ : Nat => Nat}
    (hgrouped : CommitSystem.Grouped bc base persistent ⟨group, mvstore⟩) (hsettled : group.Settled)
    (hdrains : Shown.Drains b.sys.store.mvstore mvstore) (hshown : Shown base group mvstore)
    (hattempts : ∀ tx i, attempts.lookup tx = some i → b.attempts.lookup tx = some i ∨
      ∃ t, b.sys.transactions.lookup tx = some t ∧ t.waiting = none ∧ t.status = .opened)
    (hresult : ∀ i r, b.group.result i = some r → group.result i = some r)
    (hrecorded : ∀ x ∈ group.arrivals, attempts.lookup x.record.txId = some x.caller) :
    Batched bc base persistent ⟨b.sys.withStore mvstore, group, attempts⟩ where
  grouped := hgrouped
  settled := hsettled
  orderly := h.orderly.withStore hdrains.versioned (hgrouped.counter hbase)
  bound tx t w ht hw := hdrains.edited.find (h.bound tx t w ht hw)
  marks := by
    refine ⟨fun n k u hu => ?_, fun n k u t hu ht => ?_⟩
    · exact h.marks.known n k u (hdrains.marks n k u hu)
    · exact h.marks.owned n k u t (hdrains.marks n k u hu) ht
  shown := hshown
  attempts tx i hi := by
    rcases hattempts tx i hi with hold | ⟨t, ht, hawake, hopen⟩
    · obtain ⟨t, ht, hawake, hstatus⟩ := h.attempts tx i hold
      refine ⟨t, ht, hawake, hstatus.imp_right ?_⟩
      rintro ⟨r, hr, hended⟩
      exact ⟨r, hresult i r hr, hended⟩
    · exact ⟨t, ht, hawake, Or.inl hopen⟩
  recorded := hrecorded

theorem Batched.drain (leader : Nat) (io : DrainIo) :
    Batched bc base persistent (b.step bc (.drain leader io)) := by
  obtain ⟨unapplied, torn, hfiled⟩ := h.grouped.filed
  have hd := hfiled.drain h.grouped.led leader io
  refine h.restored hbase (h.grouped.step (.drain leader io)) (h.settled.drained hd)
    (h.shown.drains h.orderly.versioned hd) (h.shown.drained hd) (fun tx i hi => Or.inl hi)
    (fun i r hr => hd.result h.grouped.tracked hr) fun x hx => ?_
  refine h.recorded x ?_
  rw [← hd.arrivals]
  exact hx

theorem Batched.enqueue {tx : Nat} (ht : b.sys.transactions.lookup tx = some t) (hawake : t.waiting = none)
    (hopen : t.status = .opened) (hfirst : b.attempts.lookup tx = none) (timestampNanos : Int)
    (io : EnqueueIo) :
    let p := b.group.enqueue bc b.sys.store.mvstore t.txId t.preparation timestampNanos io
    Batched bc base persistent
      ⟨b.sys.withStore p.2, p.1, b.attempts.insert tx b.group.calls.length⟩ := by
  intro p
  have hid := h.orderly.proper.txId tx t ht
  obtain ⟨unapplied, torn, hfiled⟩ := h.grouped.filed
  have he := GroupCommit.enqueue_enqueued bc hfiled.file b.sys.store.mvstore t.txId t.preparation
    timestampNanos io
  have hprepared := he.prepared
  have hversioned := versioned_congr hprepared.read
  have hdrains : Shown.Drains b.sys.store.mvstore p.2 := by
    refine ⟨hprepared.edited, h.orderly.versioned.congr hprepared.read, fun n k u hu => ?_⟩
    rw [hversioned] at hu
    exact hu
  refine h.restored hbase
    (h.grouped.step (.enqueue t.txId t.preparation timestampNanos io)) (h.settled.enqueued he) hdrains
    (h.shown.enqueued h.orderly.versioned he) (fun tx' i hi => ?_) (fun i r hr => he.result hr)
    fun x hx => ?_
  · by_cases htx : tx' = tx
    · rw [htx]
      exact .inr ⟨t, ht, hawake, hopen⟩
    · rw [lookup_insert_ne htx] at hi
      exact .inl hi
  · rcases he.arrivals x hx with hold | ⟨htx, hcaller⟩
    · -- the transactions of the other records have made their calls before
      have hother := h.recorded x hold
      rw [lookup_insert_ne, hother]
      intro heq
      rw [heq, hfirst] at hother
      cases hother
    · rw [htx, hcaller, hid, lookup_insert]

end

theorem Batched.closed {tx : Nat} (ht : b.sys.transactions.lookup tx = some t) (hawake : t.waiting = none)
    (hresult : ∀ i, b.attempts.lookup tx = some i →
      ∃ r, b.group.result i = some r ∧ .committed = CommitFailure.ending r) :
    Batched bc base persistent { b with sys := b.sys.after tx (t.closed b.sys.store) } := by
  have hid := h.orderly.proper.txId tx t ht
  refine h.moved ⟨rfl, rfl, Nat.le_refl _, fun _ _ => rfl⟩ ?_ ?_ ?_ fun tx' i t' hi ht' => ?_
  · refine h.orderly.ended ht rfl (by simp) hawake h.orderly.versioned h.orderly.counter rfl ?_
    rw [hid]
    rfl
  · intro tx' t' w ht' hw
    rw [TxSystem.lookup_after] at ht'
    split_ifs at ht'
    · cases ht'
      cases hawake.symm.trans hw
    · exact h.bound tx' t' w ht' hw
  · exact h.marks.after rfl fun n k u hu => ⟨hu, fun _ => ⟨by simp, by simp⟩⟩
  · rw [TxSystem.lookup_after]
    split_ifs with htx
    · rw [htx] at hi
      exact ⟨_, rfl, hawake, Or.inr (hresult i hi)⟩
    · obtain ⟨t₀, ht₀, hawake₀, _⟩ := h.attempts tx' i hi
      rw [ht'] at ht₀
      cases ht₀
      exact ⟨t', ht', hawake₀, Or.inl rfl⟩

theorem Batched.rolledBack {tx : Nat}
    (ht : b.sys.transactions.lookup tx = some t) (hopen : t.status = .opened)
    (hresult : ∀ i, b.attempts.lookup tx = some i →
      ∃ r, b.group.result i = some r ∧ .rolledBack = CommitFailure.ending r) :
    Batched bc base persistent { b with sys := b.sys.after tx (t.rollback b.sys.store).2 } := by
  have hid := h.orderly.proper.txId tx t ht
  obtain ⟨ts, hrollback, hr⟩ := Transaction.rollback_of_opened hopen b.sys.store h.orderly.versioned
  have he : TxSystem.Effect b.sys (.rollback tx) (b.sys.after tx (t.undone, ts)) none :=
    .rolledBack ht hopen (hid ▸ hr)
  rw [hrollback]
  refine h.moved (he.spares h.orderly h.bound (by simp)) (h.orderly.effect he) (h.bound.effect he)
    (h.marks.effect h.orderly h.bound he) fun tx' i t' hi ht' => ?_
  rw [TxSystem.lookup_after]
  split_ifs with htx
  · rw [htx] at hi
    exact ⟨_, rfl, rfl, Or.inr (hresult i hi)⟩
  · obtain ⟨t₀, ht₀, hawake₀, _⟩ := h.attempts tx' i hi
    rw [ht'] at ht₀
    cases ht₀
    exact ⟨t', ht', hawake₀, Or.inl rfl⟩

theorem Batched.concluded {tx i : Nat} (hin : b.inCommit tx = some (t, i))
    {r : Except CommitFailure Unit} (hr : b.group.result i = some r) :
    Batched bc base persistent { b with sys := conclude b.sys tx t r } := by
  obtain ⟨ht, hi, hopen⟩ := inCommit_eq_some hin
  obtain ⟨t', ht', hawake, _⟩ := h.attempts tx i hi
  rw [ht] at ht'
  cases ht'
  have hresult : ∀ j, b.attempts.lookup tx = some j →
      ∃ r', b.group.result j = some r' ∧ CommitFailure.ending r = CommitFailure.ending r' := by
    intro j hj
    rw [hi] at hj
    cases hj
    exact ⟨r, hr, rfl⟩
  cases r with
  | ok _ => exact h.closed ht hawake hresult
  | error failure =>
    simp only [conclude]
    rw [CommitFailure.ending] at hresult
    split_ifs at hresult ⊢
    · exact h.closed ht hawake hresult
    · exact h.rolledBack ht hopen hresult

theorem Batched.step (hbase : base.version ≤ base.nextCommitVersion) (a : BatchAction) :
    Batched bc base persistent (b.step bc a) := by
  cases a with
  | call c =>
    simp only [BatchSystem.step]
    split_ifs with hc
    · exact h.call hc
    · exact h
  | commit tx timestampNanos io =>
    simp only [BatchSystem.step]
    split
    · rename_i t hawake hin
      obtain ⟨ht, hawake⟩ := TxSystem.awake_eq_some hawake
      split
      · exact h
      · exact h
      · rename_i hopen
        split_ifs
        · -- a transaction that has written nothing makes no call of `commit_with`
          refine h.closed ht hawake fun i hi => ?_
          rw [inCommit_of_opened ht hi hopen] at hin
          cases hin
        · refine h.enqueue hbase ht hawake hopen ?_ timestampNanos io
          cases hi : b.attempts.lookup tx with
          | none => rfl
          | some i =>
            rw [inCommit_of_opened ht hi hopen] at hin
            cases hin
    · exact h
  | drain leader io => exact h.drain hbase leader io
  | leave tx =>
    simp only [BatchSystem.step]
    split
    · exact h
    · rename_i t i hin
      split
      · exact h
      · rename_i r hr
        exact h.concluded hin hr

theorem Batched.runs (hbase : base.version ≤ base.nextCommitVersion) (actions : List BatchAction) :
    Batched bc base persistent (Reasoning.runs (BatchSystem.step bc) b actions) :=
  runs_invariant (fun _ a h => h.step hbase a) h actions

end

end BatchSystem

end H2Database.Mvstore
