import H2Database.Mvstore.Tx.BatchInvariant

/-!
# A failed commit is a rollback

What a commit leaves behind that does not become durable, for every interleaving of transactions, of
their commits and of the leaders that drain the queue: nothing committed in the maps, no mark, and
nothing in the log unless that could not be cut back, when the queue is poisoned.
-/

namespace H2Database.Mvstore

open Reasoning MVStore VersionedValue TransactionStore List

namespace BatchSystem

variable {bc : Bincode (WalRecord Stored)} {base : MVStore Stored} {persistent : Bool}

/-- The records of the commits that are durable, and of those that wait. -/
def standing (b : BatchSystem) : List (WalRecord Stored) :=
  ((b.group.drained.filter fun p => CommitOutcome.durable p.2).map fun p => p.1.record) ++
    b.group.queue.pending.map PendingCommit.record

structure Undone (bc : Bincode (WalRecord Stored)) (base : MVStore Stored) (persistent : Bool)
    (b : BatchSystem) : Prop where
  /-- the log holds the records that stand, after those of the beginning, and nothing else -/
  log : b.group.queue.poisoned = none →
    b.group.wal.file = WalManager.onDisk persistent (WalManager.image bc (base.wal ++ b.standing))
  /-- a record that failed is not one of them -/
  fails : ∀ p ∈ b.group.drained, CommitOutcome.durable p.2 = false →
    ∀ w ∈ b.standing, w.commitVersion ≠ p.1.record.commitVersion
  /-- what is committed in a map was there at the beginning or is durable -/
  history : ∀ n k, ∀ r ∈ (b.sys.store.mvstore.versioned n k).committedHistory,
    r ∈ (base.versioned n k).committedHistory ∨
      ∃ p ∈ b.group.drained, CommitOutcome.durable p.2 = true ∧
        p.1.record.commitVersion = r.commitVersion
  /-- and so no map shows a record that failed -/
  maps : ∀ p ∈ b.group.drained, CommitOutcome.durable p.2 = false → ∀ n k,
    ∀ r ∈ (b.sys.store.mvstore.versioned n k).committedHistory,
      r.commitVersion ≠ p.1.record.commitVersion
  /-- the transaction of a record that failed is told so -/
  told : ∀ p ∈ b.group.drained, CommitOutcome.durable p.2 = false →
    b.attempts.lookup p.1.record.txId = some p.1.caller ∧
      ∃ error, b.group.result p.1.caller = some (.error ⟨error, false⟩)
  /-- a transaction whose commit has failed, with a record or without, is rolled back when it leaves
  `commit`, or was so before, and has no mark anywhere -/
  transactions : ∀ tx i error, b.attempts.lookup tx = some i →
    b.group.result i = some (.error ⟨error, false⟩) →
      ∃ t, (b.step bc (.leave tx)).sys.transactions.lookup tx = some t ∧ t.status = .rolledBack ∧
        ∀ n k u, ((b.step bc (.leave tx)).sys.store.mvstore.versioned n k).uncommitted = some u →
          u.txId ≠ tx
  /-- opening the log again gives the records that stand -/
  reopen : b.group.queue.poisoned = none → persistent = true →
    (∀ w ∈ base.wal ++ b.standing, ∃ payload, WalManager.Loggable bc w payload) →
      (b.group.wal.readAllRecords bc).1 = base.wal ++ b.standing

variable {b : BatchSystem}

section

variable (h : Batched bc base persistent b)

include h

theorem Batched.log (hclean : b.group.queue.poisoned = none) :
    b.group.wal.file =
      WalManager.onDisk persistent (WalManager.image bc (base.wal ++ b.standing)) := by
  obtain ⟨unapplied, torn, hfiled⟩ := h.grouped.filed
  rw [standing, ← h.settled.applied_eq, ← append_assoc, ← h.grouped.ordered.wal,
    ← hfiled.queued (.inr hclean)]
  have hfile := hfiled.file
  rw [hfiled.clean hclean, append_nil] at hfile
  exact hfile

variable {p : PendingCommit Stored × CommitOutcome}

theorem Batched.fails (hp : p ∈ b.group.drained)
    (hfailed : CommitOutcome.durable p.2 = false) {w : WalRecord Stored} (hw : w ∈ b.standing) :
    w.commitVersion ≠ p.1.record.commitVersion := by
  have hasc := h.grouped.ordered.ascending
  have hinj := inj_on_of_nodup_map (hasc.imp fun hlt => Nat.ne_of_lt hlt)
  have hp₁ : p.1 ∈ b.group.arrivals := mem_append_left _ (mem_map_of_mem hp)
  have honce := h.grouped.tracked.once
  intro heq
  rcases mem_append.mp hw with hw | hw
  · obtain ⟨q, hq, rfl⟩ := mem_map.mp hw
    obtain ⟨hq, hdurable⟩ := mem_filter.mp hq
    have hq₁ : q.1 ∈ b.group.arrivals := mem_append_left _ (mem_map_of_mem hq)
    -- one record, one outcome
    have hsame : q.1 = p.1 := hinj hq₁ hp₁ heq
    have hcell := h.grouped.tracked.told q hq
    rw [hsame, h.grouped.tracked.told p hp] at hcell
    rw [← Option.some.inj hcell, hfailed] at hdurable
    cases hdurable
  · obtain ⟨x, hx, rfl⟩ := mem_map.mp hw
    have hx₁ : x ∈ b.group.arrivals := mem_append_right _ hx
    have hsame : x = p.1 := hinj hx₁ hp₁ heq
    have hcell := h.grouped.tracked.untold x hx
    rw [hsame, h.grouped.tracked.told p hp] at hcell
    cases hcell

theorem Batched.history {n : String} {k : Key}
    {r : VersionRecord} (hr : r ∈ (b.sys.store.mvstore.versioned n k).committedHistory) :
    r ∈ (base.versioned n k).committedHistory ∨
      ∃ p ∈ b.group.drained, CommitOutcome.durable p.2 = true ∧
        p.1.record.commitVersion = r.commitVersion := by
  refine (h.shown.history n k r hr).imp_right ?_
  rintro ⟨w, hw, hversion⟩
  rw [h.settled.applied_eq] at hw
  obtain ⟨p, hp, rfl⟩ := mem_map.mp hw
  obtain ⟨hp, hdurable⟩ := mem_filter.mp hp
  exact ⟨p, hp, hdurable, hversion⟩

theorem Batched.told (hp : p ∈ b.group.drained) (hfailed : CommitOutcome.durable p.2 = false) :
    b.attempts.lookup p.1.record.txId = some p.1.caller ∧
      ∃ error, b.group.result p.1.caller = some (.error ⟨error, false⟩) := by
  refine ⟨h.recorded p.1 (mem_append_left _ (mem_map_of_mem hp)), ?_⟩
  rcases hout : p.2 with ⟨message, durable⟩ | _
  · rw [hout] at hfailed
    cases hfailed
    exact ⟨_, GroupCommit.result_of_drained h.grouped.led h.grouped.tracked hp hout⟩
  · rw [hout] at hfailed
    cases hfailed

theorem Batched.transactions (hbase : base.version ≤ base.nextCommitVersion) {tx i : Nat} {error : H2Error}
    (hi : b.attempts.lookup tx = some i) (hr : b.group.result i = some (.error ⟨error, false⟩)) :
    ∃ t, (b.step bc (.leave tx)).sys.transactions.lookup tx = some t ∧ t.status = .rolledBack ∧
      ∀ n k u, ((b.step bc (.leave tx)).sys.store.mvstore.versioned n k).uncommitted = some u →
        u.txId ≠ tx := by
  suffices hleft : ∃ t, (b.step bc (.leave tx)).sys.transactions.lookup tx = some t ∧
      t.status = .rolledBack by
    obtain ⟨t, ht, hstatus⟩ := hleft
    refine ⟨t, ht, hstatus, fun n k u hu htx => ?_⟩
    refine ((h.step hbase (.leave tx)).marks.owned n k u t hu ?_).1 hstatus
    rw [htx]
    exact ht
  obtain ⟨t, ht, _, hstatus⟩ := h.attempts tx i hi
  by_cases hopen : t.status = .opened
  · -- it rolls itself back
    obtain ⟨ts, hrollback, _⟩ :=
      Transaction.rollback_of_opened hopen b.sys.store h.orderly.versioned
    refine ⟨t.undone, ?_, rfl⟩
    simp only [BatchSystem.step, inCommit_of_opened ht hi hopen, hr, conclude, Bool.false_eq_true,
      if_false, hrollback]
    rw [TxSystem.lookup_after, if_pos rfl]
  · -- it has left before
    obtain ⟨r, hr', hended⟩ := hstatus.resolve_left hopen
    rw [hr] at hr'
    cases hr'
    refine ⟨t, ?_, hended⟩
    have hout : b.inCommit tx = none := by
      rw [inCommit, ht, hi]
      exact if_neg hopen
    simp only [BatchSystem.step, hout]
    exact ht

theorem Batched.undone (hbase : base.AtRest) :
    Undone bc base persistent b where
  log := h.log
  fails _ hp hfailed _ hw := h.fails hp hfailed hw
  history _ _ _ hr := h.history hr
  maps p hp hfailed n k r hr := by
    have hp₁ : p.1 ∈ b.group.arrivals := mem_append_left _ (mem_map_of_mem hp)
    rcases h.history hr with hold | ⟨q, hq, hdurable, hversion⟩
    · -- the versions of the beginning were drawn before
      have hfresh := h.grouped.ordered.fresh p.1 hp₁
      have hle := (hbase.bounded n k r hold).trans hbase.counter
      omega
    · rw [← hversion]
      refine h.fails hp hfailed (mem_append_left _ ?_)
      exact mem_map.mpr ⟨q, mem_filter.mpr ⟨hq, hdurable⟩, rfl⟩
  told _ hp hfailed := h.told hp hfailed
  transactions _ _ _ hi hr := h.transactions hbase.counter hi hr
  reopen hclean hpersistent hlog := by
    have hfile := h.log hclean
    rw [hpersistent, WalManager.onDisk, if_pos rfl] at hfile
    rcases hwal : b.group.wal with ⟨file, sync⟩
    rw [hwal] at hfile
    rw [show file = _ from hfile, WalManager.readAllRecords_image bc hlog]

theorem Batched.poisoned_step (hpoisoned : b.group.queue.poisoned ≠ none) (a : BatchAction) :
    (b.step bc a).group.queue.poisoned ≠ none := by
  obtain ⟨unapplied, torn, hfiled⟩ := h.grouped.filed
  cases a with
  | call c =>
    simp only [BatchSystem.step]
    split_ifs <;> exact hpoisoned
  | commit tx timestampNanos io =>
    simp only [BatchSystem.step]
    split
    · rename_i t _ _
      split
      · exact hpoisoned
      · exact hpoisoned
      · split_ifs
        · exact hpoisoned
        · exact (GroupCommit.enqueue_enqueued bc hfiled.file b.sys.store.mvstore t.txId t.preparation
            timestampNanos io).poisoned hpoisoned
    · exact hpoisoned
  | drain leader io => exact (hfiled.drain h.grouped.led leader io).poisoned hpoisoned
  | leave tx =>
    simp only [BatchSystem.step]
    split
    · exact hpoisoned
    · split <;> exact hpoisoned

theorem Batched.poisoned_runs
    (hbase : base.version ≤ base.nextCommitVersion) (hpoisoned : b.group.queue.poisoned ≠ none)
    (actions : List BatchAction) :
    (Reasoning.runs (BatchSystem.step bc) b actions).group.queue.poisoned ≠ none := by
  induction actions generalizing b with
  | nil => exact hpoisoned
  | cons a actions ih => exact ih (h.step hbase a) (h.poisoned_step hpoisoned a)

end

/-- Whatever the transactions do, whatever the operating system answers and whoever leads: nothing is left
of a commit that has failed, and a queue whose log could not be cut back accepts no commit any more. -/
theorem failed_commits_are_undone (bc : Bincode (WalRecord Stored)) (base : MVStore Stored)
    (hbase : base.AtRest) (persistent sync : Bool) (actions more : List BatchAction) :
    let b := runs (step bc) (new bc base persistent sync) actions
    Undone bc base persistent b ∧
    (b.group.queue.poisoned ≠ none →
      let later := runs (step bc) b more
      ∃ error, ∀ txId p timestampNanos io,
        later.group.enqueue bc later.sys.store.mvstore txId p timestampNanos io =
          (later.group.refuse (.storage error), later.sys.store.mvstore)) := by
  intro b
  have h : Batched bc base persistent b :=
    (batched_new bc hbase persistent sync).runs hbase.counter actions
  refine ⟨h.undone hbase, fun hpoisoned => ?_⟩
  have hlater := h.poisoned_runs hbase.counter hpoisoned more
  obtain ⟨error, herror⟩ := Option.ne_none_iff_exists'.mp hlater
  refine ⟨error, fun txId p timestampNanos io => ?_⟩
  rw [GroupCommit.enqueue, herror]

end BatchSystem

/-! ## A log that is cut back, and one that is not -/

def Stored.toBytes : Stored → List UInt8
  | .versioned vv => vv.toBytes
  | .raw bytes => bytes

def Stored.ofBytes (bytes : List UInt8) : Stored :=
  match VersionedValue.fromBytes bytes with
  | .ok vv => .versioned vv
  | .error _ => .raw bytes

def WalRecord.mapValues {V W : Type} (f : V → W) (r : WalRecord V) : WalRecord W :=
  { r with changes := r.changes.map fun c => ⟨c.mapName, c.key, c.value.map f⟩ }

def storedBincode : Bincode (WalRecord Stored) where
  serialize r := (Bincode.ofCoder walRecordCoder).serialize (r.mapValues Stored.toBytes)
  deserialize bytes := do
    let r ← (Bincode.ofCoder walRecordCoder).deserialize bytes
    return r.mapValues Stored.ofBytes

namespace BatchSystem

def failingActions (truncate : TruncateOutcome) : List BatchAction :=
  [.call .begin, .call (.put 1 "items" [1] [10] none), .commit 1 0 ⟨.ok (), none, .done⟩,
    .drain 0 ⟨.error (.io "disk full"), truncate, .ok (), fun _ => .ok ()⟩, .leave 1]

def failingRun (truncate : TruncateOutcome) : BatchSystem :=
  runs (step storedBincode) (new storedBincode MVStore.new true true) (failingActions truncate)

def failingRecord : WalRecord Stored :=
  { txId := 1, commitVersion := 1
    changes := [⟨"items", [1], some (.versioned ⟨none, [⟨some [10], 1⟩]⟩)⟩] }

/-- The log is cut back to the start of the batch. -/
theorem failed_commits_are_undone_sample :
    (MVStore.new : MVStore Stored).AtRest ∧ Undone storedBincode MVStore.new true (failingRun .done) ∧
    (failingRun .done).group.drained.map Prod.snd = [.error ("I/O error: disk full", false)] ∧
    (failingRun .done).group.wal.file = some [] :=
  ⟨atRest_new,
    (failed_commits_are_undone storedBincode MVStore.new atRest_new true true (failingActions .done)
      []).1,
    by decide +kernel, by decide +kernel⟩

set_option maxRecDepth 100000 in
theorem loggable_failingRecord : WalManager.Loggable storedBincode failingRecord
    (walRecordCoder.encode (failingRecord.mapValues Stored.toBytes)) where
  roundTrips := ⟨rfl, by decide +kernel⟩
  fits := by decide +kernel

set_option maxRecDepth 100000 in
theorem file_failingRun :
    (failingRun (.notCut (.io "disk full"))).group.wal =
      ⟨some (WalManager.image storedBincode [failingRecord]), true⟩ := by
  decide +kernel

/-- The log cannot be cut back.  The commit has failed and its transaction is rolled back, but the log is
left with the record: the next opening of the store commits it. -/
theorem uncut_log_recovers_failed_commit :
    let b := failingRun (.notCut (.io "disk full"))
    b.group.result 0 = some (.error ⟨.storage "I/O error: disk full", false⟩) ∧
    (b.sys.transactions.lookup 1).map Transaction.status = some .rolledBack ∧
    b.sys.store.mvstore.read "items" [1] = none ∧
    ∃ s, openAt b.sys.store.mvstore.file (b.group.wal.readAllRecords storedBincode).1 = .ok s ∧
      s.read "items" [1] = some (.versioned ⟨none, [⟨some [10], 1⟩]⟩) := by
  intro b
  refine ⟨by decide +kernel, by decide +kernel, by decide +kernel, ?_⟩
  have hlog : ∀ r ∈ [failingRecord], ∃ payload, WalManager.Loggable storedBincode r payload := by
    intro r hr
    rw [mem_singleton.mp hr]
    exact ⟨_, loggable_failingRecord⟩
  rw [show b.group.wal = _ from file_failingRun, WalManager.readAllRecords_image storedBincode hlog]
  exact ⟨_, rfl, by decide +kernel⟩

end BatchSystem

end H2Database.Mvstore
