import H2Database.Mvstore.CommitSteps

/-!
# One order of the commits

The calls of `commit_with` come into the queue in the order of their versions.  The log file holds the
records in this order, and so do the drains, which apply them to the maps; `version` is that of the last
record applied.  All this holds in every state that the critical sections reach, whatever the operating
system answers.
-/

namespace H2Database.Mvstore

open Reasoning MVStore
open List hiding isEmpty_iff

variable {V : Type} {bc : Bincode (WalRecord V)} {base s : MVStore V}

namespace GroupCommit

variable {g : GroupCommit V} {persistent : Bool} {file front rest : List UInt8} {txId leader : Nat}
  {prep : Preparation V} {p : GroupCommit V × MVStore V}

/-! ## Versions -/

def applied (g : GroupCommit V) : List (WalRecord V) :=
  (g.drains.filter Drain.applied).flatMap fun d => d.items.map fun p => p.1.record

theorem finish_applied {g' : GroupCommit V} (hdrains : g'.drains = g.drains)
    {items : List (PendingCommit V × CommitOutcome)} (hitems : items.map Prod.fst = g.queue.pending)
    (leader : Nat) :
    (g'.finish leader items true).applied = g.applied ++ g.queue.pending.map PendingCommit.record := by
  rw [← hitems, map_map]
  simp only [applied, finish, hdrains, filter_append, flatMap_append]
  simp

theorem finish_unapplied {g' : GroupCommit V} (hdrains : g'.drains = g.drains)
    (items : List (PendingCommit V × CommitOutcome)) (leader : Nat) :
    (g'.finish leader items false).applied = g.applied := by
  simp only [applied, finish, hdrains, filter_append, flatMap_append]
  simp

/-- The versions in the order of arrival, and what the store has of them. -/
structure Ordered (base : MVStore V) (g : GroupCommit V) (s : MVStore V) : Prop where
  ascending : (g.arrivals.map fun x => x.record.commitVersion).Pairwise (· < ·)
  fresh : ∀ x ∈ g.arrivals, base.nextCommitVersion < x.record.commitVersion
  bound : ∀ x ∈ g.arrivals, x.record.commitVersion ≤ s.nextCommitVersion
  drawn : base.nextCommitVersion ≤ s.nextCommitVersion
  wal : s.wal = base.wal ++ g.applied
  version : s.version = lastVersion base g.applied

theorem ordered_new (bc : Bincode (WalRecord V)) (base : MVStore V) (persistent sync : Bool) :
    Ordered base (new bc base persistent sync) base where
  ascending := List.Pairwise.nil
  fresh _ hx := absurd hx not_mem_nil
  bound _ hx := absurd hx not_mem_nil
  drawn := Nat.le_refl _
  wal := (append_nil _).symm
  version := rfl

theorem lastVersion_append {records more : List (WalRecord V)}
    (hversion : s.version = lastVersion base records) :
    lastVersion base (records ++ more) = lastVersion s more := by
  unfold lastVersion at *
  rw [getLast?_append]
  cases more.getLast? with
  | none => exact hversion.symm
  | some r => rfl

theorem le_lastVersion {records : List (WalRecord V)}
    (hasc : (records.map WalRecord.commitVersion).Pairwise (· < ·)) {r : WalRecord V}
    (hr : r ∈ records) (base : MVStore V) : r.commitVersion ≤ lastVersion base records := by
  rcases eq_nil_or_concat' records with rfl | ⟨front, last, rfl⟩
  · cases hr
  · have hlast : lastVersion base (front ++ [last]) = last.commitVersion := by
      simp [lastVersion]
    rw [hlast]
    rw [map_append, pairwise_append] at hasc
    rcases mem_append.mp hr with hr | hr
    · exact Nat.le_of_lt (hasc.2.2 _ (mem_map_of_mem hr) _ (by simp))
    · rw [mem_singleton.mp hr]

theorem Ordered.enqueued (h : Ordered base g s)
    (he : Enqueued bc g persistent file s txId prep p) : Ordered base p.1 p.2 := by
  cases he with
  | @refused queue wal s' e hs hpending hleader hoffset hfile =>
    have harrivals := refuse_arrivals hpending wal e
    refine ⟨?_, fun x hx => ?_, fun x hx => ?_, h.drawn.trans hs.nextCommitVersion,
      hs.wal.trans h.wal, hs.version.trans h.version⟩
    · rw [harrivals]
      exact h.ascending
    · exact h.fresh x (harrivals ▸ hx)
    · exact (h.bound x (harrivals ▸ hx)).trans hs.nextCommitVersion
  | @queued record wal s' hs hclean htx hversion hnext hchanges hfile =>
    have harrivals := queued_arrivals g record wal
    have hdrawn := h.drawn
    refine ⟨?_, fun x hx => ?_, fun x hx => ?_, h.drawn.trans hs.nextCommitVersion,
      hs.wal.trans h.wal, hs.version.trans h.version⟩
    · -- the version drawn is above all versions so far
      rw [harrivals, map_append, pairwise_append]
      refine ⟨h.ascending, pairwise_singleton _ _, fun v hv w hw => ?_⟩
      obtain ⟨x, hx, rfl⟩ := mem_map.mp hv
      have hle := h.bound x hx
      simp only [map_singleton, mem_singleton] at hw
      omega
    · rw [harrivals, mem_append, mem_singleton] at hx
      rcases hx with hx | rfl
      · exact h.fresh x hx
      · show base.nextCommitVersion < record.commitVersion
        omega
    · rw [harrivals, mem_append, mem_singleton] at hx
      show x.record.commitVersion ≤ s'.nextCommitVersion
      rcases hx with hx | rfl
      · have hle := h.bound x hx
        omega
      · exact Nat.le_of_eq (hversion.trans hnext.symm)

theorem Ordered.drained (h : Ordered base g s) (hd : Drained g persistent front rest s leader p) :
    Ordered base p.1 p.2 := by
  have harrivals := hd.arrivals
  -- a drain hands out no version
  have hnext : p.2.nextCommitVersion = s.nextCommitVersion := by
    cases hd with
    | idle hleads => rfl
    | applied hleads hitems hdurable => rw [applyAll_fields]
    | failed message hleads hfile => rfl
  have hstore : p.2.wal = base.wal ++ p.1.applied ∧ p.2.version = lastVersion base p.1.applied := by
    cases hd with
    | idle hleads => exact ⟨h.wal, h.version⟩
    | applied hleads hitems hdurable =>
      rw [applyAll_fields, finish_applied rfl hitems leader, ← append_assoc, ← h.wal,
        lastVersion_append h.version]
      exact ⟨rfl, rfl⟩
    | failed message hleads hfile =>
      rw [finish_unapplied rfl]
      exact ⟨h.wal, h.version⟩
  refine ⟨?_, ?_, ?_, ?_, hstore.1, hstore.2⟩
  · rw [harrivals]
    exact h.ascending
  · rw [harrivals]
    exact h.fresh
  · rw [harrivals, hnext]
    exact h.bound
  · rw [hnext]
    exact h.drawn

section

variable (he : Enqueued bc g persistent file s txId prep p)

include he

theorem Enqueued.applied :
    p.1.applied = g.applied := by
  cases he <;> rfl

theorem Enqueued.arrivals (x : PendingCommit V) (hx : x ∈ p.1.arrivals) :
    x ∈ g.arrivals ∨ x.record.txId = txId ∧ x.caller = g.calls.length := by
  cases he with
  | @refused queue wal s' e hs hpending hleader hoffset hfile =>
    rw [refuse_arrivals hpending wal e] at hx
    exact .inl hx
  | @queued record wal s' hs hclean htx hversion hnext hchanges hfile =>
    rw [queued_arrivals, mem_append, mem_singleton] at hx
    rcases hx with hx | rfl
    · exact .inl hx
    · exact .inr ⟨htx, rfl⟩

theorem Enqueued.prepared : Prepared s p.2 := by
  cases he with
  | refused e hs hpending hleader hoffset hfile => exact hs
  | queued hs hclean htx hversion hnext hchanges hfile => exact hs

end

theorem Drained.commits (hd : Drained g persistent front rest s leader p) :
    ∃ records, p.1.applied = g.applied ++ records ∧
      p.2 = records.foldl (fun s r => (s.commitRecord r (.ok ())).2) s := by
  cases hd with
  | idle hleads => exact ⟨[], (append_nil _).symm, rfl⟩
  | applied hleads hitems hdurable => exact ⟨_, finish_applied rfl hitems leader, applyAll_eq s _⟩
  | failed message hleads hfile =>
    exact ⟨[], (finish_unapplied rfl _ leader).trans (append_nil _).symm, rfl⟩

theorem Enqueued.drains (he : Enqueued bc g persistent file s txId prep p) :
    g.drains <+: p.1.drains := by
  cases he <;> exact prefix_refl _

theorem Drained.drains (hd : Drained g persistent front rest s leader p) :
    g.drains <+: p.1.drains := by
  cases hd with
  | idle hleads => exact prefix_refl _
  | applied hleads hitems hdurable => exact prefix_append _ _
  | failed message hleads hfile => exact prefix_append _ _

/-! ## The bytes of the log -/

/-- The log file: the records that have been applied, those that have not, and what a failed write may
have left behind. -/
structure Filed (bc : Bincode (WalRecord V)) (persistent : Bool) (g : GroupCommit V) (s : MVStore V)
    (unapplied : List (WalRecord V)) (torn : List UInt8) : Prop where
  file : g.wal.file =
    WalManager.onDisk persistent (WalManager.image bc (s.wal ++ unapplied) ++ torn)
  queued : g.queue.pending ≠ [] ∨ g.queue.poisoned = none →
    unapplied = g.queue.pending.map PendingCommit.record
  clean : g.queue.poisoned = none → torn = []
  offset : g.queue.pending ≠ [] → persistent = true →
    g.queue.batchStartOffset = some (WalManager.image bc s.wal).length
  order : (g.applied ++ unapplied).Sublist (g.arrivals.map PendingCommit.record)

theorem filed_new (bc : Bincode (WalRecord V)) (base : MVStore V) (persistent sync : Bool) :
    Filed bc persistent (new bc base persistent sync) base [] [] where
  file := by simp [new]
  queued _ := rfl
  clean _ := rfl
  offset h := absurd rfl h
  order := List.Sublist.refl []

variable {unapplied : List (WalRecord V)} {torn : List UInt8}

section

variable (h : Filed bc persistent g s unapplied torn)

include h

theorem Filed.enqueued
    (he : Enqueued bc g persistent (WalManager.image bc (s.wal ++ unapplied) ++ torn) s txId prep p) :
    ∃ unapplied' torn', Filed bc persistent p.1 p.2 unapplied' torn' := by
  cases he with
  | @refused queue wal s' e hs hpending hleader hoffset hfile =>
    have harrivals := refuse_arrivals hpending wal e
    have hqueue : g.queue.pending ≠ [] → persistent = true → queue.batchStartOffset =
        some (WalManager.image bc s'.wal).length := by
      intro hne hp
      rw [hs.wal, hoffset hne]
      exact h.offset hne hp
    rcases hfile with ⟨hpoisoned, hfile⟩ | ⟨hpoisoned, torn', hfile⟩
    · refine ⟨unapplied, torn, ⟨?_, ?_, ?_, ?_, ?_⟩⟩
      · rw [hs.wal]
        exact hfile
      · show queue.pending ≠ [] ∨ queue.poisoned = none → unapplied = queue.pending.map _
        rw [hpending, hpoisoned]
        exact h.queued
      · show queue.poisoned = none → torn = []
        rw [hpoisoned]
        exact h.clean
      · exact fun hne => hqueue (hpending ▸ hne)
      · rw [harrivals]
        exact h.order
    · -- part of a frame is left, and the queue takes nothing any more
      refine ⟨unapplied, torn ++ torn', ⟨?_, fun hor => ?_, fun hnone => absurd hnone hpoisoned,
        ?_, ?_⟩⟩
      · rw [hs.wal, ← append_assoc]
        exact hfile
      · have hne : g.queue.pending ≠ [] := hpending ▸ hor.resolve_right hpoisoned
        show unapplied = queue.pending.map _
        rw [hpending]
        exact h.queued (.inl hne)
      · exact fun hne => hqueue (hpending ▸ hne)
      · rw [harrivals]
        exact h.order
  | @queued record wal s' hs hclean htx hversion hnext hchanges hfile =>
    have htorn := h.clean hclean
    have hpending := h.queued (.inr hclean)
    refine ⟨unapplied ++ [record], [], ⟨?_, fun _ => ?_, fun _ => rfl, fun _ hp => ?_, ?_⟩⟩
    · show wal.file = _
      rw [hfile, htorn, hs.wal, append_nil, append_nil, ← WalManager.image_append,
        append_assoc]
    · show _ = (g.queue.pending ++ [_]).map PendingCommit.record
      rw [map_append, ← hpending]
      rfl
    · show (if g.queue.pending.isEmpty then some g.wal.len else g.queue.batchStartOffset) = _
      rw [hs.wal]
      split_ifs with hempty
      · -- the log ends where the batch starts
        rw [List.isEmpty_iff] at hempty
        rw [hempty, map_nil] at hpending
        rw [WalManager.len, h.file, hp, htorn, hpending, append_nil, append_nil]
        rfl
      · exact h.offset (fun hnil => hempty (List.isEmpty_iff.mpr hnil)) hp
    · rw [queued_arrivals, map_append, ← append_assoc]
      exact h.order.append (List.Sublist.refl [record])

theorem Filed.drain (hled : g.Led) (leader : Nat) (io : DrainIo) :
    Drained g persistent (WalManager.image bc s.wal) (WalManager.image bc unapplied ++ torn) s leader
      (g.drain s leader io) := by
  have hfile := h.file
  rw [WalManager.image_append, append_assoc] at hfile
  exact drain_drained hfile (fun hl => h.offset (hled.busy leader hl).2) s io

theorem Filed.drained (hled : g.Led)
    (hd : Drained g persistent (WalManager.image bc s.wal) (WalManager.image bc unapplied ++ torn) s
      leader p) :
    ∃ unapplied' torn', Filed bc persistent p.1 p.2 unapplied' torn' := by
  have harrivals := hd.arrivals
  have hsub : g.applied.Sublist (g.arrivals.map PendingCommit.record) :=
    (sublist_append_left _ _).trans h.order
  cases hd with
  | idle hleads => exact ⟨unapplied, torn, h⟩
  | @applied items hleads hitems hdurable =>
    have hqueued := h.queued (.inl (hled.busy leader hleads).2)
    refine ⟨[], torn, ⟨?_, fun _ => rfl, h.clean, fun hne => absurd rfl hne, ?_⟩⟩
    · show g.wal.file = _
      rw [applyAll_fields, h.file, append_nil, hqueued]
    · rw [harrivals, finish_applied rfl hitems leader, append_nil, ← hqueued]
      exact h.order
  | @failed poisoned wal message hleads hfile =>
    have hcut : wal.file = WalManager.onDisk persistent (WalManager.image bc s.wal) →
        Filed bc persistent ({ g with queue := { g.queue with poisoned }, wal }.finish leader
          (g.queue.pending.map fun item => (item, .error (message, false))) false) s [] [] := by
      intro hfile
      refine ⟨?_, fun _ => rfl, fun _ => rfl, fun hne => absurd rfl hne, ?_⟩
      · rw [append_nil, append_nil]
        exact hfile
      · rw [harrivals, finish_unapplied rfl, append_nil]
        exact hsub
    rcases hfile with ⟨hpoisoned, hfile⟩ | ⟨hpoisoned, torn', hfile, rfl | rfl⟩
    · exact ⟨[], [], hcut hfile⟩
    · rw [append_nil] at hfile
      exact ⟨[], [], hcut hfile⟩
    · -- the batch stays in the file of a poisoned queue
      refine ⟨unapplied, torn, ⟨?_, fun hor => ?_, fun hnone => absurd hnone hpoisoned,
        fun hne => absurd rfl hne, ?_⟩⟩
      · rw [WalManager.image_append, append_assoc]
        exact hfile
      · exact absurd rfl (hor.resolve_right hpoisoned)
      · rw [harrivals, finish_unapplied rfl]
        exact h.order

end

end GroupCommit

inductive StoreEvent (V : Type) where
  | commit (record : WalRecord V)
  | edit (maps : Maps V)

def StoreEvent.record? : StoreEvent V → Option (WalRecord V)
  | .commit record => some record
  | .edit _ => none

def MVStore.after (s : MVStore V) : StoreEvent V → MVStore V
  | .commit record => (s.commitRecord record (.ok ())).2
  | .edit maps => { s with maps }

theorem MVStore.read_commitRecord (s : MVStore V) (record : WalRecord V) (n : String) (k : Key) :
    (s.commitRecord record (.ok ())).2.read n k = (lastChange n k record.changes).getD (s.read n k) :=
  read_applyWalChanges record.changes { s with wal := s.wal ++ [record] } n k

theorem MVStore.read_after {s t : MVStore V} (h : s.read = t.read) (events : List (StoreEvent V)) :
    (events.foldl after s).read = (events.foldl after t).read := by
  induction events generalizing s t with
  | nil => exact h
  | cons e events ih =>
    refine ih ?_
    cases e with
    | commit record =>
      funext n k
      rw [after, after, read_commitRecord, read_commitRecord, h]
    | edit maps => rfl

namespace CommitSystem

open GroupCommit

variable {persistent : Bool} {c : CommitSystem V}

structure Grouped (bc : Bincode (WalRecord V)) (base : MVStore V) (persistent : Bool)
    (c : CommitSystem V) : Prop where
  led : c.group.Led
  tracked : c.group.Tracked
  ordered : Ordered base c.group c.store
  filed : ∃ unapplied torn, Filed bc persistent c.group c.store unapplied torn

theorem grouped_new (bc : Bincode (WalRecord V)) (base : MVStore V) (persistent sync : Bool) :
    Grouped bc base persistent (new bc base persistent sync) :=
  ⟨led_new bc base persistent sync, tracked_new bc base persistent sync,
    ordered_new bc base persistent sync, [], [], filed_new bc base persistent sync⟩

theorem Grouped.congr {g : GroupCommit V} {s' : MVStore V} (h : Grouped bc base persistent ⟨g, s⟩)
    (hwal : s'.wal = s.wal) (hversion : s'.version = s.version)
    (hnext : s.nextCommitVersion ≤ s'.nextCommitVersion) : Grouped bc base persistent ⟨g, s'⟩ := by
  obtain ⟨unapplied, torn, hfiled⟩ := h.filed
  have ho := h.ordered
  refine ⟨h.led, h.tracked, ⟨ho.ascending, ho.fresh, fun x hx => (ho.bound x hx).trans hnext,
    ho.drawn.trans hnext, hwal.trans ho.wal, hversion.trans ho.version⟩,
    unapplied, torn, ?_, hfiled.queued, hfiled.clean, ?_, hfiled.order⟩
  · rw [hwal]
    exact hfiled.file
  · rw [hwal]
    exact hfiled.offset

theorem Grouped.step (h : Grouped bc base persistent c) (a : CommitAction V) :
    Grouped bc base persistent (c.step bc a) := by
  obtain ⟨unapplied, torn, hfiled⟩ := h.filed
  cases a with
  | enqueue txId p timestampNanos io =>
    have he := enqueue_enqueued bc hfiled.file c.store txId p timestampNanos io
    exact ⟨h.led.enqueued he, h.tracked.enqueued he, h.ordered.enqueued he, hfiled.enqueued he⟩
  | drain leader io =>
    have hd := hfiled.drain h.led leader io
    exact ⟨h.led.drained hd, h.tracked.drained hd, h.ordered.drained hd, hfiled.drained h.led hd⟩
  | edit maps => exact h.congr rfl rfl (Nat.le_refl _)

theorem Grouped.runs (h : Grouped bc base persistent c) (actions : List (CommitAction V)) :
    Grouped bc base persistent (Reasoning.runs (CommitSystem.step bc) c actions) :=
  runs_invariant (fun _ a h => h.step a) h actions

/-- What happens to the maps in a step: a batch is committed record by record, or they are edited. -/
def events (c : CommitSystem V) : CommitAction V → List (StoreEvent V)
  | .enqueue .. => []
  | .drain leader io =>
    ((c.group.drain c.store leader io).1.applied.drop c.group.applied.length).map .commit
  | .edit maps => [.edit maps]

def history (bc : Bincode (WalRecord V)) : CommitSystem V → List (CommitAction V) → List (StoreEvent V)
  | _, [] => []
  | c, a :: as => c.events a ++ history bc (c.step bc a) as

theorem filterMap_commit (records : List (WalRecord V)) :
    (records.map StoreEvent.commit).filterMap StoreEvent.record? = records := by
  rw [filterMap_map]
  exact filterMap_some

theorem Grouped.applied_step (h : Grouped bc base persistent c) (a : CommitAction V) :
    ∃ records, (c.step bc a).group.applied = c.group.applied ++ records ∧
      (c.events a).filterMap StoreEvent.record? = records ∧
      (c.step bc a).store.read = ((c.events a).foldl MVStore.after c.store).read := by
  obtain ⟨unapplied, torn, hfiled⟩ := h.filed
  cases a with
  | enqueue txId p timestampNanos io =>
    have he := enqueue_enqueued bc hfiled.file c.store txId p timestampNanos io
    exact ⟨[], he.applied.trans (append_nil _).symm, rfl, he.prepared.read⟩
  | drain leader io =>
    obtain ⟨records, happlied, hstore⟩ := (hfiled.drain h.led leader io).commits
    have hevents : c.events (.drain leader io) = records.map .commit := by
      rw [events, happlied, drop_left]
    refine ⟨records, happlied, ?_, ?_⟩
    · rw [hevents, filterMap_commit]
    · rw [hevents, foldl_map]
      exact congrArg MVStore.read hstore
  | edit maps => exact ⟨[], (append_nil _).symm, rfl, rfl⟩

theorem Grouped.applied_runs (h : Grouped bc base persistent c) (actions : List (CommitAction V)) :
    (Reasoning.runs (CommitSystem.step bc) c actions).group.applied =
        c.group.applied ++ (history bc c actions).filterMap StoreEvent.record? ∧
      (Reasoning.runs (CommitSystem.step bc) c actions).store.read =
        ((history bc c actions).foldl MVStore.after c.store).read := by
  induction actions generalizing c with
  | nil => exact ⟨(append_nil _).symm, rfl⟩
  | cons a actions ih =>
    obtain ⟨records, happlied, hrecords, hread⟩ := h.applied_step a
    obtain ⟨hrest, hreadRest⟩ := ih (h.step a)
    rw [runs_cons, history]
    constructor
    · rw [hrest, happlied, filterMap_append, hrecords, append_assoc]
    · rw [hreadRest, foldl_append]
      exact MVStore.read_after hread _

theorem Grouped.drains_runs (h : Grouped bc base persistent c) (actions : List (CommitAction V)) :
    c.group.drains <+: (Reasoning.runs (CommitSystem.step bc) c actions).group.drains := by
  induction actions generalizing c with
  | nil => exact prefix_refl _
  | cons a actions ih =>
    refine List.IsPrefix.trans ?_ (ih (h.step a))
    obtain ⟨unapplied, torn, hfiled⟩ := h.filed
    cases a with
    | enqueue txId p timestampNanos io =>
      exact (enqueue_enqueued bc hfiled.file c.store txId p timestampNanos io).drains
    | drain leader io => exact (hfiled.drain h.led leader io).drains
    | edit maps => exact prefix_refl _

/-- A non-empty queue has one leader, and its drain leaves nothing in the queue and nobody without an
outcome. -/
structure Attended (c : CommitSystem V) : Prop where
  leader : c.group.queue.pending ≠ [] → ∃! i, c.group.Leads i
  empties : ∀ i, c.group.Leads i → ∀ io, (c.group.drain c.store i io).1.queue.pending = []
  serves : ∀ i, c.group.Leads i → ∀ io, ∀ x ∈ c.group.queue.pending,
    cell (c.group.drain c.store i io).1.calls x.caller ≠ none

/-- The log, the maps and the versions have the commits in one order, that of their arrival. -/
structure InOrder (bc : Bincode (WalRecord V)) (base : MVStore V) (persistent : Bool)
    (events : List (StoreEvent V)) (c : CommitSystem V) : Prop where
  versions : (c.group.arrivals.map fun x => x.record.commitVersion).Pairwise (· < ·)
  /-- the log has the applied records, in this order, and those that wait or were not cut off -/
  log : ∃ unapplied torn,
    c.group.wal.file = WalManager.onDisk persistent
      (WalManager.image bc (base.wal ++ c.group.applied ++ unapplied) ++ torn) ∧
    (c.group.applied ++ unapplied).Sublist (c.group.arrivals.map PendingCommit.record) ∧
    (c.group.queue.poisoned = none →
      unapplied = c.group.queue.pending.map PendingCommit.record ∧ torn = [])
  /-- these records are committed to the maps, in this order -/
  commits : events.filterMap StoreEvent.record? = c.group.applied
  maps : c.store.read = (events.foldl MVStore.after base).read
  version : c.store.version = lastVersion base c.group.applied
  largest : ∀ r ∈ c.group.applied, r.commitVersion ≤ c.store.version

section

variable (h : Grouped bc base persistent c)

include h

theorem Grouped.attended : c.Attended := by
  obtain ⟨unapplied, torn, hfiled⟩ := h.filed
  have hempties : ∀ i, c.group.Leads i → ∀ io, (c.group.drain c.store i io).1.queue.pending = [] := by
    intro i hi io
    have hd := hfiled.drain h.led i io
    generalize c.group.drain c.store i io = p at hd
    cases hd with
    | idle hleads => exact absurd hi hleads
    | applied hleads hitems hdurable => rfl
    | failed message hleads hfile => rfl
  refine ⟨fun hne => ?_, hempties, fun i hi io x hx => ?_⟩
  · obtain ⟨i, hi⟩ := h.led.someone (h.led.flag hne)
    exact ⟨i, hi, fun j hj => h.led.one j i hj hi⟩
  · -- what has arrived is not in the queue any more, and so it has been drained
    have hd := hfiled.drain h.led i io
    have htold := (h.tracked.drained hd).told
    have hx' : x ∈ (c.group.drain c.store i io).1.arrivals := by
      rw [hd.arrivals]
      exact mem_append_right _ hx
    rw [arrivals, hempties i hi io, append_nil] at hx'
    obtain ⟨p, hp, rfl⟩ := mem_map.mp hx'
    rw [htold p hp]
    intro hnone
    cases hnone

theorem Grouped.applied_sublist :
    c.group.applied.Sublist (c.group.arrivals.map PendingCommit.record) := by
  obtain ⟨unapplied, torn, hfiled⟩ := h.filed
  exact (sublist_append_left _ _).trans hfiled.order

theorem Grouped.counter (hbase : base.version ≤ base.nextCommitVersion) :
    c.store.version ≤ c.store.nextCommitVersion := by
  rw [h.ordered.version, lastVersion]
  cases hlast : c.group.applied.getLast? with
  | none => exact hbase.trans h.ordered.drawn
  | some r =>
    obtain ⟨x, hx, rfl⟩ := mem_map.mp (h.applied_sublist.subset (mem_of_getLast? hlast))
    exact h.ordered.bound x hx

theorem Grouped.inOrder {events : List (StoreEvent V)}
    (hcommits : events.filterMap StoreEvent.record? = c.group.applied)
    (hread : c.store.read = (events.foldl MVStore.after base).read) :
    InOrder bc base persistent events c := by
  obtain ⟨unapplied, torn, hfiled⟩ := h.filed
  refine ⟨h.ordered.ascending, ⟨unapplied, torn, ?_, hfiled.order, fun hclean => ?_⟩, hcommits, hread,
    h.ordered.version, fun r hr => ?_⟩
  · rw [← h.ordered.wal]
    exact hfiled.file
  · exact ⟨hfiled.queued (.inr hclean), hfiled.clean hclean⟩
  · rw [h.ordered.version]
    have hsub : (c.group.applied.map WalRecord.commitVersion).Sublist
        (c.group.arrivals.map fun x => x.record.commitVersion) := by
      have hmap := h.applied_sublist.map WalRecord.commitVersion
      rw [map_map] at hmap
      exact hmap
    exact le_lastVersion (h.ordered.ascending.sublist hsub) hr base

end

/-- Whatever the order in which callers enqueue and leaders drain, each accepted call waits in the
queue, with a leader still to come, or has been drained by one leader and told one outcome for good;
and all commits have one order. -/
theorem commits_have_one_order (bc : Bincode (WalRecord V)) (base : MVStore V) (persistent sync : Bool)
    (actions more : List (CommitAction V)) :
    let c := runs (step bc) (new bc base persistent sync) actions
    (∀ i call, c.group.calls[i]? = some call → (∀ e, call.phase ≠ .refused e) →
      call.completed = none ∧ c.group.Waits i ∨
      ∃ outcome, call.completed = some outcome ∧ c.group.TakenOnce i outcome ∧
        cell (runs (step bc) c more).group.calls i = some outcome) ∧
    c.Attended ∧ InOrder bc base persistent (history bc (new bc base persistent sync) actions) c := by
  have h := (grouped_new bc base persistent sync).runs actions
  have hlater := h.runs more
  obtain ⟨happlied, hread⟩ := (grouped_new bc base persistent sync).applied_runs actions
  refine ⟨fun i call hcall haccepted => ?_, h.attended, h.inOrder happlied.symm hread⟩
  rcases h.tracked.served hcall haccepted with hwaits | ⟨outcome, hdone, htaken⟩
  · exact Or.inl hwaits
  · obtain ⟨item, rfl, hitem⟩ := htaken.mem_drained
    obtain ⟨d, hd, hin⟩ := mem_flatMap.mp hitem
    -- the drains of the run are those of the longer run
    have hmem := mem_flatMap.mpr ⟨d, (h.drains_runs more).subset hd, hin⟩
    exact Or.inr ⟨outcome, hdone, htaken, hlater.tracked.told _ hmem⟩

end CommitSystem

end H2Database.Mvstore
