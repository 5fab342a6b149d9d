import H2Database.Mvstore.GroupCommit
import H2Database.Reasoning.Lists

/-!
# Who leads and who waits

`Enqueued` and `Drained` say once what the two critical sections of a group commit can come to.  From
them: somebody leads as long as the queue is not empty (`Led`), and every queued record is drained once
and gets one outcome (`Tracked`).
-/

namespace H2Database.Mvstore

open Reasoning MVStore
open List hiding isEmpty_iff

variable {V : Type}

/-! ## What the critical sections leave of the store -/

namespace MVStore

structure Prepared (s s' : MVStore V) : Prop where
  edited : Edited s s'
  wal : s'.wal = s.wal
  file : s'.file = s.file
  version : s'.version = s.version
  nextCommitVersion : s.nextCommitVersion ≤ s'.nextCommitVersion
  read : s'.read = s.read

theorem Prepared.refl (s : MVStore V) : Prepared s s :=
  ⟨Edited.refl s, rfl, rfl, rfl, Nat.le_refl _, rfl⟩

theorem openMap_fields (s : MVStore V) (name : String) :
    (s.openMap name).2 = { s with maps := (s.openMap name).2.maps } := by
  unfold openMap
  split <;> rfl

theorem openMaps_fields (names : List String) (s : MVStore V) :
    names.foldl (fun s name => (s.openMap name).2) s =
      { s with maps := (names.foldl (fun s name => (s.openMap name).2) s).maps } := by
  induction names generalizing s with
  | nil => rfl
  | cons name names ih =>
    rw [foldl_cons, ih, openMap_fields s name]

theorem read_openMaps_names (names : List String) (s : MVStore V) :
    (names.foldl (fun s name => (s.openMap name).2) s).read = s.read := by
  induction names generalizing s with
  | nil => rfl
  | cons name names ih => exact (ih _).trans (read_openMap s name)

theorem applyWalChange_fields (s : MVStore V) (c : WalChange V) :
    s.applyWalChange c = { s with maps := (s.applyWalChange c).maps } := by
  unfold applyWalChange update
  simp only
  rw [openMap_fields s c.mapName]

theorem applyWalChanges_fields (changes : List (WalChange V)) (s : MVStore V) :
    changes.foldl applyWalChange s = { s with maps := (changes.foldl applyWalChange s).maps } := by
  induction changes generalizing s with
  | nil => rfl
  | cons c changes ih => rw [foldl_cons, ih, applyWalChange_fields s c]

theorem applyWalChanges_maps (changes : List (WalChange V)) (s : MVStore V) (wal : List (WalRecord V))
    (version : Nat) :
    (changes.foldl applyWalChange { s with wal, version }).maps =
      (changes.foldl applyWalChange s).maps := by
  have hstep : ∀ (s : MVStore V) (c : WalChange V), applyWalChange { s with wal, version } c =
      { s.applyWalChange c with wal, version } := by
    intro s c
    unfold applyWalChange openMap update
    simp only
    split <;> rfl
  induction changes generalizing s with
  | nil => rfl
  | cons c changes ih => rw [foldl_cons, foldl_cons, hstep, ih]

end MVStore

theorem Preparation.nextCommitVersion (p : Preparation V) (version : Nat) (s : MVStore V) :
    (p.prepare version { s with nextCommitVersion := version }).2.nextCommitVersion = version := by
  obtain ⟨names, hnames⟩ := p.opens version { s with nextCommitVersion := version }
  rw [hnames, openMaps_fields]

theorem Preparation.prepared (p : Preparation V) (version : Nat) (s : MVStore V) :
    Prepared { s with nextCommitVersion := version } (p.prepare version
      { s with nextCommitVersion := version }).2 := by
  obtain ⟨names, hnames⟩ := p.opens version { s with nextCommitVersion := version }
  rw [hnames]
  have hfields := openMaps_fields names { s with nextCommitVersion := version }
  refine ⟨?_, by rw [hfields], by rw [hfields], by rw [hfields], by rw [hfields], ?_⟩
  · exact Edited.foldl (fun s name => Edited.openMap s name) names _
  · exact read_openMaps_names names _

namespace GroupCommit

def lastVersion (s : MVStore V) (records : List (WalRecord V)) : Nat :=
  (records.getLast?.map WalRecord.commitVersion).getD s.version

theorem applyAll_fields (s : MVStore V) (pending : List (PendingCommit V)) :
    applyAll s pending =
      { s with
        maps := (((pending.map PendingCommit.record).flatMap WalRecord.changes).foldl
          applyWalChange s).maps
        wal := s.wal ++ pending.map PendingCommit.record
        version := lastVersion s (pending.map PendingCommit.record) } := by
  have hmaps := applyWalChanges_maps ((pending.map PendingCommit.record).flatMap WalRecord.changes) s
    (s.wal ++ pending.map PendingCommit.record) s.version
  unfold applyAll lastVersion
  simp only
  rw [applyWalChanges_fields, hmaps, getLast?_map]
  cases pending.getLast? <;> rfl

theorem applyAll_eq (s : MVStore V) (pending : List (PendingCommit V)) :
    applyAll s pending =
      (pending.map PendingCommit.record).foldl (fun s r => (s.commitRecord r (.ok ())).2) s := by
  rw [applyAll_fields]
  generalize pending.map PendingCommit.record = records
  induction records generalizing s with
  | nil =>
    simp only [foldl_nil, flatMap_nil, append_nil, lastVersion, getLast?_nil,
      Option.map_none, Option.getD_none]
  | cons r records ih =>
    have hfirst := applyWalChanges_fields r.changes s
    have hlogged := applyWalChanges_fields r.changes { s with wal := s.wal ++ [r] }
    rw [applyWalChanges_maps r.changes s (s.wal ++ [r]) s.version] at hlogged
    -- the other records start from the maps that the first one leaves
    generalize (r.changes.foldl applyWalChange s).maps = maps at hfirst hlogged
    have hrest := applyWalChanges_maps (records.flatMap WalRecord.changes) { s with maps }
      (s.wal ++ [r]) r.commitVersion
    rw [foldl_cons, ← ih, flatMap_cons, foldl_append, hfirst]
    simp only [commitRecord, hlogged, hrest, append_assoc, singleton_append, lastVersion,
      getLast?_cons, Option.map_some, Option.getD_some]
    cases records.getLast? <;> rfl

end GroupCommit

/-! ## What the critical sections leave of the log -/

namespace WalManager

variable {bc : Bincode (WalRecord V)} {wal : WalManager} {persistent : Bool} {file rest : List UInt8}

theorem tryAppend_cases (bc : Bincode (WalRecord V)) (hfile : wal.file = onDisk persistent file)
    (record : WalRecord V) (failure : Option (Nat × H2Error)) :
    (∃ wal', wal.tryAppend bc record failure = (.ok (), wal') ∧
      wal'.file = onDisk persistent (file ++ image bc [record])) ∨
    ∃ e wal' rest, wal.tryAppend bc record failure = (.error e, wal') ∧
      wal'.file = onDisk persistent (file ++ rest) := by
  unfold tryAppend
  cases persistent with
  | false =>
    simp only [onDisk, Bool.false_eq_true, if_false] at hfile ⊢
    rw [hfile]
    exact .inl ⟨wal, rfl, hfile⟩
  | true =>
    simp only [onDisk, if_true] at hfile ⊢
    cases hser : bc.serialize record with
    | error e =>
      have happend : wal.appendUnsynced bc record = .error (.serialization e) := by
        simp only [appendUnsynced, hfile, hser]
      rw [happend, hfile]
      exact .inr ⟨_, wal, [], rfl, by rw [append_nil, hfile]⟩
    | ok payload =>
      have happend : wal.appendUnsynced bc record =
          .ok { wal with file := some (file ++ frame payload) } := by
        simp only [appendUnsynced, hfile, hser]
      rw [happend, hfile]
      cases failure with
      | none =>
        refine .inl ⟨_, rfl, ?_⟩
        simp only [image, hser, append_nil]
      | some p =>
        obtain ⟨written, e⟩ := p
        -- the cut is behind the old end of the file
        have hlen : file.length ≤ min (wal.len + written)
            (({ wal with file := some (file ++ frame payload) } : WalManager).len - 1) := by
          have hframe := length_frame payload
          simp only [len, hfile, Option.getD_some, length_append]
          omega
        have hcut : ∀ n, file.length ≤ n →
            (truncateTo { wal with file := some (file ++ frame payload) } n).file =
              some (file ++ (frame payload).take (n - file.length)) := by
          intro n hn
          rw [truncateTo, Option.map_some, take_append, take_of_length_le hn]
        exact .inr ⟨e, _, _, rfl, hcut _ hlen⟩

theorem tryTruncateTo_cases (hfile : wal.file = onDisk persistent (file ++ rest)) {n : Nat}
    (hn : persistent = true → n = file.length) (outcome : TruncateOutcome) :
    (∃ wal', wal.tryTruncateTo n outcome = (.ok (), wal') ∧ wal'.file = onDisk persistent file) ∨
    ∃ e wal' rest', wal.tryTruncateTo n outcome = (.error e, wal') ∧
      wal'.file = onDisk persistent (file ++ rest') ∧ (rest' = [] ∨ rest' = rest) := by
  unfold tryTruncateTo
  cases persistent with
  | false =>
    simp only [onDisk, Bool.false_eq_true, if_false] at hfile ⊢
    rw [hfile]
    exact .inl ⟨wal, rfl, hfile⟩
  | true =>
    simp only [onDisk, if_true] at hfile ⊢
    have hcut : (wal.truncateTo n).file = some file := by
      rw [truncateTo, hfile, Option.map_some, hn rfl, take_left]
    rw [hfile]
    cases outcome with
    | done => exact .inl ⟨_, rfl, hcut⟩
    | notCut e => exact .inr ⟨e, wal, rest, rfl, hfile, Or.inr rfl⟩
    | notSought e => exact .inr ⟨e, _, [], rfl, by rw [hcut, append_nil], Or.inl rfl⟩

theorem tryLen_ok (hfile : wal.file = onDisk persistent file) {result : H2Result Unit} {n : Nat}
    (h : wal.tryLen result = .ok n) : n = wal.len ∧ (persistent = true → n = file.length) := by
  have hn : n = wal.len := by
    unfold tryLen at h
    split at h
    · cases h
    · exact (Except.ok.inj h).symm
  refine ⟨hn, fun hp => ?_⟩
  rw [hn, len, hfile, hp]
  rfl

end WalManager

namespace GroupCommit

variable {bc : Bincode (WalRecord V)} {g : GroupCommit V} {persistent : Bool}
  {file front rest : List UInt8} {s s' : MVStore V} {txId leader : Nat} {prep : Preparation V}
  {p : GroupCommit V × MVStore V}

def queued (g : GroupCommit V) (record : WalRecord V) (wal : WalManager) : GroupCommit V :=
  { g with
    queue := { g.queue with
      pending := g.queue.pending ++ [⟨record, g.calls.length⟩]
      leader := true
      batchStartOffset :=
        if g.queue.pending.isEmpty then some g.wal.len else g.queue.batchStartOffset }
    wal
    calls := g.calls ++ [⟨if g.queue.leader then .waiting else .leading, none⟩] }

/-- What the first critical section can come to, with the log file `file`. -/
inductive Enqueued (bc : Bincode (WalRecord V)) (g : GroupCommit V) (persistent : Bool)
    (file : List UInt8) (s : MVStore V) (txId : Nat) (p : Preparation V) :
    GroupCommit V × MVStore V → Prop where
  /-- the call returns; a log that could not be cut back poisons the queue -/
  | refused {queue : CommitQueue V} {wal : WalManager} {s' : MVStore V} (e : H2Error)
      (hs : Prepared s s') (hpending : queue.pending = g.queue.pending)
      (hleader : queue.leader = g.queue.leader)
      (hoffset : g.queue.pending ≠ [] → queue.batchStartOffset = g.queue.batchStartOffset)
      (hfile : queue.poisoned = g.queue.poisoned ∧ wal.file = WalManager.onDisk persistent file ∨
        queue.poisoned ≠ none ∧ ∃ torn, wal.file = WalManager.onDisk persistent (file ++ torn)) :
      Enqueued bc g persistent file s txId p ({ g with queue, wal }.refuse e, s')
  | queued {record : WalRecord V} {wal : WalManager} {s' : MVStore V} (hs : Prepared s s')
      (hclean : g.queue.poisoned = none) (htx : record.txId = txId)
      (hversion : record.commitVersion = s.nextCommitVersion + 1)
      (hnext : s'.nextCommitVersion = s.nextCommitVersion + 1)
      (hchanges : (p.prepare record.commitVersion
        { s with nextCommitVersion := record.commitVersion }).1 = .ok record.changes)
      (hfile : wal.file = WalManager.onDisk persistent (file ++ WalManager.image bc [record])) :
      Enqueued bc g persistent file s txId p (g.queued record wal, s')

theorem enqueued_append (hfile : g.wal.file = WalManager.onDisk persistent file)
    (hclean : g.queue.poisoned = none) (hs : Prepared s s') {record : WalRecord V}
    (htx : record.txId = txId) (hversion : record.commitVersion = s.nextCommitVersion + 1)
    (hnext : s'.nextCommitVersion = s.nextCommitVersion + 1)
    (hchanges : (prep.prepare record.commitVersion
      { s with nextCommitVersion := record.commitVersion }).1 = .ok record.changes) (io : EnqueueIo) :
    Enqueued bc g persistent file s txId prep (g.append bc record io, s') := by
  -- the offset is noted before the record is written
  set queue : CommitQueue V := if g.queue.pending.isEmpty then
    { g.queue with batchStartOffset := some g.wal.len } else g.queue with hqueue
  have hpending : queue.pending = g.queue.pending := by
    rw [hqueue]
    split_ifs <;> rfl
  have hleader : queue.leader = g.queue.leader := by
    rw [hqueue]
    split_ifs <;> rfl
  have hpoisoned : queue.poisoned = g.queue.poisoned := by
    rw [hqueue]
    split_ifs <;> rfl
  have hoffset : g.queue.pending ≠ [] → queue.batchStartOffset = g.queue.batchStartOffset := by
    intro hne
    rw [hqueue, if_neg (by rw [List.isEmpty_iff]; exact hne)]
  unfold append
  cases hlen : g.wal.tryLen io.len with
  | error e => exact .refused e hs rfl rfl (fun _ => rfl) (.inl ⟨rfl, hfile⟩)
  | ok before =>
    obtain ⟨rfl, hbefore⟩ := WalManager.tryLen_ok hfile hlen
    simp only [← hqueue]
    rcases WalManager.tryAppend_cases bc hfile record io.write with
      ⟨wal, heq, hgrown⟩ | ⟨e, wal, rest, heq, htorn⟩
    · rw [heq]
      have hg : GroupCommit.queued g record wal =
          { g with
            queue := { queue with
              pending := queue.pending ++ [⟨record, g.calls.length⟩]
              leader := true }
            wal
            calls := g.calls ++ [⟨if queue.leader then .waiting else .leading, none⟩] } := by
        rw [GroupCommit.queued, hleader, hpending, hqueue]
        split_ifs <;> rfl
      simp only [← hg]
      exact .queued hs hclean htx hversion hnext hchanges hgrown
    · rw [heq]
      simp only
      rcases WalManager.tryTruncateTo_cases htorn hbefore io.truncate with
        ⟨wal', heq', hcut⟩ | ⟨e', wal', torn, heq', htorn', _⟩
      · rw [heq']
        exact .refused e hs hpending hleader hoffset (.inl ⟨hpoisoned, hcut⟩)
      · rw [heq']
        exact .refused e hs hpending hleader hoffset (.inr ⟨by simp, torn, htorn'⟩)

theorem enqueue_enqueued (bc : Bincode (WalRecord V))
    (hfile : g.wal.file = WalManager.onDisk persistent file) (s : MVStore V) (txId : Nat)
    (prep : Preparation V) (timestampNanos : Int) (io : EnqueueIo) :
    Enqueued bc g persistent file s txId prep (g.enqueue bc s txId prep timestampNanos io) := by
  unfold enqueue
  cases hpoison : g.queue.poisoned with
  | some error =>
    exact .refused _ (Prepared.refl s) rfl rfl (fun _ => rfl) (.inl ⟨rfl, hfile⟩)
  | none =>
    simp only
    have hp := prep.prepared (s.nextCommitVersion + 1) s
    have hnext := prep.nextCommitVersion (s.nextCommitVersion + 1) s
    rcases hprep : prep.prepare (s.nextCommitVersion + 1)
      { s with nextCommitVersion := s.nextCommitVersion + 1 } with ⟨result, s'⟩
    rw [hprep] at hp hnext
    -- the version that is drawn is used up either way
    have hdrawn : Edited s { s with nextCommitVersion := s.nextCommitVersion + 1 } :=
      .frame rfl rfl rfl rfl
    have hs : Prepared s s' :=
      ⟨hdrawn.trans hp.edited, hp.wal, hp.file, hp.version,
        Nat.le_trans (Nat.le_succ _) hp.nextCommitVersion, hp.read⟩
    cases result with
    | error e => exact .refused e hs rfl rfl (fun _ => rfl) (.inl ⟨rfl, hfile⟩)
    | ok changes =>
      refine enqueued_append hfile hpoison hs ?_ ?_ hnext ?_ io
      · rfl
      · rfl
      · simp only [hprep]

def Leads (g : GroupCommit V) (i : Nat) : Prop :=
  ∃ c, g.calls[i]? = some c ∧ c.phase = .leading

/-- What the second critical section can come to, with `front` the log before the batch. -/
inductive Drained (g : GroupCommit V) (persistent : Bool) (front rest : List UInt8) (s : MVStore V)
    (leader : Nat) : GroupCommit V × MVStore V → Prop where
  /-- only a leader drains -/
  | idle (hleads : ¬ g.Leads leader) : Drained g persistent front rest s leader (g, s)
  | applied {items : List (PendingCommit V × CommitOutcome)} (hleads : g.Leads leader)
      (hitems : items.map Prod.fst = g.queue.pending)
      (hdurable : ∀ p ∈ items, ∀ message, p.2 ≠ .error (message, false)) :
      Drained g persistent front rest s leader (g.finish leader items true, applyAll s g.queue.pending)
  | failed {poisoned : Option String} {wal : WalManager} (message : String) (hleads : g.Leads leader)
      (hfile : poisoned = g.queue.poisoned ∧ wal.file = WalManager.onDisk persistent front ∨
        poisoned ≠ none ∧ ∃ torn, wal.file = WalManager.onDisk persistent (front ++ torn) ∧
          (torn = [] ∨ torn = rest)) :
      Drained g persistent front rest s leader
        ({ g with queue := { g.queue with poisoned }, wal }.finish leader
          (g.queue.pending.map fun item => (item, .error (message, false))) false, s)

theorem drain_drained (hfile : g.wal.file = WalManager.onDisk persistent (front ++ rest))
    (hoffset : g.Leads leader → persistent = true → g.queue.batchStartOffset = some front.length)
    (s : MVStore V) (io : DrainIo) :
    Drained g persistent front rest s leader (g.drain s leader io) := by
  unfold drain
  split
  · rename_i completed hcall
    have hleads : g.Leads leader := ⟨_, hcall, rfl⟩
    cases g.wal.syncForCommit io.sync with
    | ok _ =>
      refine .applied hleads ?_ fun p hp message heq => ?_
      · refine ext_getElem? fun i => ?_
        rw [getElem?_map, getElem?_mapIdx]
        cases g.queue.pending[i]? <;> rfl
      · obtain ⟨i, hi, rfl⟩ := mem_mapIdx.mp hp
        simp only [appliedOutcome] at heq
        split at heq <;> cases heq
    | error e =>
      have hstart : persistent = true → g.queue.batchStartOffset.getD 0 = front.length := by
        intro hp
        rw [hoffset hleads hp, Option.getD_some]
      simp only [cutBack]
      rcases WalManager.tryTruncateTo_cases hfile hstart io.truncate with
        ⟨wal, heq, hcut⟩ | ⟨e', wal, torn, heq, htorn, hpart⟩
      · rw [heq]
        simp only
        cases wal.trySync io.resync with
        | ok _ =>
          have hfailed : g.queue.poisoned = g.queue.poisoned ∧
              wal.file = WalManager.onDisk persistent front := ⟨rfl, hcut⟩
          exact .failed e.display hleads (.inl hfailed)
        | error e' =>
          exact .failed e.display hleads
            (.inr ⟨by simp, [], by rw [append_nil]; exact hcut, Or.inl rfl⟩)
      · rw [heq]
        exact .failed e.display hleads (.inr ⟨by simp, torn, htorn, hpart⟩)
  · rename_i hnot
    refine .idle fun hleads => ?_
    obtain ⟨⟨phase, completed⟩, hc, hphase⟩ := hleads
    cases hphase
    exact hnot completed hc

/-! ## Leadership -/

structure Led (g : GroupCommit V) : Prop where
  busy : ∀ i, g.Leads i → g.queue.leader = true ∧ g.queue.pending ≠ []
  someone : g.queue.leader = true → ∃ i, g.Leads i
  flag : g.queue.pending ≠ [] → g.queue.leader = true
  one : ∀ i j, g.Leads i → g.Leads j → i = j
  own : ∀ i, g.Leads i → i ∈ g.queue.pending.map PendingCommit.caller

theorem led_new (bc : Bincode (WalRecord V)) (s : MVStore V) (persistent sync : Bool) :
    (new bc s persistent sync).Led where
  busy i := by
    rintro ⟨c, hc, _⟩
    cases hc
  someone h := by cases h
  flag h := absurd rfl h
  one i j := by
    rintro ⟨c, hc, _⟩
    cases hc
  own i := by
    rintro ⟨c, hc, _⟩
    cases hc

theorem leads_concat (g g' : GroupCommit V) {call : CommitCall} (hcalls : g'.calls = g.calls ++ [call])
    (i : Nat) : g'.Leads i ↔ g.Leads i ∨ i = g.calls.length ∧ call.phase = .leading := by
  unfold Leads
  rw [hcalls, getElem?_concat]
  split_ifs with hi
  · rw [hi, getElem?_eq_none (Nat.le_refl _)]
    simp
  · simp [hi]

theorem Led.enqueued (h : g.Led) (he : Enqueued bc g persistent file s txId prep p) : p.1.Led := by
  cases he with
  | @refused queue wal s' e hs hpending hleader hoffset hfile =>
    have hleads : ∀ i, ({ g with queue, wal }.refuse e : GroupCommit V).Leads i ↔ g.Leads i := by
      intro i
      rw [leads_concat g _ rfl]
      simp
    refine ⟨fun i hi => ?_, fun hl => ?_, fun hp => ?_, fun i j hi hj => ?_, fun i hi => ?_⟩
    · have hb := h.busy i ((hleads i).mp hi)
      exact ⟨hleader.trans hb.1, fun hp => hb.2 (hpending ▸ hp)⟩
    · obtain ⟨i, hi⟩ := h.someone (hleader ▸ hl)
      exact ⟨i, (hleads i).mpr hi⟩
    · exact hleader.trans (h.flag fun hn => hp (hpending.trans hn))
    · exact h.one i j ((hleads i).mp hi) ((hleads j).mp hj)
    · show i ∈ queue.pending.map PendingCommit.caller
      rw [hpending]
      exact h.own i ((hleads i).mp hi)
  | @queued record wal s' hs hclean htx hversion hnext hchanges hfile =>
    have hleads := leads_concat g (g.queued record wal) rfl
    have hne : (g.queued record wal).queue.pending ≠ [] := by
      simp [GroupCommit.queued]
    refine ⟨fun i _ => ⟨rfl, hne⟩, fun _ => ?_, fun _ => rfl, fun i j hi hj => ?_, fun i hi => ?_⟩
    · -- the queue has a leader, or the caller has become it
      cases hl : g.queue.leader with
      | true =>
        obtain ⟨i, hi⟩ := h.someone hl
        exact ⟨i, (hleads i).mpr (.inl hi)⟩
      | false => exact ⟨g.calls.length, (hleads _).mpr (.inr ⟨rfl, by simp [hl]⟩)⟩
    · cases hl : g.queue.leader with
      | true =>
        have hold : ∀ i, (g.queued record wal).Leads i → g.Leads i := by
          intro i hi
          refine ((hleads i).mp hi).resolve_right fun hnew => ?_
          have hphase := hnew.2
          simp only [hl, if_true] at hphase
          cases hphase
        exact h.one i j (hold i hi) (hold j hj)
      | false =>
        have hnew : ∀ i, (g.queued record wal).Leads i → i = g.calls.length := by
          intro i hi
          rcases (hleads i).mp hi with hold | hnew
          · rw [(h.busy i hold).1] at hl
            cases hl
          · exact hnew.1
        rw [hnew i hi, hnew j hj]
    · show i ∈ (g.queue.pending ++ [_]).map PendingCommit.caller
      rw [map_append, mem_append]
      rcases (hleads i).mp hi with hold | hnew
      · exact .inl (h.own i hold)
      · exact .inr (mem_singleton.mpr hnew.1)

/-! ## The cells of the callers -/

/-- The outcome that call `i` finds in its cell. -/
def cell (calls : List CommitCall) (i : Nat) : Option CommitOutcome :=
  calls[i]?.bind CommitCall.completed

theorem length_deliver (items : List (PendingCommit V × CommitOutcome)) (calls : List CommitCall) :
    (deliver calls items).length = calls.length := by
  induction items generalizing calls with
  | nil => rfl
  | cons p items ih =>
    rw [deliver, foldl_cons, ← deliver, ih, length_modify]

variable {items : List (PendingCommit V × CommitOutcome)}

theorem deliver_other {i : Nat} (hi : i ∉ items.map (·.1.caller)) (calls : List CommitCall) :
    (deliver calls items)[i]? = calls[i]? := by
  induction items generalizing calls with
  | nil => rfl
  | cons p items ih =>
    rw [map_cons, mem_cons, not_or] at hi
    rw [deliver, foldl_cons, ← deliver, ih hi.2, getElem?_modify_ne _ _ (Ne.symm hi.1)]

theorem deliver_caller
    (hcallers : (items.map (·.1.caller)).Nodup) {p : PendingCommit V × CommitOutcome} (hp : p ∈ items)
    (calls : List CommitCall) : (deliver calls items)[p.1.caller]? =
      calls[p.1.caller]?.map fun c => { c with completed := some p.2 } := by
  induction items generalizing calls with
  | nil => cases hp
  | cons q items ih =>
    rw [map_cons, nodup_cons] at hcallers
    rw [deliver, foldl_cons, ← deliver]
    rcases mem_cons.mp hp with rfl | htail
    · rw [deliver_other hcallers.1, getElem?_modify_eq, Option.map_eq_map]
    · have hne : q.1.caller ≠ p.1.caller := by
        intro heq
        exact hcallers.1 (heq ▸ mem_map_of_mem htail)
      rw [ih hcallers.2 htail, getElem?_modify_ne _ _ hne]

theorem deliver_phase (items : List (PendingCommit V × CommitOutcome)) (calls : List CommitCall)
    (i : Nat) :
    (deliver calls items)[i]?.map CommitCall.phase = calls[i]?.map CommitCall.phase := by
  induction items generalizing calls with
  | nil => rfl
  | cons p items ih =>
    rw [deliver, foldl_cons, ← deliver, ih, getElem?_modify]
    split_ifs with h
    · cases calls[i]? <;> rfl
    · cases calls[i]? <;> rfl

theorem leads_iff {i : Nat} :
    g.Leads i ↔ g.calls[i]?.map CommitCall.phase = some .leading := by
  rw [Option.map_eq_some_iff]
  rfl

theorem finish_phase (g : GroupCommit V) (leader : Nat) (items : List (PendingCommit V × CommitOutcome))
    (applied : Bool) (i : Nat) :
    (g.finish leader items applied).calls[i]?.map CommitCall.phase =
      if leader = i then g.calls[i]?.map fun _ => .waiting else g.calls[i]?.map CommitCall.phase := by
  have hphase := deliver_phase items g.calls i
  simp only [finish, getElem?_modify]
  split_ifs with h
  · rw [Option.map_eq_map, Option.map_map]
    cases hd : (deliver g.calls items)[i]? <;> cases hc : g.calls[i]? <;> simp_all
  · rw [id_map', hphase]

theorem finish_leads {i : Nat} {applied : Bool} :
    (g.finish leader items applied).Leads i ↔ g.Leads i ∧ i ≠ leader := by
  rw [leads_iff, leads_iff, finish_phase]
  split_ifs with h
  · cases g.calls[i]? <;> simp [h]
  · simp [Ne.symm h]

theorem finish_cell (g : GroupCommit V) (leader : Nat) (items : List (PendingCommit V × CommitOutcome))
    (applied : Bool) (i : Nat) :
    cell (g.finish leader items applied).calls i = cell (deliver g.calls items) i := by
  simp only [cell, finish, getElem?_modify]
  split_ifs with h
  · cases (deliver g.calls items)[i]? <;> rfl
  · rw [id_map']

theorem Led.finish (h : g.Led) (hleads : g.Leads leader) (g' : GroupCommit V)
    (hcalls : g'.calls = g.calls) (items : List (PendingCommit V × CommitOutcome)) (applied : Bool) :
    (g'.finish leader items applied).Led := by
  have hnone : ∀ i, ¬ (g'.finish leader items applied).Leads i := by
    intro i hi
    obtain ⟨hlead, hne⟩ := finish_leads.mp hi
    rw [leads_iff, hcalls, ← leads_iff] at hlead
    exact hne (h.one i leader hlead hleads)
  refine ⟨fun i hi => absurd hi (hnone i), fun hl => ?_, fun hp => absurd rfl hp,
    fun i _ hi => absurd hi (hnone i), fun i hi => absurd hi (hnone i)⟩
  cases hl

theorem Led.drained (h : g.Led) (hd : Drained g persistent front rest s leader p) : p.1.Led := by
  cases hd with
  | idle hleads => exact h
  | applied hleads hitems hdurable => exact h.finish hleads _ rfl _ _
  | @failed poisoned wal message hleads hfile =>
    exact h.finish hleads { g with queue := { g.queue with poisoned }, wal } rfl _ _

/-! ## One drain and one outcome for each record -/

end GroupCommit

def Drain.callers (d : Drain V) : List Nat := d.items.map (·.1.caller)

namespace GroupCommit

variable {bc : Bincode (WalRecord V)} {g : GroupCommit V} {persistent : Bool}
  {file front rest : List UInt8} {s : MVStore V} {txId leader : Nat} {prep : Preparation V}
  {p : GroupCommit V × MVStore V}

/-- What the leaders have taken out of the queue so far, with the outcomes. -/
def drained (g : GroupCommit V) : List (PendingCommit V × CommitOutcome) :=
  g.drains.flatMap Drain.items

/-- Everything that has been put into the queue, in the order of its arrival. -/
def arrivals (g : GroupCommit V) : List (PendingCommit V) :=
  g.drained.map Prod.fst ++ g.queue.pending

/-- Each accepted call has put one record into the queue, and its cell holds the outcome of the drain
that took it. -/
structure Tracked (g : GroupCommit V) : Prop where
  bound : ∀ x ∈ g.arrivals, x.caller < g.calls.length
  once : (g.arrivals.map PendingCommit.caller).Nodup
  accepted : ∀ i c, g.calls[i]? = some c →
    (i ∈ g.arrivals.map PendingCommit.caller ↔ ∀ e, c.phase ≠ .refused e)
  untold : ∀ x ∈ g.queue.pending, cell g.calls x.caller = none
  told : ∀ p ∈ g.drained, cell g.calls p.1.caller = some p.2

theorem tracked_new (bc : Bincode (WalRecord V)) (s : MVStore V) (persistent sync : Bool) :
    (new bc s persistent sync).Tracked where
  bound x hx := by cases hx
  once := nodup_nil
  accepted i c hc := by cases hc
  untold x hx := by cases hx
  told p hp := by cases hp

theorem cell_concat {calls : List CommitCall} {call : CommitCall} (hcall : call.completed = none)
    (i : Nat) : cell (calls ++ [call]) i = cell calls i := by
  rw [cell, getElem?_concat, cell]
  split_ifs with hi
  · rw [hi, getElem?_eq_none (Nat.le_refl _), Option.bind_some, hcall, Option.bind_none]
  · rfl

theorem refuse_arrivals {queue : CommitQueue V} (hpending : queue.pending = g.queue.pending)
    (wal : WalManager) (e : H2Error) :
    ({ g with queue, wal }.refuse e : GroupCommit V).arrivals = g.arrivals := by
  simp only [arrivals, GroupCommit.drained, refuse, hpending]

theorem queued_arrivals (g : GroupCommit V) (record : WalRecord V) (wal : WalManager) :
    (g.queued record wal).arrivals = g.arrivals ++ [⟨record, g.calls.length⟩] := by
  simp only [arrivals, GroupCommit.drained, GroupCommit.queued, append_assoc]

theorem Tracked.fresh (h : g.Tracked) :
    g.calls.length ∉ g.arrivals.map PendingCommit.caller := by
  intro hmem
  obtain ⟨x, hx, heq⟩ := mem_map.mp hmem
  exact absurd heq (Nat.ne_of_lt (h.bound x hx))

theorem Tracked.enqueued (h : g.Tracked) (he : Enqueued bc g persistent file s txId prep p) :
    p.1.Tracked := by
  cases he with
  | @refused queue wal s' e hs hpending hleader hoffset hfile =>
    have harrivals := refuse_arrivals hpending wal e
    refine ⟨fun x hx => ?_, ?_, fun i c hc => ?_, fun x hx => ?_, fun p hp => ?_⟩
    · rw [harrivals] at hx
      simpa [refuse] using Nat.lt_succ_of_lt (h.bound x hx)
    · rw [harrivals]
      exact h.once
    · rw [harrivals]
      rw [refuse, getElem?_concat] at hc
      split_ifs at hc with hi
      · cases hc
        rw [hi]
        exact ⟨fun hmem => absurd hmem h.fresh, fun hne => absurd rfl (hne e)⟩
      · exact h.accepted i c hc
    · exact (cell_concat rfl _).trans (h.untold x (hpending ▸ hx))
    · exact (cell_concat rfl _).trans (h.told p hp)
  | @queued record wal s' hs hclean htx hversion hnext hchanges hfile =>
    have harrivals := queued_arrivals g record wal
    refine ⟨fun x hx => ?_, ?_, fun i c hc => ?_, fun x hx => ?_, fun p hp => ?_⟩
    · rw [harrivals] at hx
      rcases mem_append.mp hx with hx | hx
      · simpa [GroupCommit.queued] using Nat.lt_succ_of_lt (h.bound x hx)
      · rw [mem_singleton.mp hx]
        simp [GroupCommit.queued]
    · rw [harrivals, map_append, map_singleton, ← concat_eq_append]
      exact (nodup_concat _ _).mpr ⟨h.fresh, h.once⟩
    · rw [harrivals, map_append, mem_append, map_singleton, mem_singleton]
      rw [GroupCommit.queued, getElem?_concat] at hc
      by_cases hi : i = g.calls.length
      · rw [if_pos hi] at hc
        cases hc
        refine ⟨fun _ e => ?_, fun _ => Or.inr hi⟩
        cases g.queue.leader <;> simp
      · rw [if_neg hi] at hc
        rw [or_iff_left hi]
        exact h.accepted i c hc
    · refine (cell_concat rfl _).trans ?_
      rcases mem_append.mp hx with hx | hx
      · exact h.untold x hx
      · rw [mem_singleton.mp hx, cell, getElem?_eq_none (Nat.le_refl _), Option.bind_none]
    · exact (cell_concat rfl _).trans (h.told p hp)

variable {items : List (PendingCommit V × CommitOutcome)}

theorem finish_arrivals {g' : GroupCommit V} (hdrains : g'.drains = g.drains)
    (hitems : items.map Prod.fst = g.queue.pending) (leader : Nat) (applied : Bool) :
    (g'.finish leader items applied).arrivals = g.arrivals := by
  simp only [arrivals, GroupCommit.drained, finish, hdrains, flatMap_append,
    flatMap_singleton, map_append, append_nil, hitems]

theorem map_fst_failed (pending : List (PendingCommit V)) (message : String) :
    (pending.map fun item => (item, (.error (message, false) : CommitOutcome))).map Prod.fst =
      pending := by
  rw [map_map]
  exact map_id _

theorem Drained.arrivals (hd : Drained g persistent front rest s leader p) :
    p.1.arrivals = g.arrivals := by
  cases hd with
  | idle hleads => rfl
  | applied hleads hitems hdurable => exact finish_arrivals rfl hitems leader true
  | failed message hleads hfile =>
    exact finish_arrivals rfl (map_fst_failed g.queue.pending message) leader false

theorem Tracked.finish (h : g.Tracked) (hleads : g.Leads leader) (g' : GroupCommit V)
    (hcalls : g'.calls = g.calls) (hdrains : g'.drains = g.drains)
    (hitems : items.map Prod.fst = g.queue.pending)
    (applied : Bool) : (g'.finish leader items applied).Tracked := by
  have harrivals := finish_arrivals hdrains hitems leader applied
  have hcallers : items.map (·.1.caller) = g.queue.pending.map PendingCommit.caller := by
    rw [← hitems, map_map]
    rfl
  have honce := h.once
  rw [arrivals, map_append, nodup_append] at honce
  refine ⟨fun x hx => ?_, ?_, fun i c hc => ?_, fun x hx => absurd hx not_mem_nil,
    fun p hp => ?_⟩
  · rw [harrivals] at hx
    simpa [GroupCommit.finish, length_deliver, hcalls] using h.bound x hx
  · rw [harrivals]
    exact h.once
  · rw [harrivals]
    have hphase := finish_phase g' leader items applied i
    rw [hc, hcalls] at hphase
    cases hold : g.calls[i]? with
    | none =>
      rw [hold] at hphase
      split_ifs at hphase <;> cases hphase
    | some old =>
      rw [h.accepted i old hold]
      rw [hold] at hphase
      split_ifs at hphase with hi
      · -- the leader was not refused, and it is not refused now
        obtain ⟨call, hcall, hleading⟩ := hleads
        rw [hi, hold] at hcall
        cases hcall
        have hwaiting : c.phase = .waiting := Option.some.inj hphase
        simp [hleading, hwaiting]
      · rw [Option.some.inj hphase]
  · rw [finish_cell, hcalls]
    simp only [GroupCommit.drained, GroupCommit.finish, hdrains, flatMap_append,
      flatMap_singleton, mem_append] at hp
    rcases hp with hp | hp
    · have hother : p.1.caller ∉ items.map (·.1.caller) := by
        rw [hcallers]
        intro hmem
        exact honce.2.2 _ (mem_map_of_mem (mem_map_of_mem hp)) _ hmem rfl
      rw [cell, deliver_other hother]
      exact h.told p hp
    · have hlt : p.1.caller < g.calls.length := by
        refine h.bound p.1 (mem_append_right _ ?_)
        rw [← hitems]
        exact mem_map_of_mem hp
      rw [cell, deliver_caller (hcallers ▸ honce.2.1) hp, getElem?_eq_getElem hlt]
      rfl

theorem Tracked.drained (h : g.Tracked) (hd : Drained g persistent front rest s leader p) :
    p.1.Tracked := by
  cases hd with
  | idle hleads => exact h
  | applied hleads hitems hdurable => exact h.finish hleads _ rfl rfl hitems _
  | @failed poisoned wal message hleads hfile =>
    exact h.finish hleads { g with queue := { g.queue with poisoned }, wal } rfl rfl
      (map_fst_failed g.queue.pending message) _

/-- The record of the call is in the queue, once, and no leader has taken it. -/
def Waits (g : GroupCommit V) (i : Nat) : Prop :=
  (g.queue.pending.map PendingCommit.caller).count i = 1 ∧ ∀ d ∈ g.drains, i ∉ d.callers

/-- One leader has taken the record of the call, once, and has handed out this outcome for it. -/
def TakenOnce (g : GroupCommit V) (i : Nat) (outcome : CommitOutcome) : Prop :=
  i ∉ g.queue.pending.map PendingCommit.caller ∧
  ∃ before d after, g.drains = before ++ d :: after ∧ (∀ d' ∈ before ++ after, i ∉ d'.callers) ∧
    d.callers.count i = 1 ∧ ∃ item, item.caller = i ∧ (item, outcome) ∈ d.items

theorem TakenOnce.mem_drained {i : Nat} {outcome : CommitOutcome}
    (h : g.TakenOnce i outcome) : ∃ item, item.caller = i ∧ (item, outcome) ∈ g.drained := by
  obtain ⟨_, before, d, after, hdrains, _, _, item, hi, hitem⟩ := h
  refine ⟨item, hi, mem_flatMap.mpr ⟨d, ?_, hitem⟩⟩
  rw [hdrains]
  exact mem_append_right _ mem_cons_self

theorem mem_callers_drained {d : Drain V} (hd : d ∈ g.drains) {i : Nat}
    (hi : i ∈ d.callers) : i ∈ (g.drained.map Prod.fst).map PendingCommit.caller := by
  obtain ⟨p, hp, rfl⟩ := mem_map.mp hi
  exact mem_map_of_mem (mem_map_of_mem (mem_flatMap.mpr ⟨d, hd, hp⟩))

theorem Tracked.served (h : g.Tracked) {i : Nat} {call : CommitCall} (hcall : g.calls[i]? = some call)
    (haccepted : ∀ e, call.phase ≠ .refused e) :
    call.completed = none ∧ g.Waits i ∨
      ∃ outcome, call.completed = some outcome ∧ g.TakenOnce i outcome := by
  have hcell : cell g.calls i = call.completed := by rw [cell, hcall, Option.bind_some]
  have honce := h.once
  rw [arrivals, map_append, nodup_append] at honce
  obtain ⟨hdrained, hpending, hapart⟩ := honce
  have hi := (h.accepted i call hcall).mpr haccepted
  rw [arrivals, map_append, mem_append] at hi
  rcases hi with hi | hi
  · -- the drain that took it, among those before and after
    have hnotPending : i ∉ g.queue.pending.map PendingCommit.caller := fun hp => hapart i hi i hp rfl
    obtain ⟨item, hitem, rfl⟩ := mem_map.mp hi
    obtain ⟨p, hp, rfl⟩ := mem_map.mp hitem
    obtain ⟨d, hd, hpd⟩ := mem_flatMap.mp hp
    obtain ⟨before, after, hdrains⟩ := append_of_mem hd
    have hall :
        (before.flatMap Drain.callers ++ (d.callers ++ after.flatMap Drain.callers)).Nodup := by
      have heq : (g.drained.map Prod.fst).map PendingCommit.caller =
          before.flatMap Drain.callers ++ (d.callers ++ after.flatMap Drain.callers) := by
        rw [GroupCommit.drained, hdrains, map_map]
        simp only [flatMap_append, flatMap_cons, map_append, map_flatMap]
        rfl
      exact heq ▸ hdrained
    have hcaller : p.1.caller ∈ d.callers := mem_map_of_mem hpd
    rw [nodup_append] at hall
    obtain ⟨_, hrest, hbefore⟩ := hall
    rw [nodup_append] at hrest
    obtain ⟨hown, _, hafter⟩ := hrest
    refine .inr ⟨p.2, hcell.symm.trans (h.told p hp), hnotPending, before, d, after, hdrains,
      fun d' hd' hmem => ?_, count_eq_one_of_mem hown hcaller, p.1, rfl, hpd⟩
    rcases mem_append.mp hd' with hd' | hd'
    · exact hbefore _ (mem_flatMap.mpr ⟨d', hd', hmem⟩) _ (mem_append_left _ hcaller) rfl
    · exact hafter _ hcaller _ (mem_flatMap.mpr ⟨d', hd', hmem⟩) rfl
  · refine .inl ⟨?_, count_eq_one_of_mem hpending hi, fun d hd hmem => ?_⟩
    · obtain ⟨x, hx, rfl⟩ := mem_map.mp hi
      exact hcell.symm.trans (h.untold x hx)
    · exact hapart i (mem_callers_drained hd hmem) i hi rfl

end GroupCommit

end H2Database.Mvstore
