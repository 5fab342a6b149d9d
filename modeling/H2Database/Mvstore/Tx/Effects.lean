import H2Database.Mvstore.Tx.Interleaving

/-!
# What a call does to the keys

The specification of each part of a call of a transaction on the level of `MVStore.read`: rollback,
commit, and one round of the loop of a write.
-/

namespace H2Database.Mvstore

open Reasoning List Option

/-! ## Stored values -/

namespace MVStore

/-- The versioned value under a key; nothing committed and no mark where there is none. -/
def versioned (s : MVStore Stored) (n : String) (k : Key) : VersionedValue :=
  match s.read n k with
  | some (.versioned vv) => vv
  | _ => ⟨none, []⟩

def AllVersioned (s : MVStore Stored) : Prop :=
  ∀ n k stored, s.read n k = some stored → ∃ vv, stored = .versioned vv

theorem AllVersioned.read {s : MVStore Stored} (h : s.AllVersioned) (n : String) (k : Key) :
    s.read n k = none ∨ s.read n k = some (.versioned (s.versioned n k)) := by
  cases hr : s.read n k with
  | none => exact .inl rfl
  | some stored =>
    obtain ⟨vv, rfl⟩ := h n k stored hr
    right
    rw [versioned, hr]

theorem versioned_congr {s s' : MVStore Stored} (h : s'.read = s.read) :
    s'.versioned = s.versioned := by
  funext n k
  rw [versioned, versioned, h]

theorem AllVersioned.congr {s s' : MVStore Stored} (hv : s.AllVersioned) (h : s'.read = s.read) :
    s'.AllVersioned := by
  unfold AllVersioned
  rw [h]
  exact hv

end MVStore

namespace VersionedValue

/-- What a rollback of the transaction leaves under a key of its undo log. -/
def afterRollback (txId : Nat) : Option Stored → Option Stored
  | some (.versioned vv) =>
    if vv.activeTxId = some txId then
      if vv.committedHistory.isEmpty then none else some (.versioned vv.rollbackUncommitted)
    else some (.versioned vv)
  | stored => stored

/-- What a commit of the transaction leaves under a key of its undo log. -/
def afterCommit (txId commitVersion : Nat) : Option Stored → Option Stored
  | some (.versioned vv) =>
    if vv.activeTxId = some txId then some (.versioned (vv.commitUncommitted commitVersion))
    else some (.versioned vv)
  | stored => stored

theorem afterRollback_idem (txId : Nat) (stored : Option Stored) :
    afterRollback txId (afterRollback txId stored) = afterRollback txId stored := by
  cases stored with
  | none => rfl
  | some old =>
    cases old with
    | raw _ => rfl
    | versioned vv =>
      simp only [afterRollback]
      split_ifs with hown hempty
      · -- the key is gone: there is nothing to take back the second time
        rfl
      · -- the value has no mark any more, hence none of the transaction's
        simp [rollbackUncommitted, activeTxId]
      · simp only [if_neg hown]

variable {stored : Option Stored}

theorem afterRollback_versioned {txId : Nat}
    (h : ∀ st, stored = some st → ∃ vv, st = .versioned vv) {st : Stored}
    (hst : afterRollback txId stored = some st) : ∃ vv, st = .versioned vv := by
  cases stored with
  | none => cases hst
  | some old =>
    obtain ⟨vv, rfl⟩ := h old rfl
    simp only [afterRollback] at hst
    split_ifs at hst <;> cases hst <;> exact ⟨_, rfl⟩

theorem afterCommit_versioned {txId cv : Nat}
    (h : ∀ st, stored = some st → ∃ vv, st = .versioned vv) {st : Stored}
    (hst : afterCommit txId cv stored = some st) : ∃ vv, st = .versioned vv := by
  cases stored with
  | none => cases hst
  | some old =>
    obtain ⟨vv, rfl⟩ := h old rfl
    simp only [afterCommit] at hst
    split_ifs at hst <;> cases hst <;> exact ⟨_, rfl⟩

end VersionedValue

/-! ## Rollback -/

namespace MVStore

def OnlyMaps (s s' : MVStore Stored) : Prop := s' = { s with maps := s'.maps }

theorem onlyMaps_openMap (s : MVStore Stored) (name : String) : OnlyMaps s (s.openMap name).2 := by
  unfold openMap
  split <;> rfl

theorem onlyMaps_update (s : MVStore Stored) (id : Nat) (f : MVMap Stored → MVMap Stored) :
    OnlyMaps s (s.update id f) := rfl

theorem OnlyMaps.trans {s s' s'' : MVStore Stored} (h : OnlyMaps s s') (h' : OnlyMaps s' s'') :
    OnlyMaps s s'' := by
  unfold OnlyMaps at *
  rw [h', h]

theorem OnlyMaps.foldl {α : Type} {f : MVStore Stored → α → MVStore Stored}
    (hf : ∀ s a, OnlyMaps s (f s a)) (as : List α) (s : MVStore Stored) :
    OnlyMaps s (as.foldl f s) := by
  induction as generalizing s with
  | nil => rfl
  | cons a as ih => exact (hf s a).trans (ih _)

end MVStore

namespace Transaction

open MVStore VersionedValue

theorem edited_undo (txId : Nat) (s : MVStore Stored) (log : UndoLogEntry) :
    Edited s (undo txId s log) := by
  have hopen := Edited.openMap s log.mapName
  unfold undo
  simp only
  -- absent, undecodable, or decoded
  split
  · exact hopen
  · split
    · exact hopen
    · split_ifs
      · exact hopen.trans (Edited.change _ _ log.key none)
      · exact hopen.trans (Edited.change _ _ log.key (some _))
      · exact hopen

theorem onlyMaps_undo (txId : Nat) (s : MVStore Stored) (log : UndoLogEntry) :
    OnlyMaps s (undo txId s log) := by
  have hopen := onlyMaps_openMap s log.mapName
  unfold undo
  simp only
  split
  · exact hopen
  · split
    · exact hopen
    · split_ifs
      · exact hopen.trans (onlyMaps_update _ _ _)
      · exact hopen.trans (onlyMaps_update _ _ _)
      · exact hopen

variable {s : MVStore Stored}

theorem read_undo (hv : s.AllVersioned) (txId : Nat) (log : UndoLogEntry) (n : String) (k : Key) :
    (undo txId s log).read n k =
      if n = log.mapName ∧ k = log.key then afterRollback txId (s.read n k) else s.read n k := by
  -- it is enough to know what stands under the key of the entry afterwards
  suffices h : ∃ c, (undo txId s log).read n k =
      (if n = log.mapName ∧ k = log.key then c else s.read n k) ∧
        c = afterRollback txId (s.read log.mapName log.key) by
    obtain ⟨c, hc, rfl⟩ := h
    rw [hc]
    refine ite_congr rfl (fun hnk => ?_) fun _ => rfl
    rw [hnk.1, hnk.2]
  -- both shapes of the outcome: a change of the key, and only an opened map
  have hchange := fun c => read_change (find_openMap_self s log.mapName) log.key c n k
  have hsame : ∃ c, (s.openMap log.mapName).2.read n k =
      (if n = log.mapName ∧ k = log.key then c else s.read n k) ∧
        c = s.read log.mapName log.key := by
    refine ⟨_, ?_, rfl⟩
    rw [read_openMap]
    split_ifs with hnk
    · rw [hnk.1, hnk.2]
    · rfl
  simp only [read_openMap] at hchange
  unfold undo
  simp only [mapGet_openMap]
  rcases hv.read log.mapName log.key with hnone | hsome
  · rw [hnone] at hsame ⊢
    exact hsame
  · rw [hsome] at hsame ⊢
    generalize s.versioned log.mapName log.key = vv at hsame
    simp only [Stored.fromBytes, afterRollback]
    by_cases hown : vv.activeTxId = some txId
    · simp only [if_pos hown]
      -- `undo` asks after the value without the mark, `afterRollback` after the value with it;
      -- the history is the same
      by_cases hempty : vv.committedHistory.isEmpty = true
      · rw [if_pos hempty, if_pos (show vv.rollbackUncommitted.committedHistory.isEmpty = true from
          hempty)]
        exact ⟨none, hchange none, rfl⟩
      · rw [if_neg hempty, if_neg (show ¬ vv.rollbackUncommitted.committedHistory.isEmpty = true from
          hempty)]
        exact ⟨_, hchange (some _), rfl⟩
    · simp only [if_neg hown]
      exact hsame

theorem allVersioned_undo (hv : s.AllVersioned) (txId : Nat) (log : UndoLogEntry) :
    (undo txId s log).AllVersioned := by
  intro n k stored hst
  rw [read_undo hv] at hst
  split_ifs at hst
  · exact afterRollback_versioned (hv n k) hst
  · exact hv n k stored hst

theorem read_undos (hv : s.AllVersioned) (txId : Nat) (logs : List UndoLogEntry) (n : String) (k : Key) :
    (logs.foldl (undo txId) s).read n k =
      if ⟨n, k⟩ ∈ logs then afterRollback txId (s.read n k) else s.read n k := by
  induction logs generalizing s with
  | nil => rfl
  | cons log logs ih =>
    rw [foldl_cons, ih (allVersioned_undo hv txId log), read_undo hv]
    -- an entry that stands in the log twice is taken back twice, which is once
    by_cases hlog : n = log.mapName ∧ k = log.key
    · have heq : (⟨n, k⟩ : UndoLogEntry) = log := by rw [hlog.1, hlog.2]
      rw [if_pos hlog, afterRollback_idem, ite_self, if_pos (heq ▸ mem_cons_self)]
    · have hne : (⟨n, k⟩ : UndoLogEntry) ≠ log := by
        rintro rfl
        exact hlog ⟨rfl, rfl⟩
      rw [if_neg hlog]
      simp only [mem_cons, hne, false_or]

/-! ## Commit -/

def commitChange (txId commitVersion : Nat) (s : MVStore Stored) (log : UndoLogEntry) :
    List (WalChange Stored) :=
  match s.read log.mapName log.key with
  | some (.versioned vv) =>
    if vv.activeTxId = some txId then
      [⟨log.mapName, log.key, some (.versioned (vv.commitUncommitted commitVersion))⟩]
    else []
  | _ => [⟨log.mapName, log.key, none⟩]

theorem commitChange_congr {s' : MVStore Stored} (h : s'.read = s.read) (txId cv : Nat) :
    commitChange txId cv s' = commitChange txId cv s := by
  funext log
  rw [commitChange, commitChange, h]

def openMaps (logs : List UndoLogEntry) (s : MVStore Stored) : MVStore Stored :=
  logs.foldl (fun s log => (s.openMap log.mapName).2) s

theorem read_openMaps (logs : List UndoLogEntry) (s : MVStore Stored) :
    (openMaps logs s).read = s.read := by
  induction logs generalizing s with
  | nil => rfl
  | cons log logs ih => exact (ih _).trans (read_openMap s log.mapName)

theorem prepareEntry_eq (hv : s.AllVersioned) (txId cv : Nat) (log : UndoLogEntry) :
    prepareEntry txId cv s log = (.ok (commitChange txId cv s log), (s.openMap log.mapName).2) := by
  unfold prepareEntry commitChange
  simp only [mapGet_openMap]
  rcases hv.read log.mapName log.key with hnone | hsome
  · rw [hnone]
  · rw [hsome]
    simp only [Stored.fromBytes]
    split_ifs <;> rfl

theorem prepare_eq (hv : s.AllVersioned) (txId : Nat) (logs : List UndoLogEntry) (cv : Nat) :
    prepare txId logs cv s = (.ok (logs.flatMap (commitChange txId cv s)), openMaps logs s) := by
  induction logs generalizing s with
  | nil => rfl
  | cons log logs ih =>
    -- opening the map of the entry changes nothing that the later entries read
    have hopen := read_openMap s log.mapName
    simp only [prepare, prepareEntry_eq hv, ih (hv.congr hopen), commitChange_congr hopen]
    rfl

theorem mem_commitChange {txId cv : Nat} (hv : s.AllVersioned) {log : UndoLogEntry} {c : WalChange Stored}
    (h : c ∈ commitChange txId cv s log) :
    c = ⟨log.mapName, log.key, afterCommit txId cv (s.read log.mapName log.key)⟩ := by
  unfold commitChange at h
  rcases hv.read log.mapName log.key with hnone | hsome
  · -- nothing stands under the key: the commit logs a removal
    rw [hnone] at h ⊢
    exact mem_singleton.mp h
  · rw [hsome] at h ⊢
    simp only at h
    split_ifs at h with hown
    · rw [mem_singleton.mp h]
      simp only [afterCommit, if_pos hown]
    · cases h

theorem afterCommit_of_commitChange_nil {txId cv : Nat} {log : UndoLogEntry}
    (h : commitChange txId cv s log = []) :
    afterCommit txId cv (s.read log.mapName log.key) = s.read log.mapName log.key := by
  unfold commitChange at h
  split at h
  · rename_i vv hvv
    split_ifs at h with hown
    rw [hvv]
    exact if_neg hown
  · cases h

theorem lastChange_commitChanges (hv : s.AllVersioned) (txId cv : Nat) (logs : List UndoLogEntry) (n : String)
    (k : Key) :
    (lastChange n k (logs.flatMap (commitChange txId cv s))).getD (s.read n k) =
      if ⟨n, k⟩ ∈ logs then afterCommit txId cv (s.read n k) else s.read n k := by
  cases hlast : lastChange n k (logs.flatMap (commitChange txId cv s)) with
  | some value =>
    -- every change that is logged for the key is the same, so the last one is as good as any
    obtain ⟨log, hlog, hc⟩ := mem_flatMap.mp (exists_of_lastChange hlast)
    have hc' := mem_commitChange hv hc
    obtain ⟨rfl, rfl, rfl⟩ : n = log.mapName ∧ k = log.key ∧
        value = afterCommit txId cv (s.read log.mapName log.key) := by
      cases hc'
      exact ⟨rfl, rfl, rfl⟩
    rw [getD_some, if_pos hlog]
  | none =>
    rw [getD_none]
    split_ifs with hlog
    · -- an entry without a change: the transaction has lost its mark there
      have hnil : commitChange txId cv s ⟨n, k⟩ = [] := by
        rw [eq_nil_iff_forall_not_mem]
        intro c hc
        have hc' := mem_commitChange hv hc
        rw [hc'] at hc
        exact lastChange_eq_none.mp hlast _ (mem_flatMap.mpr ⟨⟨n, k⟩, hlog, hc⟩)
      exact (afterCommit_of_commitChange_nil hnil).symm
    · rfl

/-- A store after the commit of a transaction with this undo log. -/
structure Committed (s s' : MVStore Stored) (txId : Nat) (logs : List UndoLogEntry) : Prop where
  edited : Edited s s'
  version : s'.version = s.nextCommitVersion + 1
  nextCommitVersion : s'.nextCommitVersion = s.nextCommitVersion + 1
  wal : s'.wal = s.wal ++ [{
    txId := txId
    commitVersion := s.nextCommitVersion + 1
    changes := logs.flatMap (commitChange txId (s.nextCommitVersion + 1) s) }]
  read : ∀ n k, s'.read n k =
    if ⟨n, k⟩ ∈ logs then afterCommit txId (s.nextCommitVersion + 1) (s.read n k) else s.read n k

theorem edited_openMaps (logs : List UndoLogEntry) (s : MVStore Stored) :
    Edited s (openMaps logs s) := by
  refine Edited.foldl (fun s log => ?_) logs s
  exact Edited.openMap s log.mapName

theorem onlyMaps_openMaps (logs : List UndoLogEntry) (s : MVStore Stored) :
    OnlyMaps s (openMaps logs s) := by
  refine OnlyMaps.foldl (fun s log => ?_) logs s
  exact onlyMaps_openMap s log.mapName

theorem onlyMaps_applyWalChanges (changes : List (WalChange Stored)) (s : MVStore Stored) :
    OnlyMaps s (changes.foldl applyWalChange s) := by
  refine OnlyMaps.foldl (fun s c => ?_) changes s
  exact (onlyMaps_openMap s c.mapName).trans (onlyMaps_update _ _ _)

def numbered (s : MVStore Stored) (logs : List UndoLogEntry) : MVStore Stored :=
  openMaps logs { s with nextCommitVersion := s.nextCommitVersion + 1 }

theorem edited_numbered (s : MVStore Stored) (logs : List UndoLogEntry) :
    Edited s (numbered s logs) := by
  have hframe : Edited s { s with nextCommitVersion := s.nextCommitVersion + 1 } :=
    .frame rfl rfl rfl rfl
  exact hframe.trans (edited_openMaps logs _)

theorem commitWith_eq (hv : s.AllVersioned) (txId : Nat) (logs : List UndoLogEntry) (sync : H2Result Unit) :
    s.commitWith txId (prepare txId logs) sync = (numbered s logs).commitRecord {
      txId := txId
      commitVersion := s.nextCommitVersion + 1
      changes := logs.flatMap (commitChange txId (s.nextCommitVersion + 1) s) } sync := by
  unfold commitWith
  simp only
  have hv' : AllVersioned { s with nextCommitVersion := s.nextCommitVersion + 1 } := hv
  rw [prepare_eq hv']
  rfl

theorem commitWith_ok (hv : s.AllVersioned) (txId : Nat) (logs : List UndoLogEntry) :
    ∃ s', s.commitWith txId (prepare txId logs) (.ok ()) = (.ok (), s') ∧
      Committed s s' txId logs := by
  refine ⟨_, commitWith_eq hv txId logs (.ok ()), ?_⟩
  -- the record is appended before its changes are applied
  set changes := logs.flatMap (commitChange txId (s.nextCommitVersion + 1) s)
  set logged : MVStore Stored := { numbered s logs with wal := (numbered s logs).wal ++
    [{ txId := txId, commitVersion := s.nextCommitVersion + 1, changes := changes }] }
  have hmaps : OnlyMaps logged (changes.foldl applyWalChange logged) :=
    onlyMaps_applyWalChanges changes logged
  have hnumbered : OnlyMaps { s with nextCommitVersion := s.nextCommitVersion + 1 }
      (numbered s logs) := onlyMaps_openMaps logs _
  have hwal : (numbered s logs).wal = s.wal := by rw [hnumbered]
  refine ⟨?_, rfl, ?_, ?_, fun n k => ?_⟩
  · -- the maps are opened, the record is logged, the changes are applied, the version is published
    have hlogged : Edited (numbered s logs) logged := .frame rfl rfl rfl rfl
    refine ((edited_numbered s logs).trans hlogged).trans ?_
    exact (Edited.foldl Edited.applyWalChange changes logged).trans (.frame rfl rfl rfl rfl)
  · change (changes.foldl applyWalChange logged).nextCommitVersion = _
    rw [hmaps]
    change (numbered s logs).nextCommitVersion = _
    rw [hnumbered]
  · change (changes.foldl applyWalChange logged).wal = _
    rw [hmaps]
    change (numbered s logs).wal ++ _ = _
    rw [hwal]
  · change (changes.foldl applyWalChange logged).read n k = _
    have hread : logged.read n k = s.read n k :=
      congrFun (congrFun (read_openMaps logs { s with nextCommitVersion := _ }) n) k
    rw [read_applyWalChanges, hread, lastChange_commitChanges hv]

structure Refused (s s' : MVStore Stored) : Prop where
  edited : Edited s s'
  version : s'.version = s.version
  nextCommitVersion : s'.nextCommitVersion = s.nextCommitVersion + 1
  wal : s'.wal = s.wal
  read : s'.read = s.read

theorem commitWith_error (hv : s.AllVersioned) (txId : Nat) (logs : List UndoLogEntry) (e : H2Error) :
    ∃ s', s.commitWith txId (prepare txId logs) (.error e) = (.error e, s') ∧ Refused s s' := by
  refine ⟨_, commitWith_eq hv txId logs (.error e), ?_⟩
  have hnumbered : OnlyMaps { s with nextCommitVersion := s.nextCommitVersion + 1 }
      (numbered s logs) := onlyMaps_openMaps logs _
  change Refused s (numbered s logs)
  exact ⟨edited_numbered s logs, by rw [hnumbered], by rw [hnumbered], by rw [hnumbered],
    read_openMaps logs _⟩

inductive Round (t : Transaction) (ts : TransactionStore) (call : WriteCall) :
    Progress × Transaction × TransactionStore → Prop where
  /-- the value cannot be decoded, or there is nothing to remove -/
  | unchanged (r : H2Result Bool) (hr : r ≠ .ok true) : Round t ts call (.returned r, t, ts)
  /-- another open transaction has marked the key -/
  | sleeps (w : Waiting) (lockManager : LockManager) (vv : VersionedValue) (hcall : w.call = call)
      (hvv : existing ts call = .ok (some vv)) (hblock : t.blocker ts (some vv) = some w.holder) :
      Round t ts call (.waits, { t with waiting := some w }, { ts with lockManager })
  /-- a cycle of waiters, or no time left -/
  | gaveUp (e : H2Error) (lockManager : LockManager) :
      Round t ts call (.returned (.error e), (t.rollback { ts with lockManager }).2)
  | marks (vv : Option VersionedValue) (hvv : existing ts call = .ok vv)
      (hblock : t.blocker ts vv = none)
      (hvisible : call.value.isSome ∨
        ((vv.getD ⟨none, []⟩).readVisible t.txId t.snapshotVersion).isSome) :
      Round t ts call (t.mark ts call (vv.getD ⟨none, []⟩))

theorem waitFor_round {t : Transaction} {ts : TransactionStore} {call : WriteCall}
    {vv : VersionedValue} {holder : Nat} (hvv : existing ts call = .ok (some vv))
    (hblock : t.blocker ts (some vv) = some holder) (remaining : Option Nat) :
    Round t ts call (t.waitFor ts call holder remaining) := by
  unfold waitFor
  -- a cycle, no time left, or a wait
  split
  · exact .gaveUp _ ts.lockManager
  · simp only
    split_ifs with hzero
    · exact .gaveUp _ _
    · exact .sleeps ⟨call, holder, _, _⟩ _ vv rfl hvv hblock

theorem putOnce_round (t : Transaction) (ts : TransactionStore) {call : WriteCall}
    (hvalue : call.value.isSome) (remaining : Option Nat) :
      Round t ts call (t.putOnce ts call remaining) := by
  unfold putOnce
  cases hvv : existing ts call with
  | error e => exact .unchanged _ (by simp)
  | ok vv =>
    simp only
    cases hblock : t.blocker ts vv with
    | none => exact .marks vv hvv hblock (.inl hvalue)
    | some holder =>
      cases vv with
      | none => cases hblock
      | some vv => exact waitFor_round hvv hblock remaining

theorem removeOnce_round (t : Transaction) (ts : TransactionStore) (call : WriteCall)
    (remaining : Option Nat) : Round t ts call (t.removeOnce ts call remaining) := by
  unfold removeOnce
  cases hvv : existing ts call with
  | error e => exact .unchanged _ (by simp)
  | ok vv =>
    cases vv with
    | none => exact .unchanged _ (by simp)
    | some vv =>
      simp only
      cases hblock : t.blocker ts (some vv) with
      | some holder => exact waitFor_round hvv hblock remaining
      | none =>
        simp only
        -- a key that the snapshot does not see is left without a mark
        split_ifs with hvis
        · exact .unchanged _ (by simp)
        · refine .marks (some vv) hvv hblock (.inr ?_)
          rw [getD_some, isSome_iff_ne_none]
          exact fun hnone => hvis (isNone_iff_eq_none.mpr hnone)

theorem writeOnce_round (t : Transaction) (ts : TransactionStore) (call : WriteCall)
    (remaining : Option Nat) : Round t ts call (t.writeOnce ts call remaining) := by
  unfold writeOnce
  split_ifs with hvalue
  · exact putOnce_round t ts hvalue remaining
  · exact removeOnce_round t ts call remaining

end Transaction

end H2Database.Mvstore
