import H2Database.Storage.Arrival

/-!
# Reads at a version

A node answers a read from its maps and the pending records at or below the version of the read.  The
answer is the fold of the records up to that version as long as nothing newer that concerns the key has
been applied, and, for a point read, as long as the last pending record of the key is a write of the key
itself: `get_key` passes over truncations, which `scan_range` carries out.
-/

namespace H2Database

open Mvstore List Nat

namespace LogRecord

/-- The record changes the key of the map; a put without a value changes nothing. -/
def alters (rec : LogRecord) (name : String) (key : Key) : Bool :=
  rec.writes name key && !(decide (rec.opType = .put) && rec.value.isNone)

def settles (rec : LogRecord) : Bool :=
  match rec.opType with
  | .put => rec.value.isSome
  | .delete => true
  | _ => false

theorem redo_of_not_alters {name : String} {key : Key} {rec : LogRecord}
    (h : rec.alters name key = false) (val : Option (List UInt8)) : redo name key val rec = val := by
  unfold alters at h
  unfold redo
  cases hw : rec.writes name key with
  | false => exact if_neg Bool.false_ne_true
  | true =>
    rw [hw, Bool.true_and, Bool.not_eq_false', Bool.and_eq_true] at h
    have hop := of_decide_eq_true h.1
    have hval := Option.isNone_iff_eq_none.mp h.2
    rw [if_pos rfl, hop, hval]
    rfl

theorem redo_of_settles {name : String} {key : Key} {rec : LogRecord}
    (hwrites : rec.writes name key = true) (h : rec.settles = true) (val : Option (List UInt8)) :
    redo name key val rec = rec.value.bind fun v => if rec.opType = .put then some v else none := by
  unfold settles at h
  rw [redo, if_pos hwrites]
  cases hop : rec.opType with
  | put =>
    rw [hop] at h
    obtain ⟨v, hv⟩ := Option.isSome_iff_exists.mp h
    rw [hv]
    rfl
  | delete => cases rec.value <;> rfl
  | _ => simp [hop] at h

end LogRecord

namespace Storage.SmartStorageNode

open Reasoning

/-! ## Records with LSN 0 -/

/-- LSN 0 stands for no record at all; the node never applies such a record and never lays it over a
read. -/
def numbered (node : SmartStorageNode) : SmartStorageNode :=
  { node with walBuffer := node.walBuffer.filter fun rec => 0 < rec.lsn }

variable {records : List LogRecord} {node : SmartStorageNode} {mapName : String}

theorem filter_numbered {p : LogRecord → Bool} (hp : ∀ rec, p rec = true → 0 < rec.lsn) :
    (records.filter fun rec => 0 < rec.lsn).filter p = records.filter p := by
  rw [filter_filter]
  refine filter_congr fun rec _ => ?_
  cases h : p rec with
  | false => rfl
  | true => simp [hp rec h]

theorem numbered_unapplied (node : SmartStorageNode) (readVersion : Lsn) :
    node.numbered.unapplied readVersion = node.unapplied readVersion := by
  refine filter_numbered fun rec h => ?_
  exact lt_of_le_of_lt (zero_le _) (of_decide_eq_true h).1

theorem numbered_overlay (node : SmartStorageNode) (readVersion : Lsn) :
    node.numbered.overlay readVersion = node.overlay readVersion := by
  unfold overlay
  rw [numbered_unapplied]
  rfl

theorem numbered_logsToApply (node : SmartStorageNode) :
    node.numbered.logsToApply = node.logsToApply := by
  refine filter_numbered fun rec h => ?_
  exact lt_of_le_of_lt (zero_le _) (of_decide_eq_true h).1

theorem numbered_materializePending (node : SmartStorageNode) :
    node.numbered.materializePending.2 = node.materializePending.2.numbered := by
  unfold materializePending
  rw [numbered_logsToApply]
  split_ifs <;> first | rfl | contradiction

theorem maxLsn_numbered (start : Lsn) (records : List LogRecord) :
    maxLsn start (records.filter fun rec => 0 < rec.lsn) = maxLsn start records := by
  unfold maxLsn
  refine foldl_filter_of_idle (fun m rec hzero => ?_) _ _
  have hlsn : rec.lsn = 0 := le_zero.mp (not_lt.mp (of_decide_eq_false hzero))
  rw [hlsn, max_zero]

theorem numbered_appendLogs {token : FencingToken} (hok : (node.appendLogs records token).1.isOk = true) :
    (node.numbered.appendLogs (records.filter fun rec => 0 < rec.lsn) token).1.isOk = true ∧
    (node.numbered.appendLogs (records.filter fun rec => 0 < rec.lsn) token).2 =
      (node.appendLogs records token).2.numbered := by
  unfold appendLogs at hok ⊢
  simp only [numbered, maxLsn_numbered] at hok ⊢
  split_ifs at hok ⊢ with hoff hlow
  · cases hok
  · cases hok
  · exact ⟨rfl, by simp only [filter_append]⟩

/-! ## Records in the order of their LSNs -/

/-- A batch that is accepted is in the order of its LSNs and after all that has arrived. -/
def ArrivesAscending (node : SmartStorageNode) : NodeAction → Prop
  | .appendLogs records token => (node.appendLogs records token).1.isOk = true →
      (node.walBuffer ++ records).Pairwise fun a b => a.lsn < b.lsn
  | _ => True

structure Ascending (node : SmartStorageNode) : Prop where
  logged : ∃ done todo, Logged node.numbered done todo
  increasing : node.walBuffer.Pairwise fun a b => a.lsn < b.lsn
  applied : node.appliedLsn = 0 ∨ ∃ rec ∈ node.walBuffer, rec.lsn = node.appliedLsn

theorem ascending_new (nodeId : Nat) : Ascending (.new nodeId) :=
  ⟨⟨[], [], logged_new nodeId⟩, List.Pairwise.nil, Or.inl rfl⟩

theorem Ascending.appendLogs (h : Ascending node) {token : FencingToken}
    (hin : node.ArrivesAscending (.appendLogs records token)) :
    Ascending (node.appendLogs records token).2 := by
  cases hok : (node.appendLogs records token).1.isOk with
  | false =>
    rw [appendLogs_of_error hok]
    exact h
  | true =>
    have hasc := hin hok
    have hold := (pairwise_append.mp hasc).2.2
    have hbuffer : (node.appendLogs records token).2.walBuffer = node.walBuffer ++ records := by
      rw [appendLogs_walBuffer, hok, if_pos rfl]
    have happlied : (node.appendLogs records token).2.appliedLsn = node.appliedLsn := by
      unfold SmartStorageNode.appendLogs
      split_ifs <;> rfl
    obtain ⟨done, todo, hlog⟩ := h.logged
    obtain ⟨hok', heq⟩ := numbered_appendLogs hok
    -- what has been applied is in the buffer, before the batch
    have hnew : ∀ rec ∈ records.filter fun rec => 0 < rec.lsn, node.appliedLsn < rec.lsn := by
      intro rec hrec
      obtain ⟨hmem, hpos⟩ := mem_filter.mp hrec
      rcases h.applied with hzero | ⟨old, hmemOld, heqOld⟩
      · rw [hzero]
        exact of_decide_eq_true hpos
      · rw [← heqOld]
        exact hold old hmemOld rec hmem
    have hlog' := hlog.append hok' hnew
    rw [heq] at hlog'
    refine ⟨⟨done, _, hlog'⟩, hbuffer ▸ hasc, ?_⟩
    · rw [happlied, hbuffer]
      refine h.applied.imp id ?_
      rintro ⟨rec, hrec, heqRec⟩
      exact ⟨rec, mem_append_left _ hrec, heqRec⟩

theorem Ascending.materializePending (h : Ascending node) :
    Ascending node.materializePending.2 := by
  have hbuffer := (Aside.materialized node).walBuffer
  obtain ⟨done, todo, hlog⟩ := h.logged
  refine ⟨?_, hbuffer ▸ h.increasing, ?_⟩
  · rw [← numbered_materializePending]
    rcases hlog.aside (.materialized _) with hlog | hlog
    · exact ⟨_, _, hlog⟩
    · exact ⟨_, _, hlog⟩
  · rw [hbuffer]
    unfold SmartStorageNode.materializePending
    split_ifs
    · exact h.applied
    · exact h.applied
    · rcases maxLsn_cases node.appliedLsn node.logsToApply with heq | ⟨rec, hrec, heq⟩
      · simp only [heq]
        exact h.applied
      · exact .inr ⟨rec, mem_of_mem_filter hrec, heq.symm⟩

theorem Ascending.opened (h : Ascending node) (mapName : String) :
    Ascending { node with materializedStore := (node.materializedStore.openMap mapName).2 } := by
  obtain ⟨done, todo, hlog⟩ := h.logged
  exact ⟨⟨done, todo, hlog.opened mapName⟩, h.increasing, h.applied⟩

theorem Ascending.step (h : Ascending node) (action : NodeAction)
    (hin : node.ArrivesAscending action) : Ascending (node.step action) := by
  cases action with
  | appendLogs records token => exact h.appendLogs hin
  | acquireLease token =>
    obtain ⟨done, todo, hlog⟩ := h.logged
    obtain ⟨current, heq⟩ := node.acquireLease_eq token
    change Ascending (node.acquireLease token).2
    rw [heq]
    exact ⟨⟨done, todo, hlog.buffer, hlog.flushed, hlog.applied, hlog.pending, hlog.materialized⟩,
      h.increasing, h.applied⟩
  | materialize => exact h.materializePending
  | setState state =>
    obtain ⟨done, todo, hlog⟩ := h.logged
    exact ⟨⟨done, todo, hlog.buffer, hlog.flushed, hlog.applied, hlog.pending, hlog.materialized⟩,
      h.increasing, h.applied⟩
  | read mapName key readVersion =>
    change Ascending (node.getKey mapName key readVersion).2
    unfold getKey
    split_ifs
    · exact h
    · exact h.opened mapName
    · exact h.opened mapName

def redoneAt (log : List LogRecord) (mapName : String) (key : Key) (readVersion : Lsn) :
    Option (List UInt8) :=
  (log.filter fun rec => rec.lsn ≤ readVersion).foldl (LogRecord.redo mapName key) none

/-- No record that changes the key has been applied though it is newer than the version, and none has
LSN 0. -/
def AppliedUpTo (node : SmartStorageNode) (mapName : String) (key : Key) (readVersion : Lsn) : Prop :=
  ∀ rec ∈ node.walBuffer, rec.alters mapName key = true →
    0 < rec.lsn ∧ (readVersion < rec.lsn → node.appliedLsn < rec.lsn)

/-- The last pending record of the key up to the version is a put with a value or a delete. -/
def LastSettles (node : SmartStorageNode) (mapName : String) (key : Key) (readVersion : Lsn) : Prop :=
  ∀ rec, ((node.unapplied readVersion).filter fun rec => rec.writes mapName key).getLast? = some rec →
    rec.settles = true

variable {key : Key}

theorem Ascending.redoneAt (h : Ascending node) {readVersion : Lsn}
    (hup : node.AppliedUpTo mapName key readVersion) :
    redoneAt node.walBuffer mapName key readVersion =
      (node.overlay readVersion).foldl (LogRecord.redo mapName key)
        (node.materializedStore.read mapName key) := by
  obtain ⟨done, todo, hlog⟩ := h.logged
  have hread : node.materializedStore.read mapName key =
      done.foldl (LogRecord.redo mapName key) none := hlog.materialized mapName key
  have hbuffer : (node.walBuffer.filter fun rec => 0 < rec.lsn) = done ++ todo := hlog.buffer
  -- records of LSN 0 do nothing to the key
  have hzero : (node.walBuffer.filter fun rec => rec.lsn ≤ readVersion).foldl
      (LogRecord.redo mapName key) none =
      ((done ++ todo).filter fun rec => rec.lsn ≤ readVersion).foldl
        (LogRecord.redo mapName key) none := by
    rw [← hbuffer, filter_comm]
    refine (foldl_filter_of_mem_idle (fun rec hrec hnot val => ?_) _).symm
    refine LogRecord.redo_of_not_alters ?_ val
    refine Bool.eq_false_iff.mpr fun halters => ?_
    exact of_decide_eq_false hnot (hup rec (mem_of_mem_filter hrec) halters).1
  -- nor do the records that have been applied though they are newer
  have hdone : (done.filter fun rec => rec.lsn ≤ readVersion).foldl (LogRecord.redo mapName key) none =
      done.foldl (LogRecord.redo mapName key) none := by
    refine foldl_filter_of_mem_idle (fun rec hrec hnot val => ?_) _
    refine LogRecord.redo_of_not_alters ?_ val
    refine Bool.eq_false_iff.mpr fun halters => ?_
    have hmem : rec ∈ node.walBuffer := by
      refine mem_of_mem_filter (p := fun rec => 0 < rec.lsn) ?_
      rw [hbuffer]
      exact mem_append_left _ hrec
    have hlt := (hup rec hmem halters).2 (not_le.mp (of_decide_eq_false hnot))
    exact not_lt.mpr (hlog.applied rec hrec) hlt
  rw [SmartStorageNode.redoneAt, hzero, filter_append, foldl_append, hdone, ← hread,
    ← numbered_overlay, hlog.overlay]

theorem overlayKey_of_settles {rec : LogRecord} (hw : rec.writes mapName key = true)
    (hsettles : rec.settles = true) (val : Option (List UInt8)) :
    ([rec].filter fun rec => rec.mapName = mapName ∧ rec.key = key).foldl overlayKey val =
      rec.value.bind fun v => if rec.opType = .put then some v else none := by
  unfold LogRecord.writes at hw
  unfold LogRecord.settles at hsettles
  cases hop : rec.opType with
  | put =>
    rw [hop] at hw hsettles
    obtain ⟨v, hv⟩ := Option.isSome_iff_exists.mp hsettles
    simp only [Bool.and_eq_true, decide_eq_true_eq] at hw
    rw [filter_singleton, hw.1, hw.2, hv]
    simp [overlayKey, hop, hv]
  | delete =>
    rw [hop] at hw
    simp only [Bool.and_eq_true, decide_eq_true_eq] at hw
    rw [filter_singleton, hw.1, hw.2]
    cases hv : rec.value <;> simp [overlayKey, hop]
  | _ => simp [hop] at hsettles

theorem overlayKey_of_not_writes {rec : LogRecord} (hw : rec.writes mapName key = false)
    (val : Option (List UInt8)) :
    ([rec].filter fun rec => rec.mapName = mapName ∧ rec.key = key).foldl overlayKey val = val := by
  rw [filter_singleton]
  by_cases hkey : rec.mapName = mapName ∧ rec.key = key
  · unfold LogRecord.writes at hw
    rw [hkey.1, hkey.2] at hw ⊢
    cases hop : rec.opType <;> simp [hop] at hw <;> simp [overlayKey, hop]
  · simp [hkey]

theorem foldl_overlayKey
    (hlast : ∀ rec, (records.filter fun rec => rec.writes mapName key).getLast? = some rec →
      rec.settles = true) (val : Option (List UInt8)) :
    (records.filter fun rec => rec.mapName = mapName ∧ rec.key = key).foldl overlayKey val =
      records.foldl (LogRecord.redo mapName key) val := by
  -- from the end: the records after the last one of the key do nothing
  induction records using List.reverseRecOn with
  | nil => rfl
  | append_singleton records rec ih =>
    rw [filter_append, foldl_append, foldl_append, foldl_cons, foldl_nil]
    cases hw : rec.writes mapName key with
    | true =>
      have hsettles : rec.settles = true := by
        refine hlast rec ?_
        rw [filter_append, filter_singleton, hw]
        exact List.getLast?_concat
      rw [LogRecord.redo_of_settles hw hsettles]
      exact overlayKey_of_settles hw hsettles _
    | false =>
      have hrest : ∀ rec, (records.filter fun rec => rec.writes mapName key).getLast? = some rec →
          rec.settles = true := by
        intro rec' hrec'
        refine hlast rec' ?_
        rw [filter_append, filter_singleton, hw]
        simpa using hrec'
      rw [LogRecord.redo_of_not_writes _ _ hw, ← ih hrest]
      exact overlayKey_of_not_writes hw _

/-- A read at a version finds what the records up to the version have left, as long as nothing newer has
been applied to what it looks at, and, for a point read, the last pending record is one of the key. -/
theorem read_eq_redoneAt (nodeId : Nat) (actions : List NodeAction)
    (hasc : Meets step ArrivesAscending (new nodeId) actions)
    (hon : (runs step (new nodeId) actions).state ≠ .offline) (mapName : String)
    (readVersion : Lsn) :
    let node := runs step (new nodeId) actions
    let log := ((new nodeId).arrivals actions).flatten
    (∀ key, node.AppliedUpTo mapName key readVersion → node.LastSettles mapName key readVersion →
      (node.getKey mapName key readVersion).1 = .ok (redoneAt log mapName key readVersion)) ∧
    ∀ startKey endKey, (∀ key, inRange startKey endKey key = true →
        node.AppliedUpTo mapName key readVersion) →
      ∃ entries, (node.scanRange mapName startKey endKey readVersion).1 = .ok entries ∧
        Page.SortedEntries entries ∧ ∀ key, Page.leafGet entries key =
          if inRange startKey endKey key then redoneAt log mapName key readVersion else none := by
  intro node log
  have h : Ascending node :=
    invariant_runs (fun _ action h hin => h.step action hin) (ascending_new nodeId) hasc
  have hlog : node.walBuffer = log := walBuffer_runs (new nodeId) actions
  rw [← hlog]
  refine ⟨fun key hup hlast => ?_, fun startKey endKey hup => ?_⟩
  · rw [h.redoneAt hup, getKey_eq hon, foldl_overlayKey fun rec hrec => ?_]
    unfold overlay at hrec
    split_ifs at hrec
    · exact hlast rec hrec
    · cases hrec
  · obtain ⟨merged, hscan, hsorted, hget⟩ := scanRange_eq hon mapName startKey endKey readVersion
    refine ⟨_, hscan, Page.sortedEntries_filter hsorted _, fun key => ?_⟩
    rw [Page.leafGet_filter hsorted, hget]
    split_ifs with hin
    · exact (h.redoneAt (hup key hin)).symm
    · rfl

def putTwice : List NodeAction :=
  [.appendLogs [.put 1 0 1 "a" [1] [10] 0] 1, .materialize,
    .appendLogs [.put 2 1 2 "a" [1] [20] 0] 1]

theorem read_eq_redoneAt_putTwice :
    Meets step ArrivesAscending (new 1) putTwice ∧
      ((runs step (new 1) putTwice).getKey "a" [1] 1).1 = .ok (some [10]) ∧
      ((runs step (new 1) putTwice).getKey "a" [1] 2).1 = .ok (some [20]) := by
  have hasc : Meets step ArrivesAscending (new 1) putTwice :=
    ⟨fun _ => by decide, trivial, fun _ => by decide +kernel, trivial⟩
  have hup : ∀ v, 1 ≤ v → (runs step (new 1) putTwice).AppliedUpTo "a" [1] v := by
    intro v hv rec hrec _
    rw [show (runs step (new 1) putTwice).walBuffer =
      [.put 1 0 1 "a" [1] [10] 0, .put 2 1 2 "a" [1] [20] 0] from rfl] at hrec
    rw [show (runs step (new 1) putTwice).appliedLsn = 1 by decide +kernel]
    rcases mem_cons.mp hrec with rfl | hrec
    · exact ⟨by decide, fun hlt => absurd hlt (not_lt.mpr hv)⟩
    · rw [mem_singleton.mp hrec]
      exact ⟨by decide, fun _ => by decide⟩
  have hlast : ∀ v ∈ [1, 2], (runs step (new 1) putTwice).LastSettles "a" [1] v := by
    intro v hv rec hrec
    rcases mem_cons.mp hv with rfl | hv
    · rw [show ((runs step (new 1) putTwice).unapplied 1).filter (fun rec => rec.writes "a" [1]) = []
        by decide +kernel] at hrec
      cases hrec
    · rw [mem_singleton.mp hv, show ((runs step (new 1) putTwice).unapplied 2).filter
        (fun rec => rec.writes "a" [1]) = [.put 2 1 2 "a" [1] [20] 0] by decide +kernel] at hrec
      cases hrec
      rfl
  have hread := fun v => (read_eq_redoneAt 1 putTwice hasc (by decide +kernel) "a" v).1 [1]
  exact ⟨hasc, hread 1 (hup 1 (by decide)) (hlast 1 (by decide)),
    hread 2 (hup 2 (by decide)) (hlast 2 (by decide))⟩

def appliedTwice : List NodeAction := putTwice ++ [.materialize]

def truncated : List NodeAction :=
  [.appendLogs [.put 1 0 1 "a" [1] [10] 0, ⟨2, 1, 1, .truncateMap, "a", [], none, 0⟩] 1]

/-- A read at LSN 1 finds the value of LSN 2 once that has been applied, and a point read misses the
truncation that a scan carries out. -/
theorem read_depends_on_materialization :
    Meets step ArrivesAscending (new 1) appliedTwice ∧
    ((runs step (new 1) appliedTwice).getKey "a" [1] 1).1 = .ok (some [20]) ∧
    redoneAt ((new 1).arrivals appliedTwice).flatten "a" [1] 1 = some [10] ∧
    Meets step ArrivesAscending (new 1) truncated ∧
    ((runs step (new 1) truncated).getKey "a" [1] 2).1 = .ok (some [10]) ∧
    ((runs step (new 1) (truncated ++ [.materialize])).getKey "a" [1] 2).1 = .ok none ∧
    redoneAt ((new 1).arrivals truncated).flatten "a" [1] 2 = none := by
  refine ⟨⟨fun _ => by decide, trivial, fun _ => by decide +kernel, trivial, trivial⟩,
    by decide +kernel, by decide +kernel, ⟨fun _ => by decide, trivial⟩, by decide +kernel,
    by decide +kernel, by decide +kernel⟩

end Storage.SmartStorageNode

end H2Database
