import H2Database.Storage.Calls

/-!
# The log of a storage node

`redo` says what one record does to one key.  As long as every record that arrives is newer than what
has been applied, the buffer of a node is what its maps hold followed by what is pending, and a read is
the fold of both; `Logged` states this.
-/

namespace H2Database

open Mvstore List Nat

namespace LogRecord

def writes (rec : LogRecord) (name : String) (key : Key) : Bool :=
  decide (rec.mapName = name) &&
    match rec.opType with
    | .put | .delete => decide (rec.key = key)
    | .truncateMap | .dropMap => true
    | .commit | .rollback | .createMap => false

/-- The value of the key after the record; a put without a value is skipped. -/
def redo (name : String) (key : Key) (val : Option (List UInt8)) (rec : LogRecord) :
    Option (List UInt8) :=
  if rec.writes name key then
    match rec.opType with
    | .put => rec.value.or val
    | _ => none
  else val

theorem redo_of_not_writes {name : String} {key : Key} (val : Option (List UInt8)) (rec : LogRecord)
    (h : rec.writes name key = false) : redo name key val rec = val := by
  rw [redo, h]
  exact if_neg Bool.false_ne_true

end LogRecord

namespace Storage

open Reasoning

namespace SmartStorageNode

/-! ## Applying records -/

theorem read_applyRecord (store : MVStore (List UInt8)) (rec : LogRecord) (name : String)
    (key : Key) : (applyRecord store rec).read name key =
      LogRecord.redo name key (store.read name key) rec := by
  have hchange : ∀ c : Option (List UInt8),
      ((store.openMap rec.mapName).2.change (store.openMap rec.mapName).1 rec.key c).read name key =
        if rec.mapName = name ∧ rec.key = key then c else store.read name key := by
    intro c
    rw [MVStore.read_change (MVStore.find_openMap_self store rec.mapName), MVStore.read_openMap]
    simp only [eq_comm]
  have hclear : ((store.openMap rec.mapName).2.update (store.openMap rec.mapName).1
      MVMap.clear).read name key = if rec.mapName = name then none else store.read name key := by
    have h := MVStore.read_clearMap (store.openMap rec.mapName).2 rec.mapName name key
    rw [MVStore.clearMap, MVStore.find_openMap_self, MVStore.read_openMap] at h
    simp only [eq_comm (a := name)] at h
    exact h
  unfold applyRecord LogRecord.redo LogRecord.writes
  cases rec.opType with
  | put =>
    cases hv : rec.value with
    | none => simp
    | some val =>
      refine (hchange (some val)).trans ?_
      simp
  | delete =>
    refine (hchange none).trans ?_
    simp
  | truncateMap =>
    refine hclear.trans ?_
    simp
  | dropMap =>
    refine hclear.trans ?_
    simp
  | commit =>
    simp only [Bool.and_false, Bool.false_eq_true, if_false]
    exact congrFun (congrFun (MVStore.read_published store) name) key
  | rollback => simp
  | createMap => simp

theorem read_foldl_applyRecord (records : List LogRecord) (store : MVStore (List UInt8))
    (name : String) (key : Key) :
    (records.foldl applyRecord store).read name key =
      records.foldl (LogRecord.redo name key) (store.read name key) := by
  induction records generalizing store with
  | nil => rfl
  | cons rec records ih => rw [foldl_cons, foldl_cons, ih, read_applyRecord]

theorem le_maxLsn (start : Lsn) (records : List LogRecord) : start ≤ maxLsn start records := by
  induction records generalizing start with
  | nil => exact le_refl _
  | cons rec records ih => exact le_trans (le_max_left _ _) (ih (max start rec.lsn))

variable {records done todo : List LogRecord} {node : SmartStorageNode}

theorem lsn_le_maxLsn {rec : LogRecord} (h : rec ∈ records) (start : Lsn) :
    rec.lsn ≤ maxLsn start records := by
  induction records generalizing start with
  | nil => exact absurd h not_mem_nil
  | cons r records ih =>
    rcases mem_cons.mp h with rfl | h
    · exact le_trans (le_max_right _ _) (le_maxLsn _ records)
    · exact ih h _

theorem maxLsn_cases (start : Lsn) (records : List LogRecord) :
    maxLsn start records = start ∨ ∃ rec ∈ records, maxLsn start records = rec.lsn := by
  induction records generalizing start with
  | nil => exact .inl rfl
  | cons r records ih =>
    rcases ih (max start r.lsn) with heq | ⟨rec, hrec, heq⟩
    · rcases le_total start r.lsn with hle | hle
      · exact .inr ⟨r, mem_cons_self, heq.trans (max_eq_right hle)⟩
      · exact .inl (heq.trans (max_eq_left hle))
    · exact .inr ⟨rec, mem_cons_of_mem _ hrec, heq⟩

/-! ## Applied and pending records -/

/-- The records of `done` are in the maps, those of `todo` are not. -/
structure Logged (node : SmartStorageNode) (done todo : List LogRecord) : Prop where
  buffer : node.walBuffer = done ++ todo
  flushed : ∀ rec ∈ node.walBuffer, rec.lsn ≤ node.flushedLsn
  applied : ∀ rec ∈ done, rec.lsn ≤ node.appliedLsn
  pending : ∀ rec ∈ todo, node.appliedLsn < rec.lsn
  materialized : ∀ name key,
    node.materializedStore.read name key = done.foldl (LogRecord.redo name key) none

theorem logged_new (nodeId : Nat) : Logged (.new nodeId) [] [] where
  buffer := rfl
  flushed := fun _ h => absurd h not_mem_nil
  applied := fun _ h => absurd h not_mem_nil
  pending := fun _ h => absurd h not_mem_nil
  materialized := fun _ key => MVStore.read_of_find_none rfl key

theorem Logged.append (h : Logged node done todo) {token : FencingToken}
    (hok : (node.appendLogs records token).1.isOk = true)
    (hnew : ∀ rec ∈ records, node.appliedLsn < rec.lsn) :
    Logged (node.appendLogs records token).2 done (todo ++ records) := by
  unfold appendLogs at hok ⊢
  split_ifs at hok ⊢
  · cases hok
  · cases hok
  · refine ⟨?_, ?_, h.applied, ?_, h.materialized⟩
    · simp only [h.buffer, append_assoc]
    · intro rec hrec
      rcases mem_append.mp hrec with hold | hnew
      · exact le_trans (h.flushed rec hold) (le_maxLsn _ _)
      · exact lsn_le_maxLsn hnew _
    · exact forall_mem_append.mpr ⟨h.pending, hnew⟩

theorem acquireLease_eq (node : SmartStorageNode) (token : FencingToken) :
    ∃ current, (node.acquireLease token).2 = { node with currentFencingToken := current } := by
  unfold acquireLease
  split_ifs
  · exact ⟨node.currentFencingToken, rfl⟩
  · exact ⟨token, rfl⟩

theorem Logged.acquireLease (h : Logged node done todo) (token : FencingToken) :
    Logged (node.acquireLease token).2 done todo := by
  obtain ⟨current, heq⟩ := node.acquireLease_eq token
  rw [heq]
  exact ⟨h.buffer, h.flushed, h.applied, h.pending, h.materialized⟩

theorem appendLogs_walBuffer (node : SmartStorageNode) (records : List LogRecord)
    (token : FencingToken) : (node.appendLogs records token).2.walBuffer =
      node.walBuffer ++ if (node.appendLogs records token).1.isOk then records else [] := by
  unfold appendLogs
  by_cases hoff : node.state = .offline
  · rw [if_pos hoff]
    exact (append_nil _).symm
  · rw [if_neg hoff]
    by_cases hlt : token < node.currentFencingToken
    · rw [if_pos hlt]
      exact (append_nil _).symm
    · rw [if_neg hlt]
      rfl

theorem appendLogs_of_error {token : FencingToken} (h : (node.appendLogs records token).1.isOk = false) :
    (node.appendLogs records token).2 = node := by
  unfold appendLogs at h ⊢
  split_ifs at h ⊢
  · rfl
  · rfl
  · cases h

theorem Logged.logsToApply (h : Logged node done todo) : node.logsToApply = todo := by
  unfold SmartStorageNode.logsToApply
  rw [h.buffer, filter_append, filter_eq_nil_iff.mpr, nil_append,
    filter_eq_self.mpr]
  · intro rec hrec
    have hle := h.flushed rec (h.buffer ▸ mem_append_right _ hrec)
    exact decide_eq_true ⟨h.pending rec hrec, hle⟩
  · intro rec hrec hlt
    exact not_lt.mpr (h.applied rec hrec) (of_decide_eq_true hlt).1

theorem Logged.materializePending (h : Logged node done todo) (hon : node.state ≠ .offline) :
    Logged node.materializePending.2 (done ++ todo) [] := by
  have hlogs := h.logsToApply
  unfold SmartStorageNode.materializePending
  rw [if_neg hon]
  split_ifs with hle
  · -- nothing is flushed that has not been applied
    have hnil : todo = [] := by
      rw [eq_nil_iff_forall_not_mem]
      intro rec hrec
      have hfl := h.flushed rec (h.buffer ▸ mem_append_right _ hrec)
      exact not_lt.mpr (le_trans hfl hle) (h.pending rec hrec)
    subst hnil
    rw [append_nil]
    exact h
  · rw [hlogs]
    refine ⟨h.buffer.trans (append_nil _).symm, h.flushed, ?_,
      fun _ h => absurd h not_mem_nil, ?_⟩
    · intro rec hrec
      rcases mem_append.mp hrec with hold | hnew
      · exact le_trans (h.applied rec hold) (le_maxLsn _ _)
      · exact lsn_le_maxLsn hnew _
    · intro name key
      rw [read_foldl_applyRecord, h.materialized, foldl_append]

variable {node' : SmartStorageNode}

theorem Aside.walBuffer (h : Aside node node') :
    node'.walBuffer = node.walBuffer := by
  cases h with
  | same => rfl
  | state => rfl
  | materialized =>
    unfold materializePending
    split_ifs <;> rfl
  | opened => rfl

theorem Logged.opened (h : Logged node done todo) (mapName : String) :
    Logged { node with materializedStore := (node.materializedStore.openMap mapName).2 } done todo :=
  ⟨h.buffer, h.flushed, h.applied, h.pending, fun name key => by
    rw [MVStore.read_openMap]
    exact h.materialized name key⟩

theorem Logged.aside (ha : Aside node node') (h : Logged node done todo) :
    Logged node' done todo ∨ Logged node' (done ++ todo) [] := by
  cases ha with
  | same => exact .inl h
  | state => exact .inl ⟨h.buffer, h.flushed, h.applied, h.pending, h.materialized⟩
  | materialized =>
    by_cases hoff : node.state = .offline
    · left
      rw [SmartStorageNode.materializePending, if_pos hoff]
      exact h
    · exact .inr (h.materializePending hoff)
  | opened mapName => exact .inl (h.opened mapName)

def overlay (node : SmartStorageNode) (readVersion : Lsn) : List LogRecord :=
  if node.appliedLsn < readVersion then node.unapplied readVersion else []

theorem getKey_eq (hon : node.state ≠ .offline) (mapName : String) (key : Key) (readVersion : Lsn) :
    (node.getKey mapName key readVersion).1 =
      .ok (((node.overlay readVersion).filter fun rec => rec.mapName = mapName ∧ rec.key = key).foldl
        overlayKey (node.materializedStore.read mapName key)) := by
  unfold getKey overlay
  rw [if_neg hon]
  simp only [MVStore.mapGet_openMap]
  split_ifs with hlt
  · rfl
  · rfl

variable {merged : List (Entry Key (List UInt8))}

theorem overlayEntries_spec (hs : Page.SortedEntries merged) (rec : LogRecord) :
    Page.SortedEntries (overlayEntries merged rec) ∧ ∀ key,
      Page.leafGet (overlayEntries merged rec) key =
        LogRecord.redo rec.mapName key (Page.leafGet merged key) rec := by
  unfold overlayEntries LogRecord.redo LogRecord.writes
  cases rec.opType with
  | put =>
    cases rec.value with
    | none => exact ⟨hs, fun key => by simp⟩
    | some val =>
      refine ⟨Page.sortedEntries_leafPut hs _ _, fun key => ?_⟩
      rw [Page.leafGet_leafPut]
      simp [eq_comm]
  | delete =>
    refine ⟨Page.sortedEntries_leafRemove hs _, fun key => ?_⟩
    rw [Page.leafGet_leafRemove hs]
    simp [eq_comm]
  | truncateMap => exact ⟨List.Pairwise.nil, fun key => by simp; rfl⟩
  | dropMap => exact ⟨List.Pairwise.nil, fun key => by simp; rfl⟩
  | commit => exact ⟨hs, fun key => by simp⟩
  | rollback => exact ⟨hs, fun key => by simp⟩
  | createMap => exact ⟨hs, fun key => by simp⟩

theorem foldl_overlayEntries {mapName : String} (hmap : ∀ rec ∈ records, rec.mapName = mapName)
    (hs : Page.SortedEntries merged) :
    Page.SortedEntries (records.foldl overlayEntries merged) ∧ ∀ key,
      Page.leafGet (records.foldl overlayEntries merged) key =
        records.foldl (LogRecord.redo mapName key) (Page.leafGet merged key) := by
  induction records generalizing merged with
  | nil => exact ⟨hs, fun _ => rfl⟩
  | cons rec records ih =>
    obtain ⟨hs', hget⟩ := overlayEntries_spec hs rec
    obtain ⟨hsorted, hfold⟩ := ih (fun r hr => hmap r (mem_cons_of_mem _ hr)) hs'
    refine ⟨hsorted, fun key => ?_⟩
    rw [foldl_cons, foldl_cons, hfold, hget, hmap rec mem_cons_self]

theorem scanRange_eq (hon : node.state ≠ .offline) (mapName : String) (startKey endKey : Option Key)
    (readVersion : Lsn) :
    ∃ merged, (node.scanRange mapName startKey endKey readVersion).1 =
        .ok (merged.filter fun e => inRange startKey endKey e.key) ∧
      Page.SortedEntries merged ∧ ∀ key, Page.leafGet merged key =
        (node.overlay readVersion).foldl (LogRecord.redo mapName key)
          (node.materializedStore.read mapName key) := by
  set store := (node.materializedStore.openMap mapName).2 with hstore
  set map := (node.materializedStore.openMap mapName).1 with hmap
  set base := (store.maps.deref map).elim [] fun m => m.tree.scanAll with hbase
  have hsorted : Page.SortedEntries base := by
    rw [hbase]
    cases store.maps.deref map with
    | none => exact List.Pairwise.nil
    | some m => exact m.tree.sorted_scanAll
  have hget : ∀ key, Page.leafGet base key = node.materializedStore.read mapName key := by
    intro key
    rw [← MVStore.mapGet_openMap, ← hstore, ← hmap, hbase]
    cases store.maps.deref map with
    | none => rfl
    | some m => exact (MVTree.get_eq_leafGet m.tree key).symm
  set records := (node.overlay readVersion).filter fun rec => rec.mapName = mapName with hrecords
  have hnames : ∀ rec ∈ records, rec.mapName = mapName :=
    fun rec hrec => of_decide_eq_true (mem_filter.mp hrec).2
  obtain ⟨hs, hfold⟩ := foldl_overlayEntries hnames hsorted
  refine ⟨records.foldl overlayEntries base, ?_, hs, fun key => ?_⟩
  · unfold scanRange
    rw [if_neg hon, hrecords, overlay]
    split_ifs with hlt
    · rfl
    · rfl
  · rw [hfold, hget, hrecords]
    -- records of other maps do nothing to the key
    refine foldl_filter_of_idle (fun val rec hne => ?_) _ _
    refine LogRecord.redo_of_not_writes val rec ?_
    rw [LogRecord.writes, hne, Bool.false_and]

theorem Logged.overlay (h : Logged node done todo) (readVersion : Lsn) :
    node.overlay readVersion = todo.filter fun rec => rec.lsn ≤ readVersion := by
  unfold SmartStorageNode.overlay SmartStorageNode.unapplied
  split_ifs with hlt
  · rw [h.buffer, filter_append, filter_eq_nil_iff.mpr, nil_append]
    · refine filter_congr fun rec hrec => ?_
      simp only [h.pending rec hrec, true_and]
    · intro rec hrec hlt
      exact not_lt.mpr (h.applied rec hrec) (of_decide_eq_true hlt).1
  · -- a read before everything that is pending
    symm
    rw [filter_eq_nil_iff]
    intro rec hrec hlsn
    exact hlt (lt_of_lt_of_le (h.pending rec hrec) (of_decide_eq_true hlsn))

end SmartStorageNode

end Storage

end H2Database
