import H2Database.Sql.Upkeep

/-!
# The row a task writes

A task makes puts and removals in the maps of indexes, and at most one in the map of a table.
`Task.writes` are all of them in their order, `RowStep` says which tasks write a row and which row.
-/

namespace H2Database.Sql

open Reasoning Mvstore List Option

/-! ## Writes to entries and to rows -/

def EntriesOnly (ws : List Write) : Prop := ∀ w ∈ ws, ∃ spelled idx, w.mapName = indexMapName spelled idx

theorem EntriesOnly.nil : EntriesOnly [] := fun _ hw => absurd hw not_mem_nil

variable {ws : List Write} {indexes : List IndexDef} {t : TableDef} {spelled : String} {idx : IndexDef}
  {rowId : UInt64} {row : Row}

theorem EntriesOnly.append {ws' : List Write} (h : EntriesOnly ws) (h' : EntriesOnly ws') :
    EntriesOnly (ws ++ ws') :=
  forall_mem_append.mpr ⟨h, h'⟩

theorem EntriesOnly.flatMap {g : IndexDef → List Write} (h : ∀ idx ∈ indexes, EntriesOnly (g idx)) :
    EntriesOnly (indexes.flatMap g) := by
  intro w hw
  obtain ⟨idx, hidx, hin⟩ := mem_flatMap.mp hw
  exact h idx hidx w hin

theorem EntriesOnly.lastWrite (h : EntriesOnly ws) (name : String) (k : Key) :
    lastWrite (tableMap name) k ws = none := by
  refine lastWrite_eq_none (fun w hw => ?_) k
  obtain ⟨spelled, idx, hmap⟩ := h w hw
  exact hmap.trans_ne (indexMapName_ne spelled name idx)

/-- Among the writes the only one to a map of rows is `w`. -/
def OneRow (w : Write) (ws : List Write) : Prop :=
  ∃ entries, EntriesOnly entries ∧ (ws = entries ++ [w] ∨ ws = w :: entries)

variable {w : Write}

theorem OneRow.lastWrite (h : OneRow w ws) (name : String) (k : Key) :
    lastWrite (tableMap name) k ws = w.at (tableMap name) k := by
  obtain ⟨entries, hentries, rfl | rfl⟩ := h
  · rw [lastWrite_append, hentries.lastWrite, lastWrite_singleton, or_none]
  · rw [Sql.lastWrite, hentries.lastWrite, none_or]

def SameRows (view view' : View) : Prop :=
  ∀ name k, (view' (tableMap name)).get k = (view (tableMap name)).get k

def WritesRow (view view' : View) (w : Write) : Prop :=
  ∀ name k, (view' (tableMap name)).get k =
    (w.at (tableMap name) k).getD ((view (tableMap name)).get k)

theorem EntriesOnly.sameRows (h : EntriesOnly ws) (view : View) :
    SameRows view (view.writeAll ws) := by
  intro name k
  rw [View.get_writeAll, h.lastWrite, getD_none]

theorem OneRow.writesRow (h : OneRow w ws) (view : View) :
    WritesRow view (view.writeAll ws) w := by
  intro name k
  rw [View.get_writeAll, h.lastWrite]

theorem View.writeAll_append (view : View) (ws ws' : List Write) :
    view.writeAll (ws ++ ws') = (view.writeAll ws).writeAll ws' :=
  foldl_append

variable [Crates]

theorem WritesRow.rowAt_of_ne {view view' : View} (h : WritesRow view view' w) {key : Key}
    (hne : ¬(t.mapName = w.mapName ∧ key = w.key)) :
    rowAt view' t key = rowAt view t key := by
  obtain ⟨name, hname⟩ := mapName_eq t
  have hget := h name key
  rw [← hname, w.at_eq, if_neg hne, getD_none] at hget
  rw [rowAt, rowAt, hget]

theorem WritesRow.rowAt_self {view view' : View} (h : WritesRow view view' w) (ht : t.mapName = w.mapName) :
    rowAt view' t w.key = w.value.bind fun bytes => (t.readRow bytes).toOption := by
  obtain ⟨name, hname⟩ := mapName_eq t
  have hget := h name w.key
  rw [← hname, w.at_eq, if_pos ⟨ht, rfl⟩, getD_some] at hget
  rw [rowAt, hget]

theorem SameRows.rowAt {view view' : View} (h : SameRows view view') (t : TableDef) (key : Key) :
    rowAt view' t key = Sql.rowAt view t key := by
  obtain ⟨name, hname⟩ := mapName_eq t
  rw [Sql.rowAt, Sql.rowAt, hname, h name key]

/-! ## What a task writes -/

def moveWrites (view : View) (r : Rewrite) : List IndexDef → List Write
  | [] => []
  | idx :: indexes =>
    if refused view r idx then []
    else movedEntry r idx ++ moveWrites (view.writeAll (movedEntry r idx)) r indexes

theorem entriesOnly_moveEntry {old new : List Value} :
    EntriesOnly (moveEntry (indexMapName spelled idx) old new rowId) := by
  intro w hw
  rcases mem_pair.mp hw with rfl | rfl <;> exact ⟨spelled, idx, rfl⟩

theorem entriesOnly_movedEntry {r : Rewrite} : EntriesOnly (movedEntry r idx) := by
  unfold movedEntry
  split
  · split_ifs
    · exact .nil
    · exact entriesOnly_moveEntry
  · exact .nil

theorem entriesOnly_moveWrites {view : View} {r : Rewrite} :
    EntriesOnly (moveWrites view r indexes) := by
  induction indexes generalizing view with
  | nil => exact .nil
  | cons idx indexes ih =>
    rw [moveWrites]
    split_ifs
    · exact .nil
    · exact entriesOnly_movedEntry.append ih

theorem moveEntries_view (view : View) (r : Rewrite) (indexes : List IndexDef) :
    (moveEntries view r indexes).1 = view.writeAll (moveWrites view r indexes) := by
  induction indexes generalizing view with
  | nil => rfl
  | cons idx indexes ih =>
    cases href : refused view r idx with
    | true =>
      obtain ⟨e, he⟩ := moveEntries_of_refused href indexes
      rw [he, moveWrites, href]
      rfl
    | false =>
      rw [moveEntries_of_not_refused href, ih, moveWrites, href, if_neg Bool.false_ne_true,
        View.writeAll_append]

theorem entriesOnly_indexPuts : EntriesOnly (indexPuts t indexes spelled row rowId) := by
  intro w hw
  obtain ⟨idx, -, hin⟩ := mem_filterMap.mp hw
  obtain ⟨vals, -, rfl⟩ := map_eq_some_iff.mp hin
  exact ⟨spelled, idx, rfl⟩

theorem entriesOnly_indexRemoves : EntriesOnly (indexRemoves t indexes spelled row rowId) := by
  intro w hw
  obtain ⟨idx, -, hin⟩ := mem_filterMap.mp hw
  obtain ⟨vals, -, rfl⟩ := map_eq_some_iff.mp hin
  exact ⟨spelled, idx, rfl⟩

def placeWrites (t : TableDef) (indexes : List IndexDef) (spelled : String) (row : Row)
    (rowId : UInt64) : List Write :=
  indexPuts t indexes spelled row rowId ++ [.put t.mapName (rowKey rowId) row.toBytes]

def rewriteWrites (cat : Catalog) (view : View) (r : Rewrite) : List Write :=
  match validateForeignKeysForRow cat view.seen r.table r.new with
  | .error _ => []
  | .ok () =>
    match (moveEntries view r r.indexes).2 with
    | .error _ => moveWrites view r r.indexes
    | .ok () => moveWrites view r r.indexes ++ [.put r.table.mapName r.key r.new.toBytes]

def insertWrites (cat : Catalog) (view : View) (counters : Counters) (ins : Insert) (t : TableDef)
    (indexes : List IndexDef) (targets : List Nat) (number : Nat) (rawValues : List Value) : List Write :=
  match checkInsert cat view.seen ins t indexes targets number rawValues with
  | .ok (row, none) =>
    match cat.allocateRowId counters ins.tableName with
    | .error _ => []
    | .ok (rowId, _) => placeWrites t indexes t.name row rowId
  | _ => []

def mergeWrites (cat : Catalog) (view : View) (counters : Counters) (m : Merge) (t : TableDef)
    (indexes : List IndexDef) (targetRows : List (UInt64 × Row)) (source : Row) : List Write :=
  match findTarget view.seen m.on source targetRows with
  | .ok none =>
    match mergeNotMatched view.seen m t source m.clauses with
    | .ok (some row) =>
      match cat.allocateRowId counters m.targetName with
      | .error _ => []
      | .ok (rowId, _) =>
        match validateForeignKeysForRow cat view.seen t row with
        | .error _ => []
        | .ok () => placeWrites t indexes t.name row rowId
    | _ => []
  | _ => []

def copyWrites (cat : Catalog) (counters : Counters) (c : CopyFrom) (t : TableDef) (targets : List Nat)
    (number : Nat) (fields : List String) : List Write :=
  match buildLine c t targets number fields with
  | .error _ => []
  | .ok row =>
    match cat.allocateRowId counters c.tableName with
    | .error _ => []
    | .ok (rowId, _) => .put t.mapName (rowKey rowId) row.toBytes ::
        indexPuts t (cat.getTableIndexes c.tableName) c.tableName row rowId

def dropChildWrites (child : TableDef) (indexes : List IndexDef) (key : Key) (row : Row) : List Write :=
  indexes.flatMap (childRemove child row (keyRowId key)) ++ [.remove (tableMap child.name) key]

def setChildWrites (s : SetChild) : List Write :=
  s.indexes.flatMap (childMove s) ++
    [.put (tableMap s.child.name) s.key (Row.toBytes (s.row.set s.column s.newVal))]

def Task.writes (cat : Catalog) (view : View) (counters : Counters) : Task → List Write
  | .insertRow ins t indexes targets number rawValues =>
    insertWrites cat view counters ins t indexes targets number rawValues
  | .rewrite r => rewriteWrites cat view r
  | .dropRow t indexes spelled key row =>
    indexRemoves t indexes spelled row (keyRowId key) ++ [.remove t.mapName key]
  | .mergeRow m t indexes targetRows source =>
    mergeWrites cat view counters m t indexes targetRows source
  | .copyLine c t targets number fields => copyWrites cat counters c t targets number fields
  | .dropChild child indexes key row => dropChildWrites child indexes key row
  | .setChild s => setChildWrites s
  | _ => []

variable {cat : Catalog} {view : View} {counters : Counters}

theorem dropChild_view (child : TableDef) (indexes : List IndexDef) (key : Key) (row : Row) :
    dropChild view child indexes key row = view.writeAll (dropChildWrites child indexes key row) := by
  unfold dropChild dropChildWrites
  rw [filterMap_eq_flatMap_toList]
  rfl

theorem Task.view_run (task : Task) :
    (task.run cat view counters).view = view.writeAll (task.writes cat view counters) := by
  cases task with
  | insertRow ins t indexes targets number rawValues =>
    change (Sql.insertRow cat view counters ins t indexes targets number rawValues).view =
      view.writeAll (insertWrites cat view counters ins t indexes targets number rawValues)
    unfold Sql.insertRow insertWrites
    rcases checkInsert cat view.seen ins t indexes targets number rawValues with e | ⟨row, _ | ⟨id, old⟩⟩
    · rfl
    · rcases cat.allocateRowId counters ins.tableName with e | ⟨rowId, counters'⟩ <;> rfl
    · rfl
  | insertEnd ins =>
    change (Sql.insertEnd cat view counters ins).view = view
    unfold Sql.insertEnd
    split <;> rfl
  | rewrite r =>
    change (Sql.rewrite cat view r).1 = view.writeAll (rewriteWrites cat view r)
    unfold Sql.rewrite rewriteWrites
    rcases validateForeignKeysForRow cat view.seen r.table r.new with e | u
    · rfl
    · have hview := moveEntries_view view r r.indexes
      rcases hmoved : moveEntries view r r.indexes with ⟨view', e | u⟩
      · rw [hmoved] at hview
        exact hview
      · rw [hmoved] at hview
        dsimp only at hview ⊢
        rw [View.writeAll_append, ← hview]
        rfl
  | deleteRow del t indexes others key bytes => rfl
  | dropRow t indexes spelled key row => rfl
  | deleteEnd del =>
    change (Sql.deleteEnd cat view counters del).view = view
    unfold Sql.deleteEnd
    split <;> rfl
  | updateRows upd t indexes others entries updated => rfl
  | updateEnd upd => rfl
  | mergeRow m t indexes targetRows source =>
    change (Sql.mergeRow cat view counters m t indexes targetRows source).view =
      view.writeAll (mergeWrites cat view counters m t indexes targetRows source)
    unfold Sql.mergeRow mergeWrites
    rcases findTarget view.seen m.on source targetRows with e | _ | ⟨rowId, old⟩
    · rfl
    · rcases mergeNotMatched view.seen m t source m.clauses with e | _ | row
      · rfl
      · rfl
      · rcases cat.allocateRowId counters m.targetName with e | ⟨rowId, counters'⟩
        · rfl
        · dsimp only
          rcases validateForeignKeysForRow cat view.seen t row with e | u <;> rfl
    · rfl
  | copyLine c t targets number fields =>
    change (Sql.copyLine cat view counters c t targets number fields).view =
      view.writeAll (copyWrites cat counters c t targets number fields)
    unfold Sql.copyLine copyWrites
    rcases buildLine c t targets number fields with e | row
    · rfl
    · rcases cat.allocateRowId counters c.tableName with e | ⟨rowId, counters'⟩ <;> rfl
  | onDelete parent row => rfl
  | deleteChildren parent parentDef row child fk => rfl
  | dropChild child indexes key row =>
    exact dropChild_view child indexes key row
  | onUpdate parent old new => rfl
  | updateChildren parent parentDef old new child fk => rfl
  | setChild s => rfl

/-! ## Which tasks write a row -/

inductive RowStep (cat : Catalog) (view : View) (counters : Counters) : Task → Write → Prop
  | insert {ins : Insert} {t : TableDef} {indexes : List IndexDef} {targets : List Nat} {number : Nat}
      {rawValues : List Value} {row : Row} {rowId : UInt64} {counters' : Counters}
      (hcheck : checkInsert cat view.seen ins t indexes targets number rawValues = .ok (row, none))
      (hid : cat.allocateRowId counters ins.tableName = .ok (rowId, counters')) :
      RowStep cat view counters (.insertRow ins t indexes targets number rawValues)
        (.put t.mapName (rowKey rowId) row.toBytes)
  | merge {m : Merge} {t : TableDef} {indexes : List IndexDef} {targetRows : List (UInt64 × Row)}
      {source row : Row} {rowId : UInt64} {counters' : Counters}
      (hfind : findTarget view.seen m.on source targetRows = .ok none)
      (hrow : mergeNotMatched view.seen m t source m.clauses = .ok (some row))
      (hid : cat.allocateRowId counters m.targetName = .ok (rowId, counters'))
      (hvalid : validateForeignKeysForRow cat view.seen t row = .ok ()) :
      RowStep cat view counters (.mergeRow m t indexes targetRows source)
        (.put t.mapName (rowKey rowId) row.toBytes)
  | copy {c : CopyFrom} {t : TableDef} {targets : List Nat} {number : Nat} {fields : List String}
      {row : Row} {rowId : UInt64} {counters' : Counters}
      (hrow : buildLine c t targets number fields = .ok row)
      (hid : cat.allocateRowId counters c.tableName = .ok (rowId, counters')) :
      RowStep cat view counters (.copyLine c t targets number fields)
        (.put t.mapName (rowKey rowId) row.toBytes)
  | rewrite {r : Rewrite} (hvalid : validateForeignKeysForRow cat view.seen r.table r.new = .ok ())
      (hmoved : (moveEntries view r r.indexes).2 = .ok ()) :
      RowStep cat view counters (.rewrite r) (.put r.table.mapName r.key r.new.toBytes)
  | drop {t : TableDef} {indexes : List IndexDef} {spelled : String} {key : Key} {row : Row} :
      RowStep cat view counters (.dropRow t indexes spelled key row) (.remove t.mapName key)
  | dropChild {child : TableDef} {indexes : List IndexDef} {key : Key} {row : Row} :
      RowStep cat view counters (.dropChild child indexes key row) (.remove (tableMap child.name) key)
  | setChild {s : SetChild} :
      RowStep cat view counters (.setChild s)
        (.put (tableMap s.child.name) s.key (Row.toBytes (s.row.set s.column s.newVal)))

theorem entriesOnly_childRemove {child : TableDef} :
    EntriesOnly (childRemove child row rowId idx) := by
  intro w hw
  obtain ⟨i, -, rfl⟩ := map_eq_some_iff.mp (mem_toList.mp hw)
  exact ⟨child.name, idx, rfl⟩

theorem entriesOnly_childMove {s : SetChild} : EntriesOnly (childMove s idx) := by
  unfold childMove
  split_ifs
  · exact entriesOnly_moveEntry
  · exact .nil

theorem oneRow_dropRow {key : Key} :
    OneRow (.remove t.mapName key)
      (indexRemoves t indexes spelled row (keyRowId key) ++ [.remove t.mapName key]) :=
  ⟨_, entriesOnly_indexRemoves, Or.inl rfl⟩

theorem oneRow_dropChild {child : TableDef} {key : Key} :
    OneRow (.remove (tableMap child.name) key) (dropChildWrites child indexes key row) :=
  ⟨_, EntriesOnly.flatMap fun _ _ => entriesOnly_childRemove, Or.inl rfl⟩

theorem oneRow_setChild {s : SetChild} :
    OneRow (.put (tableMap s.child.name) s.key (Row.toBytes (s.row.set s.column s.newVal)))
      (setChildWrites s) :=
  ⟨_, EntriesOnly.flatMap fun _ _ => entriesOnly_childMove, Or.inl rfl⟩

theorem Task.writes_cases (cat : Catalog) (view : View) (counters : Counters) (task : Task) :
    (∃ w, RowStep cat view counters task w ∧ OneRow w (task.writes cat view counters) ∧
      (task.run cat view counters).result = .ok []) ∨
    (∀ w, ¬RowStep cat view counters task w) ∧ EntriesOnly (task.writes cat view counters) := by
  cases task with
  | insertRow ins t indexes targets number rawValues =>
    change (∃ w, _ ∧ OneRow w (insertWrites cat view counters ins t indexes targets number rawValues) ∧
      (Sql.insertRow cat view counters ins t indexes targets number rawValues).result = .ok []) ∨
      _ ∧ EntriesOnly (insertWrites cat view counters ins t indexes targets number rawValues)
    unfold Sql.insertRow insertWrites
    rcases hcheck : checkInsert cat view.seen ins t indexes targets number rawValues with
      e | ⟨row, _ | ⟨id, old⟩⟩
    · refine .inr ⟨fun w hw => ?_, .nil⟩
      cases hw with
      | insert hcheck' => cases hcheck.symm.trans hcheck'
    · rcases hid : cat.allocateRowId counters ins.tableName with e | ⟨rowId, counters'⟩
      · refine .inr ⟨fun w hw => ?_, .nil⟩
        cases hw with
        | insert hcheck' hid' => cases hid.symm.trans hid'
      · exact .inl ⟨_, .insert hcheck hid, ⟨_, entriesOnly_indexPuts, Or.inl rfl⟩, rfl⟩
    · refine .inr ⟨fun w hw => ?_, .nil⟩
      cases hw with
      | insert hcheck' => cases hcheck.symm.trans hcheck'
  | rewrite r =>
    change (∃ w, _ ∧ OneRow w (rewriteWrites cat view r) ∧
      ((Sql.rewrite cat view r).2.map fun _ => []) = .ok []) ∨ _ ∧ EntriesOnly (rewriteWrites cat view r)
    unfold Sql.rewrite rewriteWrites
    rcases hvalid : validateForeignKeysForRow cat view.seen r.table r.new with e | u
    · refine .inr ⟨fun w hw => ?_, .nil⟩
      cases hw with
      | rewrite hvalid' => cases hvalid.symm.trans hvalid'
    · rcases hmoved : moveEntries view r r.indexes with ⟨view', e | u⟩
      · refine .inr ⟨fun w hw => ?_, entriesOnly_moveWrites⟩
        cases hw with
        | rewrite hvalid' hmoved' =>
          rw [hmoved] at hmoved'
          cases hmoved'
      · exact .inl ⟨_, .rewrite hvalid (by rw [hmoved]),
          ⟨_, entriesOnly_moveWrites, Or.inl rfl⟩, rfl⟩
  | dropRow t indexes spelled key row =>
    exact .inl ⟨_, .drop, oneRow_dropRow, rfl⟩
  | mergeRow m t indexes targetRows source =>
    change (∃ w, _ ∧ OneRow w (mergeWrites cat view counters m t indexes targetRows source) ∧
      (Sql.mergeRow cat view counters m t indexes targetRows source).result = .ok []) ∨
      _ ∧ EntriesOnly (mergeWrites cat view counters m t indexes targetRows source)
    unfold Sql.mergeRow mergeWrites
    rcases hfind : findTarget view.seen m.on source targetRows with e | _ | ⟨id, old⟩
    · refine .inr ⟨fun w hw => ?_, .nil⟩
      cases hw with
      | merge hfind' => cases hfind.symm.trans hfind'
    · rcases hrow : mergeNotMatched view.seen m t source m.clauses with e | _ | row
      · refine .inr ⟨fun w hw => ?_, .nil⟩
        cases hw with
        | merge hfind' hrow' => cases hrow.symm.trans hrow'
      · refine .inr ⟨fun w hw => ?_, .nil⟩
        cases hw with
        | merge hfind' hrow' => cases hrow.symm.trans hrow'
      · rcases hid : cat.allocateRowId counters m.targetName with e | ⟨rowId, counters'⟩
        · refine .inr ⟨fun w hw => ?_, .nil⟩
          cases hw with
          | merge hfind' hrow' hid' => cases hid.symm.trans hid'
        · dsimp only
          rcases hvalid : validateForeignKeysForRow cat view.seen t row with e | u
          · refine .inr ⟨fun w hw => ?_, .nil⟩
            cases hw with
            | merge hfind' hrow' hid' hvalid' =>
              cases hrow.symm.trans hrow'
              cases hvalid.symm.trans hvalid'
          · exact .inl ⟨_, .merge hfind hrow hid hvalid, ⟨_, entriesOnly_indexPuts, Or.inl rfl⟩, rfl⟩
    · refine .inr ⟨fun w hw => ?_, .nil⟩
      cases hw with
      | merge hfind' => cases hfind.symm.trans hfind'
  | copyLine c t targets number fields =>
    change (∃ w, _ ∧ OneRow w (copyWrites cat counters c t targets number fields) ∧
      (Sql.copyLine cat view counters c t targets number fields).result = .ok []) ∨
      _ ∧ EntriesOnly (copyWrites cat counters c t targets number fields)
    unfold Sql.copyLine copyWrites
    rcases hrow : buildLine c t targets number fields with e | row
    · refine .inr ⟨fun w hw => ?_, .nil⟩
      cases hw with
      | copy hrow' => cases hrow.symm.trans hrow'
    · rcases hid : cat.allocateRowId counters c.tableName with e | ⟨rowId, counters'⟩
      · refine .inr ⟨fun w hw => ?_, .nil⟩
        cases hw with
        | copy hrow' hid' => cases hid.symm.trans hid'
      · exact .inl ⟨_, .copy hrow hid, ⟨_, entriesOnly_indexPuts, Or.inr rfl⟩, rfl⟩
  | dropChild child indexes key row => exact .inl ⟨_, .dropChild, oneRow_dropChild, rfl⟩
  | setChild s => exact .inl ⟨_, .setChild, oneRow_setChild, rfl⟩
  | insertEnd | deleteRow | deleteEnd | updateRows | updateEnd | onDelete | deleteChildren | onUpdate
  | updateChildren =>
    refine .inr ⟨fun w hw => ?_, .nil⟩
    cases hw

theorem Task.rows_cases (cat : Catalog) (view : View) (counters : Counters) (task : Task) :
    (∃ w, RowStep cat view counters task w ∧ WritesRow view (task.run cat view counters).view w ∧
      (task.run cat view counters).result = .ok []) ∨
    (∀ w, ¬RowStep cat view counters task w) ∧ SameRows view (task.run cat view counters).view := by
  rw [task.view_run]
  rcases task.writes_cases cat view counters with
    ⟨w, hstep, hrow, hresult⟩ | ⟨hnone, hentries⟩
  · exact .inl ⟨w, hstep, hrow.writesRow view, hresult⟩
  · exact .inr ⟨hnone, hentries.sameRows view⟩

theorem writesRow_dropRow (t : TableDef) (indexes : List IndexDef) (spelled : String) (key : Key)
    (row : Row) : WritesRow view (dropRow view t indexes spelled key row) (.remove t.mapName key) :=
  oneRow_dropRow.writesRow view

theorem writesRow_dropChild (child : TableDef) (indexes : List IndexDef) (key : Key) (row : Row) :
    WritesRow view (dropChild view child indexes key row) (.remove (tableMap child.name) key) := by
  rw [dropChild_view]
  exact oneRow_dropChild.writesRow view

theorem writesRow_setChild (view : View) (s : SetChild) : WritesRow view (setChild view s)
    (.put (tableMap s.child.name) s.key (Row.toBytes (s.row.set s.column s.newVal))) :=
  oneRow_setChild.writesRow view

/-! ## Rows keep their lengths -/

variable {new : Row}

theorem assign_length {seen : Visible} {name : String} {source : Row → Row}
    {assignments : List Assignment} (h : assign seen t name source row assignments = .ok new) :
    new.length = row.length := by
  induction assignments generalizing row with
  | nil =>
    cases h
    rfl
  | cons a rest ih =>
    unfold assign at h
    split at h
    · cases h
    · obtain ⟨v, -, h⟩ := H2Result.bind_eq_ok.mp h
      obtain ⟨casted, -, h⟩ := H2Result.bind_eq_ok.mp h
      rw [ih h, length_set]

theorem updatedRow_length {seen : Visible} {upd : Update} {others : Option (List Row)}
    (h : updatedRow seen upd t others row = .ok (some new)) :
    new.length = row.length := by
  unfold updatedRow at h
  split at h
  · obtain ⟨selected, -, h⟩ := H2Result.bind_eq_ok.mp h
    split_ifs at h
    · obtain ⟨new', hnew, h⟩ := H2Result.bind_eq_ok.mp h
      cases h
      exact assign_length hnew
    · cases h
  · obtain ⟨found, -, h⟩ := H2Result.bind_eq_ok.mp h
    split at h
    · obtain ⟨new', hnew, h⟩ := H2Result.bind_eq_ok.mp h
      cases h
      exact assign_length hnew
    · cases h

theorem length_fillColumns {vals : List (Nat × Value)} (h : fillColumns t vals row = .ok new) :
    new.length = row.length := by
  induction vals generalizing row with
  | nil =>
    cases h
    rfl
  | cons p rest ih =>
    unfold fillColumns at h
    split_ifs at h
    · exact ih h
    · obtain ⟨casted, -, h⟩ := H2Result.bind_eq_ok.mp h
      rw [ih h, length_set]

variable {nextval : Nat → H2Result Int64}

theorem length_fillSequences {columns : List ColumnDef} {i : Nat}
    (h : fillSequences nextval i columns row = .ok new) : new.length = row.length := by
  induction columns generalizing i row with
  | nil =>
    cases h
    rfl
  | cons c columns ih =>
    unfold fillSequences at h
    split_ifs at h
    · obtain ⟨n, -, h⟩ := H2Result.bind_eq_ok.mp h
      obtain ⟨casted, -, h⟩ := H2Result.bind_eq_ok.mp h
      rw [ih h, length_set]
    · exact ih h

theorem length_buildRow {targets : List Nat} {values : List Value}
    (h : buildRow t targets values nextval = .ok row) :
    row.length = t.columns.length := by
  obtain ⟨filled, hfilled, hrow⟩ := H2Result.bind_eq_ok.mp h
  rw [length_fillSequences hrow, length_fillColumns hfilled, length_replicate]

end H2Database.Sql
