import H2Database.Sql.Mirror

/-!
# What follows from a task

The tasks that a statement begins with, and those that take the place of one on the stack.  What holds of
all tasks of a statement is shown for the tasks that it `Starts` and case by case for those that one
`Spawns`.
-/

namespace H2Database.Sql

open Mvstore List Option

def keyValue (t : TableDef) (fk : ForeignKeyDef) (row : Row) : Option Value :=
  (t.columnIndex fk.foreignColumn).bind fun i => row[i]?

variable [Crates]

/-- The assignments of the first clause about a matched row that applies. -/
def matchedAssignments (seen : Visible) (old source : Row) : List MergeClause → Option (List Assignment)
  | [] => none
  | c :: clauses =>
    if c.kind = .matched then
      match selects seen c.condition (old ++ source), c.action with
      | .error _, _ => none
      | .ok true, .update assignments => some assignments
      | .ok true, .delete => none
      | .ok _, _ => matchedAssignments seen old source clauses
    else matchedAssignments seen old source clauses

inductive Spawns (cat : Catalog) (seen : Visible) : Task → List Task → Prop
  | nothing {task : Task} : Spawns cat seen task []
  | doUpdate {ins : Insert} {t : TableDef} {indexes : List IndexDef} {targets : List Nat} {number : Nat}
      {rawValues : List Value} {row old new : Row} {rowId : UInt64} {selection : Option Expr}
      {assignments : List Assignment}
      (hcheck : checkInsert cat seen ins t indexes targets number rawValues = .ok (row, some (rowId, old)))
      (hon : ins.on = some (.doUpdate selection assignments))
      (hselected : selects seen selection (old ++ row) = .ok true)
      (hnew : assign seen t ins.tableName (fun _ => old ++ row) old assignments = .ok new) :
      Spawns cat seen (.insertRow ins t indexes targets number rawValues)
        [.onUpdate ins.tableName old new, .rewrite (doUpdateRewrite t indexes rowId old new)]
  | duplicateKey {ins : Insert} {t : TableDef} {indexes : List IndexDef} {targets : List Nat}
      {number : Nat} {rawValues : List Value} {row old new : Row} {rowId : UInt64}
      {assignments : List Assignment}
      (hcheck : checkInsert cat seen ins t indexes targets number rawValues = .ok (row, some (rowId, old)))
      (hon : ins.on = some (.duplicateKeyUpdate assignments))
      (hnew : assign seen t ins.tableName (fun _ => old) old assignments = .ok new) :
      Spawns cat seen (.insertRow ins t indexes targets number rawValues)
        [.onUpdate ins.tableName old new, .rewrite (duplicateKeyRewrite t indexes rowId old new)]
  | deleteRow {del : Delete} {t : TableDef} {indexes : List IndexDef} {others : Option (List Row)}
      {key : Key} {bytes : List UInt8} {row : Row} :
      Spawns cat seen (.deleteRow del t indexes others key bytes)
        (handleForeignKeysOnDelete cat del.tableName row ++ [.dropRow t indexes del.tableName key row])
  | passed {upd : Update} {t : TableDef} {indexes : List IndexDef} {others : Option (List Row)}
      {p : Key × List UInt8} {entries : List (Key × List UInt8)} {updated : List Key} :
      Spawns cat seen (.updateRows upd t indexes others (p :: entries) updated)
        [.updateRows upd t indexes others entries updated]
  | updateRow {upd : Update} {t : TableDef} {indexes : List IndexDef} {others : Option (List Row)}
      {key : Key} {bytes : List UInt8} {entries : List (Key × List UInt8)} {updated : List Key}
      {row new : Row} (hkey : key ∉ updated) (hrow : t.readRow bytes = .ok row)
      (hnew : updatedRow seen upd t others row = .ok (some new)) :
      Spawns cat seen (.updateRows upd t indexes others ((key, bytes) :: entries) updated)
        (handleForeignKeysOnUpdate cat upd.tableName row new ++
          [.rewrite (updateRewrite upd t indexes key row new),
            .updateRows upd t indexes others entries (key :: updated)])
  | mergeUpdate {m : Merge} {t : TableDef} {indexes : List IndexDef} {targetRows : List (UInt64 × Row)}
      {source old new : Row} {rowId : UInt64} {assignments : List Assignment}
      (hfind : findTarget seen m.on source targetRows = .ok (some (rowId, old)))
      (hassignments : matchedAssignments seen old source m.clauses = some assignments)
      (hnew : assign seen t m.targetName (fun _ => old ++ source) old assignments = .ok new) :
      Spawns cat seen (.mergeRow m t indexes targetRows source)
        (handleForeignKeysOnUpdate cat m.targetName old new ++
          [.rewrite (mergeRewrite t indexes rowId old new)])
  | mergeDelete {m : Merge} {t : TableDef} {indexes : List IndexDef} {targetRows : List (UInt64 × Row)}
      {source old : Row} {rowId : UInt64}
      (hfind : findTarget seen m.on source targetRows = .ok (some (rowId, old))) :
      Spawns cat seen (.mergeRow m t indexes targetRows source)
        (handleForeignKeysOnDelete cat m.targetName old ++ [.dropRow t indexes t.name (rowKey rowId) old])
  | onDelete {parent : String} {row : Row} :
      Spawns cat seen (.onDelete parent row) (handleForeignKeysOnDelete cat parent row)
  | onUpdate {parent : String} {old new : Row} :
      Spawns cat seen (.onUpdate parent old new) (handleForeignKeysOnUpdate cat parent old new)
  | dropChildren {parent : String} {parentDef child : TableDef} {row : Row} {fk : ForeignKeyDef}
      {val : Value} {column : Nat} {children : List (Key × Row)}
      (hchildren : matchingChildRows seen child column val = .ok children) :
      Spawns cat seen (.deleteChildren parent parentDef row child fk) (children.flatMap fun p =>
        [.onDelete child.name p.2, .dropChild child (cat.getTableIndexes child.name) p.1 p.2])
  | clearChildren {parent : String} {parentDef child : TableDef} {row : Row} {fk : ForeignKeyDef}
      {val : Value} {column : Nat} {children : List (Key × Row)}
      (hchildren : matchingChildRows seen child column val = .ok children) :
      Spawns cat seen (.deleteChildren parent parentDef row child fk) (children.map fun p =>
        .setChild ⟨child, cat.getTableIndexes child.name, column, p.1, p.2, p.2[column]?.getD .null, .null⟩)
  | setChildren {parent : String} {parentDef child : TableDef} {old new : Row} {fk : ForeignKeyDef}
      {oldVal newVal : Value} {column : Nat} {children : List (Key × Row)}
      (hchildren : matchingChildRows seen child column oldVal = .ok children) :
      Spawns cat seen (.updateChildren parent parentDef old new child fk) (children.map fun p =>
        .setChild ⟨child, cat.getTableIndexes child.name, column, p.1, p.2, oldVal, newVal⟩)

variable {cat : Catalog} {view : View} {seen : Visible} {counters : Counters} {task : Task}
  {more : List Task}

/-! ## Foreign-key actions -/

variable {parent : String} {t : TableDef} {indexes : List IndexDef} {entries : List (Key × List UInt8)}
  {p : Key × List UInt8}

omit [Crates] in
theorem exists_of_mem_onDelete {row : Row} (h : task ∈ handleForeignKeysOnDelete cat parent row) :
    ∃ parentDef p, cat.getTable parent = some parentDef ∧ p ∈ cat.getTablesReferencing parent ∧
      task = .deleteChildren parent parentDef row p.1 p.2 := by
  unfold handleForeignKeysOnDelete at h
  split at h
  · cases h
  next parentDef hparent =>
    obtain ⟨p, hp, rfl⟩ := mem_map.mp h
    exact ⟨parentDef, p, hparent, hp, rfl⟩

omit [Crates] in
theorem exists_of_mem_onUpdate {old new : Row} (h : task ∈ handleForeignKeysOnUpdate cat parent old new) :
    ∃ parentDef p, cat.getTable parent = some parentDef ∧ p ∈ cat.getTablesReferencing parent ∧
      task = .updateChildren parent parentDef old new p.1 p.2 := by
  unfold handleForeignKeysOnUpdate at h
  split at h
  · cases h
  next parentDef hparent =>
    obtain ⟨p, hp, rfl⟩ := mem_map.mp h
    exact ⟨parentDef, p, hparent, hp, rfl⟩

theorem deleteChildren_tasks {parentDef : TableDef} {row : Row} {child : TableDef} {fk : ForeignKeyDef}
    (h : deleteChildren cat seen parent parentDef row child fk = .ok more) :
    more = [] ∨ ∃ val column children, keyValue parentDef fk row = some val ∧ val.isNull = false ∧
      child.columnIndex fk.column = some column ∧ matchingChildRows seen child column val = .ok children ∧
      ((fk.onDelete = .cascade ∧ more = children.flatMap fun p =>
          [.onDelete child.name p.2, .dropChild child (cat.getTableIndexes child.name) p.1 p.2]) ∨
        fk.onDelete = .setNull ∧ more = children.map fun p =>
          .setChild ⟨child, cat.getTableIndexes child.name, column, p.1, p.2,
            p.2[column]?.getD .null, .null⟩) := by
  unfold deleteChildren at h
  split at h
  next => exact .inl (Except.ok.inj h).symm
  next val hval =>
    split_ifs at h with hnull
    · exact .inl (Except.ok.inj h).symm
    · split at h
      next => exact .inl (Except.ok.inj h).symm
      next column hcolumn =>
        obtain ⟨children, hchildren, h⟩ := H2Result.bind_eq_ok.mp h
        split_ifs at h
        · exact .inl (Except.ok.inj h).symm
        · refine .inr ⟨val, column, children, hval, Bool.not_eq_true _ ▸ hnull, hcolumn, hchildren, ?_⟩
          split at h
          next => cases h
          next => cases h
          next haction =>
            cases h
            exact .inl ⟨haction, rfl⟩
          next haction =>
            cases h
            exact .inr ⟨haction, rfl⟩

theorem updateChildren_tasks {parentDef : TableDef} {old new : Row} {child : TableDef} {fk : ForeignKeyDef}
    (h : updateChildren cat seen parent parentDef old new child fk = .ok more) :
    more = [] ∨ ∃ oldVal newVal column children, child.columnIndex fk.column = some column ∧
      matchingChildRows seen child column oldVal = .ok children ∧
      (newVal.isNull = true ∨ keyValue parentDef fk new = some newVal) ∧
      more = children.map fun p =>
        .setChild ⟨child, cat.getTableIndexes child.name, column, p.1, p.2, oldVal, newVal⟩ := by
  unfold updateChildren at h
  split at h
  next => exact .inl (Except.ok.inj h).symm
  next j hj =>
    split at h
    next oldVal newVal _ hnewVal =>
      split_ifs at h
      · exact .inl (Except.ok.inj h).symm
      · split at h
        next => exact .inl (Except.ok.inj h).symm
        next column hcolumn =>
          obtain ⟨children, hchildren, h⟩ := H2Result.bind_eq_ok.mp h
          split_ifs at h
          · exact .inl (Except.ok.inj h).symm
          · dsimp only at h
            split at h
            next => cases h
            next => cases h
            next =>
              cases h
              refine .inr ⟨oldVal, newVal, column, children, hcolumn, hchildren, .inr ?_, rfl⟩
              rw [keyValue, hj, bind_some, hnewVal]
            next =>
              cases h
              exact .inr ⟨oldVal, .null, column, children, hcolumn, hchildren, .inl rfl, rfl⟩
    next => exact .inl (Except.ok.inj h).symm

/-! ## Rows of a statement -/

theorem spawns_nothing (h : (.ok [] : H2Result (List Task)) = .ok more) : Spawns cat seen task more := by
  cases h
  exact .nothing

theorem spawns_map_nil {α : Type} {o : H2Result α} (h : (o.map fun _ => []) = .ok more) :
    Spawns cat seen task more := by
  obtain ⟨a, -, rfl⟩ := H2Result.map_eq_ok.mp h
  exact .nothing

theorem spawns_onConflict {ins : Insert} {targets : List Nat} {number : Nat} {rawValues : List Value}
    {row old : Row} {rowId : UInt64}
    (hcheck : checkInsert cat seen ins t indexes targets number rawValues = .ok (row, some (rowId, old)))
    (h : onConflict seen ins t indexes row rowId old = .ok more) :
    Spawns cat seen (.insertRow ins t indexes targets number rawValues) more := by
  unfold onConflict at h
  split at h
  next => cases h
  next => cases h
  next => exact spawns_nothing h
  next selection assignments hon =>
    obtain ⟨selected, hselected, h⟩ := H2Result.bind_eq_ok.mp h
    split_ifs at h with htrue
    · subst htrue
      obtain ⟨new, hnew, h⟩ := H2Result.bind_eq_ok.mp h
      cases h
      exact .doUpdate hcheck hon hselected hnew
    · exact spawns_nothing h
  next assignments hon =>
    obtain ⟨new, hnew, h⟩ := H2Result.bind_eq_ok.mp h
    cases h
    exact .duplicateKey hcheck hon hnew

variable {others : Option (List Row)}

theorem spawns_deleteRow {del : Delete} {key : Key} {bytes : List UInt8}
    (h : deleteRow cat seen del t indexes others key bytes = .ok more) :
    Spawns cat seen (.deleteRow del t indexes others key bytes) more := by
  obtain ⟨row, -, h⟩ := H2Result.bind_eq_ok.mp h
  obtain ⟨selected, -, h⟩ := H2Result.bind_eq_ok.mp h
  split_ifs at h
  · cases h
    exact .deleteRow
  · exact spawns_nothing h

variable {upd : Update}

theorem spawns_updateRows {updated : List Key}
    (h : updateRows cat seen upd t indexes others updated entries = .ok more) :
    Spawns cat seen (.updateRows upd t indexes others entries updated) more := by
  cases entries with
  | nil => exact spawns_nothing h
  | cons p entries =>
    unfold updateRows at h
    dsimp only at h
    split_ifs at h with hkey
    · cases h
      exact .passed
    · obtain ⟨row, hrow, h⟩ := H2Result.bind_eq_ok.mp h
      obtain ⟨new, hnew, h⟩ := H2Result.bind_eq_ok.mp h
      split at h
      · cases h
        exact .passed
      · cases h
        exact .updateRow hkey hrow hnew

theorem mergeMatched_tasks {m : Merge} {rowId : UInt64} {old source : Row} {clauses : List MergeClause}
    (h : mergeMatched cat seen m t indexes rowId old source clauses = .ok more) :
    more = [] ∨
    (∃ assignments new, matchedAssignments seen old source clauses = some assignments ∧
      assign seen t m.targetName (fun _ => old ++ source) old assignments = .ok new ∧
      more = handleForeignKeysOnUpdate cat m.targetName old new ++
        [.rewrite (mergeRewrite t indexes rowId old new)]) ∨
    more = handleForeignKeysOnDelete cat m.targetName old ++
      [.dropRow t indexes t.name (rowKey rowId) old] := by
  induction clauses with
  | nil =>
    cases h
    exact .inl rfl
  | cons c clauses ih =>
    unfold mergeMatched at h
    rw [matchedAssignments]
    split_ifs at h with hmatched
    · rw [if_pos hmatched]
      obtain ⟨selected, hselected, h⟩ := H2Result.bind_eq_ok.mp h
      rw [hselected]
      split_ifs at h with htrue
      · subst htrue
        cases haction : c.action with
        | update assignments =>
          rw [haction] at h
          obtain ⟨new, hnew, h⟩ := H2Result.bind_eq_ok.mp h
          cases h
          exact .inr (.inl ⟨assignments, new, rfl, hnew, rfl⟩)
        | delete =>
          rw [haction] at h
          cases h
          exact .inr (.inr rfl)
        | insert columns values =>
          rw [haction] at h
          exact ih h
      · rw [Bool.eq_false_of_not_eq_true htrue]
        exact ih h
    · rw [if_neg hmatched]
      exact ih h

/-! ## Every task -/

theorem Task.spawns (h : (task.run cat view counters).result = .ok more) :
    Spawns cat view.seen task more := by
  cases task with
  | insertRow ins t indexes targets number rawValues =>
    change (Sql.insertRow cat view counters ins t indexes targets number rawValues).result = _ at h
    unfold Sql.insertRow at h
    split at h
    next => cases h
    next hcheck => exact spawns_onConflict hcheck h
    next =>
      split at h
      · cases h
      · exact spawns_nothing h
  | insertEnd ins =>
    change (Sql.insertEnd cat view counters ins).result = _ at h
    unfold Sql.insertEnd at h
    split at h
    · exact spawns_map_nil h
    · exact spawns_nothing h
  | rewrite r => exact spawns_map_nil h
  | deleteRow del t indexes others key bytes => exact spawns_deleteRow h
  | dropRow t indexes spelled key row => exact spawns_nothing h
  | deleteEnd del =>
    change (Sql.deleteEnd cat view counters del).result = _ at h
    unfold Sql.deleteEnd at h
    split at h
    · exact spawns_map_nil h
    · exact spawns_nothing h
  | updateRows upd t indexes others entries updated => exact spawns_updateRows h
  | updateEnd upd => exact spawns_map_nil h
  | mergeRow m t indexes targetRows source =>
    change (Sql.mergeRow cat view counters m t indexes targetRows source).result = _ at h
    unfold Sql.mergeRow at h
    split at h
    next => cases h
    next rowId old hfind =>
      rcases mergeMatched_tasks h with rfl | ⟨assignments, new, hassignments, hnew, rfl⟩ | rfl
      · exact .nothing
      · exact .mergeUpdate hfind hassignments hnew
      · exact .mergeDelete hfind
    next =>
      split at h
      · cases h
      · exact spawns_nothing h
      · split at h
        · cases h
        · split at h
          · cases h
          · exact spawns_nothing h
  | copyLine c t targets number fields =>
    change (Sql.copyLine cat view counters c t targets number fields).result = _ at h
    unfold Sql.copyLine at h
    split at h
    · cases h
    · split at h
      · cases h
      · exact spawns_nothing h
  | onDelete parent row =>
    cases h
    exact .onDelete
  | deleteChildren parent parentDef row child fk =>
    rcases deleteChildren_tasks h with rfl | ⟨val, column, children, -, -, -, hchildren, ⟨-, rfl⟩ | ⟨-, rfl⟩⟩
    · exact .nothing
    · exact .dropChildren hchildren
    · exact .clearChildren hchildren
  | dropChild child indexes key row => exact spawns_nothing h
  | onUpdate parent old new =>
    cases h
    exact .onUpdate
  | updateChildren parent parentDef old new child fk =>
    rcases updateChildren_tasks h with rfl | ⟨oldVal, newVal, column, children, -, hchildren, -, rfl⟩
    · exact .nothing
    · exact .setChildren hchildren
  | setChild s => exact spawns_nothing h

/-! ## The tasks of a statement -/

theorem mem_scan_of_mem_fetch (hp : p ∈ fetch view.seen t entries) : p ∈ view.seen.scan t.mapName := by
  obtain ⟨entry, _, hentry⟩ := mem_filterMap.mp hp
  obtain ⟨v, _, hget⟩ := bind_eq_some_iff.mp hentry
  obtain ⟨bytes, hbytes, heq⟩ := map_eq_some_iff.mp hget
  rw [← heq]
  exact View.mem_scan.mpr hbytes

def Found (seen : Visible) (t : TableDef) (p : Key × List UInt8) : Prop :=
  p ∈ seen.scan t.mapName ∨ ∃ entries, p ∈ fetch seen t entries

theorem Found.mem_scan (h : Found view.seen t p) :
    p ∈ view.seen.scan t.mapName := by
  rcases h with hscan | ⟨entries, hfetch⟩
  · exact hscan
  · exact mem_scan_of_mem_fetch hfetch

theorem found_of_mem_deleteEntries {del : Delete} (hp : p ∈ deleteEntries seen del t indexes) :
    Found seen t p := by
  unfold deleteEntries at hp
  dsimp only at hp
  split at hp
  · exact .inr ⟨_, hp⟩
  · exact .inl hp

theorem found_of_mem_updateEntries (hp : p ∈ updateEntries seen upd t indexes) :
    Found seen t p := by
  unfold updateEntries at hp
  dsimp only at hp
  split at hp
  · exact .inr ⟨_, hp⟩
  · exact .inl hp

theorem found_of_mem_pointUpdate (h : pointUpdate cat seen upd t indexes = some entries)
    (hp : p ∈ entries) : Found seen t p := by
  unfold pointUpdate at h
  dsimp only at h
  split_ifs at h
  obtain ⟨q, -, h⟩ := bind_eq_some_iff.mp h
  obtain ⟨matched, -, rfl⟩ := map_eq_some_iff.mp h
  exact .inr ⟨_, hp⟩

/-- A task of a statement that has not begun, and where its rows are from. -/
inductive Starts (seen : Visible) : Task → Prop
  | insertRow {ins : Insert} {t : TableDef} {indexes : List IndexDef} {targets : List Nat} {number : Nat}
      {rawValues : List Value} : Starts seen (.insertRow ins t indexes targets number rawValues)
  | insertEnd {ins : Insert} : Starts seen (.insertEnd ins)
  | deleteRow {del : Delete} {t : TableDef} {indexes : List IndexDef} {others : Option (List Row)}
      {p : Key × List UInt8} (hfound : Found seen t p) :
      Starts seen (.deleteRow del t indexes others p.1 p.2)
  | deleteEnd {del : Delete} : Starts seen (.deleteEnd del)
  | updateRows {upd : Update} {t : TableDef} {indexes : List IndexDef} {others : Option (List Row)}
      {entries : List (Key × List UInt8)} (hfound : ∀ p ∈ entries, Found seen t p) :
      Starts seen (.updateRows upd t indexes others entries [])
  | updateEnd {upd : Update} : Starts seen (.updateEnd upd)
  | mergeRow {m : Merge} {t : TableDef} {indexes : List IndexDef} {rows : List (Key × Row)} {source : Row}
      (hrows : readRows t (seen.scan t.mapName) = .ok rows) :
      Starts seen (.mergeRow m t indexes (rows.map fun p => (keyRowId p.1, p.2)) source)
  | copyLine {c : CopyFrom} {t : TableDef} {targets : List Nat} {number : Nat} {fields : List String} :
      Starts seen (.copyLine c t targets number fields)

theorem Statement.starts {st : Statement} (h : st.start cat seen = .ok more) :
    ∀ task ∈ more, Starts seen task := by
  cases st with
  | insert ins =>
    obtain ⟨t, -, h⟩ := H2Result.bind_eq_ok.mp h
    obtain ⟨targets, -, h⟩ := H2Result.bind_eq_ok.mp h
    cases h
    refine forall_mem_append.mpr ⟨fun task htask => ?_, forall_mem_singleton.mpr .insertEnd⟩
    obtain ⟨number, hlt, rfl⟩ := mem_mapIdx.mp htask
    exact .insertRow
  | delete del =>
    obtain ⟨t, -, h⟩ := H2Result.bind_eq_ok.mp h
    obtain ⟨others, -, h⟩ := H2Result.bind_eq_ok.mp h
    cases h
    refine forall_mem_append.mpr ⟨fun task htask => ?_, forall_mem_singleton.mpr .deleteEnd⟩
    obtain ⟨p, hp, rfl⟩ := mem_map.mp htask
    exact .deleteRow (found_of_mem_deleteEntries hp)
  | update upd =>
    obtain ⟨t, -, h⟩ := H2Result.bind_eq_ok.mp h
    obtain ⟨others, -, h⟩ := H2Result.bind_eq_ok.mp h
    obtain ⟨_, -, h⟩ := H2Result.bind_eq_ok.mp h
    split at h
    next entries hpoint =>
      cases h
      exact forall_mem_singleton.mpr (.updateRows fun p hp => found_of_mem_pointUpdate hpoint hp)
    next =>
      cases h
      exact forall_mem_cons.mpr ⟨.updateRows fun p hp => found_of_mem_updateEntries hp,
        forall_mem_singleton.mpr .updateEnd⟩
  | merge m =>
    obtain ⟨t, -, h⟩ := H2Result.bind_eq_ok.mp h
    obtain ⟨source, -, h⟩ := H2Result.bind_eq_ok.mp h
    obtain ⟨sourceRows, -, h⟩ := H2Result.bind_eq_ok.mp h
    obtain ⟨targetRows, htargets, h⟩ := H2Result.bind_eq_ok.mp h
    cases h
    intro task htask
    obtain ⟨p, -, rfl⟩ := mem_map.mp htask
    exact .mergeRow htargets
  | copyFrom c =>
    obtain ⟨t, -, h⟩ := H2Result.bind_eq_ok.mp h
    obtain ⟨targets, -, h⟩ := H2Result.bind_eq_ok.mp h
    cases h
    intro task htask
    obtain ⟨number, hlt, rfl⟩ := mem_mapIdx.mp htask
    exact .copyLine

end H2Database.Sql
