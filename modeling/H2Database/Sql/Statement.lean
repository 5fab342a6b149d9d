import H2Database.Sql.View

/-!
# Statements (`h2-sql/src/executor/statement.rs`, `h2-sql/src/executor/foreign_key.rs`)

A statement is carried out as a stack of tasks.  A task is the work on one row, or one question a
foreign-key action asks; it reads and writes the view and puts the work that follows from it on the
stack.  An expression is the function that evaluates it on a row; what an evaluation reads, it reads when
its task is carried out.
-/

namespace H2Database.Sql

open Reasoning Mvstore

/-! ## Syntax -/

abbrev Expr := Visible → Row → H2Result Value

structure Assignment where
  column : String
  value : Expr

inductive OnInsert where
  | doNothing
  | doUpdate (selection : Option Expr) (assignments : List Assignment)
  | duplicateKeyUpdate (assignments : List Assignment)
  | unsupported

/-- `nextval` is what the sequence of a column answers for a row; `returning` is how the projection of
the `RETURNING` list ends. -/
structure Insert where
  tableName : String
  columns : List String
  rowsToInsert : List (List Value)
  nextval : Nat → Nat → H2Result Int64
  on : Option OnInsert
  returning : Option (H2Result Unit)

/-- What `extract_equality_predicate` and, for a column, `extract_range_predicate` with
`convert_value_bounds_to_bytes` make of the `WHERE` clause. -/
structure Access where
  equality : Option (String × Value)
  range : String → Option (Bound × Bound)

/-- `usingRows` and `fromRows` are the rows of the other tables of the statement. -/
structure Delete where
  tableName : String
  usingRows : Option (Visible → H2Result (List Row))
  selection : Option Expr
  access : Access
  returning : Option (H2Result Unit)

structure Update where
  tableName : String
  assignments : List Assignment
  fromRows : Option (Visible → H2Result (List Row))
  selection : Option Expr
  access : Access
  returning : Option (H2Result Unit)

inductive MergeAction where
  | update (assignments : List Assignment)
  | delete
  | insert (columns : List String) (values : List Expr)

inductive MergeClauseKind where
  | matched
  | notMatched
  | other
  deriving DecidableEq

structure MergeClause where
  kind : MergeClauseKind
  condition : Option Expr
  action : MergeAction

structure Merge where
  targetName : String
  sourceName : String
  on : Expr
  clauses : List MergeClause

structure CopyFrom where
  tableName : String
  columns : List String
  records : List (List String)
  nextval : Nat → Nat → H2Result Int64

inductive Statement where
  | insert (ins : Insert)
  | delete (del : Delete)
  | update (upd : Update)
  | merge (m : Merge)
  | copyFrom (c : CopyFrom)

/-! ## Tasks -/

/-- A row that is written again.  `probes` says that unique indexes are asked, `onlyMoved` that entries
are left alone whose values stay equal. -/
structure Rewrite where
  table : TableDef
  indexes : List IndexDef
  spelled : String
  key : Key
  rowId : UInt64
  old : Row
  new : Row
  probes : Bool
  onlyMoved : Bool

/-- A child row whose foreign-key column is given another value; its entry is looked for under
`oldVal`. -/
structure SetChild where
  child : TableDef
  indexes : List IndexDef
  column : Nat
  key : Key
  row : Row
  oldVal : Value
  newVal : Value

inductive Task where
  | insertRow (ins : Insert) (t : TableDef) (indexes : List IndexDef) (targets : List Nat)
      (number : Nat) (rawValues : List Value)
  | insertEnd (ins : Insert)
  | rewrite (r : Rewrite)
  | deleteRow (del : Delete) (t : TableDef) (indexes : List IndexDef) (others : Option (List Row))
      (key : Key) (bytes : List UInt8)
  | dropRow (t : TableDef) (indexes : List IndexDef) (spelled : String) (key : Key) (row : Row)
  | deleteEnd (del : Delete)
  | updateRows (upd : Update) (t : TableDef) (indexes : List IndexDef) (others : Option (List Row))
      (entries : List (Key × List UInt8)) (updated : List Key)
  | updateEnd (upd : Update)
  | mergeRow (m : Merge) (t : TableDef) (indexes : List IndexDef) (targetRows : List (UInt64 × Row))
      (source : Row)
  | copyLine (c : CopyFrom) (t : TableDef) (targets : List Nat) (number : Nat) (fields : List String)
  | onDelete (parent : String) (row : Row)
  | deleteChildren (parent : String) (parentDef : TableDef) (row : Row) (child : TableDef)
      (fk : ForeignKeyDef)
  | dropChild (child : TableDef) (indexes : List IndexDef) (key : Key) (row : Row)
  | onUpdate (parent : String) (old new : Row)
  | updateChildren (parent : String) (parentDef : TableDef) (old new : Row) (child : TableDef)
      (fk : ForeignKeyDef)
  | setChild (s : SetChild)

structure Outcome where
  view : View
  counters : Counters
  result : H2Result (List Task)

variable [Crates]

/-! ## Rows and conditions -/

/-- `WHERE`, and the predicates of joined rows: only TRUE selects. -/
def selects (seen : Visible) (selection : Option Expr) (row : Row) : H2Result Bool :=
  match selection with
  | none => .ok true
  | some e => (e seen row).map fun v => match v with
    | .boolean b => b
    | _ => false

/-- `SET` clauses one after the other, each evaluated on the row `source` makes of the row so far. -/
def assign (seen : Visible) (t : TableDef) (tableName : String) (source : Row → Row) (row : Row) :
    List Assignment → H2Result Row
  | [] => .ok row
  | a :: rest =>
    match t.columnIndex a.column with
    | none => .error (.execution s!"Column '{a.column}' not found in table '{tableName}'")
    | some i => do
      let v ← a.value seen (source row)
      let casted ← v.castTo ((t.columns[i]?.map ColumnDef.dataType).getD .blob)
      assign seen t tableName source (row.set i casted) rest

def targetIndices (t : TableDef) (tableName : String) (columns : List String) : H2Result (List Nat) :=
  if columns.isEmpty then .ok (List.range t.columns.length)
  else columns.mapM fun c => match t.columnIndex c with
    | some i => .ok i
    | none => .error (.catalog s!"Column '{c}' not found in table '{tableName}'")

def fillColumns (t : TableDef) : List (Nat × Value) → Row → H2Result Row
  | [], row => .ok row
  | (i, v) :: rest, row =>
    if v.isNull then fillColumns t rest row
    else do
      let casted ← v.castTo ((t.columns[i]?.map ColumnDef.dataType).getD .blob)
      fillColumns t rest (row.set i casted)

/-- A column with a sequence that is still NULL takes the sequence's next value. -/
def fillSequences (nextval : Nat → H2Result Int64) : Nat → List ColumnDef → Row → H2Result Row
  | _, [], row => .ok row
  | i, c :: columns, row =>
    if c.sequenceName.isSome && (row[i]?.getD .null).isNull then do
      let n ← nextval i
      let casted ← (Value.bigInt n).castTo c.dataType
      fillSequences nextval (i + 1) columns (row.set i casted)
    else fillSequences nextval (i + 1) columns row

def buildRow (t : TableDef) (targets : List Nat) (values : List Value)
    (nextval : Nat → H2Result Int64) : H2Result Row := do
  let row ← fillColumns t (targets.zip values) (List.replicate t.columns.length .null)
  fillSequences nextval 0 t.columns row

def readRows (t : TableDef) : List (Key × List UInt8) → H2Result (List (Key × Row))
  | [] => .ok []
  | (k, bytes) :: entries => do
    let row ← t.readRow bytes
    let rows ← readRows t entries
    .ok ((k, row) :: rows)

/-! ## Foreign keys -/

def findParent (t : TableDef) (column : Nat) (val : Value) : List (Key × List UInt8) → H2Result Bool
  | [] => .ok false
  | (_, bytes) :: entries => do
    let row ← t.readRow bytes
    if (row[column]?).any fun v => v.eq val then .ok true else findParent t column val entries

def validateForeignKey (cat : Catalog) (seen : Visible) (t : TableDef) (row : Row)
    (fk : ForeignKeyDef) : H2Result Unit :=
  match (t.columnIndex fk.column).bind fun i => row[i]? with
  | none => .ok ()
  | some val =>
    if val.isNull then .ok ()
    else match cat.getTable fk.foreignTable with
      | none => .error (.execution s!"Referenced parent table '{fk.foreignTable}' not found")
      | some parent =>
        match parent.columnIndex fk.foreignColumn with
        | none => .error (.execution
            s!"Referenced column '{fk.foreignColumn}' not found in parent table '{fk.foreignTable}'")
        | some column => do
          let found ← findParent parent column val (seen.scan (tableMap fk.foreignTable))
          if found then .ok () else .error (.execution
            (s!"Foreign key constraint violation: value {Crates.debug val} in column '{fk.column}' of " ++
              s!"table '{t.name}' does not exist in parent table " ++
              s!"'{fk.foreignTable}.{fk.foreignColumn}'"))

def validateForeignKeysForRow (cat : Catalog) (seen : Visible) (t : TableDef) (row : Row) :
    H2Result Unit :=
  t.foreignKeys.forM fun fk => validateForeignKey cat seen t row fk

def handleForeignKeysOnDelete (cat : Catalog) (parent : String) (row : Row) : List Task :=
  match cat.getTable parent with
  | none => []
  | some parentDef =>
    (cat.getTablesReferencing parent).map fun p => .deleteChildren parent parentDef row p.1 p.2

def handleForeignKeysOnUpdate (cat : Catalog) (parent : String) (old new : Row) : List Task :=
  match cat.getTable parent with
  | none => []
  | some parentDef =>
    (cat.getTablesReferencing parent).map fun p => .updateChildren parent parentDef old new p.1 p.2

def matchingChildRows (seen : Visible) (child : TableDef) (column : Nat) (val : Value) :
    H2Result (List (Key × Row)) :=
  (readRows child (seen.scan (tableMap child.name))).map fun rows =>
    rows.filter fun p => (p.2[column]?).any fun v => v.eq val

def deleteChildren (cat : Catalog) (seen : Visible) (parent : String) (parentDef : TableDef) (row : Row)
    (child : TableDef) (fk : ForeignKeyDef) : H2Result (List Task) :=
  match (parentDef.columnIndex fk.foreignColumn).bind fun i => row[i]? with
  | none => .ok []
  | some val =>
    if val.isNull then .ok []
    else match child.columnIndex fk.column with
      | none => .ok []
      | some column => do
        let children ← matchingChildRows seen child column val
        if children.isEmpty then .ok []
        else match fk.onDelete with
          | .restrict | .noAction => .error (.execution
              (s!"Foreign key constraint violation: cannot delete from table '{parent}' because record " ++
                s!"is referenced by table '{child.name}' (foreign key on column '{fk.column}')"))
          | .cascade => .ok (children.flatMap fun p =>
              [.onDelete child.name p.2, .dropChild child (cat.getTableIndexes child.name) p.1 p.2])
          | .setNull => .ok (children.map fun p =>
              .setChild ⟨child, cat.getTableIndexes child.name, column, p.1, p.2,
                p.2[column]?.getD .null, .null⟩)

def updateChildren (cat : Catalog) (seen : Visible) (parent : String) (parentDef : TableDef)
    (old new : Row) (child : TableDef) (fk : ForeignKeyDef) : H2Result (List Task) :=
  match parentDef.columnIndex fk.foreignColumn with
  | none => .ok []
  | some i =>
    match old[i]?, new[i]? with
    | some oldVal, some newVal =>
      if oldVal.eq newVal || oldVal.isNull then .ok []
      else match child.columnIndex fk.column with
        | none => .ok []
        | some column => do
          let children ← matchingChildRows seen child column oldVal
          if children.isEmpty then .ok []
          else
            let set (val : Value) : List Task := children.map fun p =>
              .setChild ⟨child, cat.getTableIndexes child.name, column, p.1, p.2, oldVal, val⟩
            match fk.onUpdate with
            | .restrict | .noAction => .error (.execution
                (s!"Foreign key constraint violation: cannot update referenced key in table '{parent}' " ++
                  s!"because record is referenced by table '{child.name}' " ++
                  s!"(foreign key on column '{fk.column}')"))
            | .cascade => .ok (set newVal)
            | .setNull => .ok (set .null)
    | _, _ => .ok []

def firstColumn (child : TableDef) (idx : IndexDef) : Option Nat :=
  idx.columns.head?.bind child.columnIndex

/-- `CASCADE` takes a child row away. -/
def dropChild (view : View) (child : TableDef) (indexes : List IndexDef) (key : Key) (row : Row) : View :=
  let removes := indexes.filterMap fun idx => (firstColumn child idx).map fun i =>
    Write.remove (indexMapName child.name idx) (encodeIndexKey (row[i]?.getD .null) (keyRowId key))
  view.writeAll (removes ++ [.remove (tableMap child.name) key])

/-- `CASCADE` on an update and `SET NULL` write a child row again. -/
def setChild (view : View) (s : SetChild) : View :=
  let moves := s.indexes.flatMap fun idx =>
    if firstColumn s.child idx = some s.column then
      moveEntry (indexMapName s.child.name idx) [s.oldVal] [s.newVal] (keyRowId s.key)
    else []
  view.writeAll (moves ++ [.put (tableMap s.child.name) s.key (Row.toBytes (s.row.set s.column s.newVal))])

/-! ## Writing a row again -/

/-- The entries of the row, index by index; a unique index that refuses ends it there. -/
def moveEntries (view : View) (r : Rewrite) : List IndexDef → View × H2Result Unit
  | [] => (view, .ok ())
  | idx :: indexes =>
    match r.table.getIndexValues idx r.old, r.table.getIndexValues idx r.new with
    | some oldVals, some newVals =>
      let map := indexMapName r.spelled idx
      if r.probes && refuses view.seen map idx oldVals newVals r.rowId then
        (view, .error (.execution (s!"Unique constraint violation on index '{idx.name}': duplicate " ++
          s!"value {Crates.debugAll newVals}")))
      else if r.onlyMoved && Value.eqAll oldVals newVals then moveEntries view r indexes
      else moveEntries (view.writeAll (moveEntry map oldVals newVals r.rowId)) r indexes
    | _, _ => moveEntries view r indexes

def rewrite (cat : Catalog) (view : View) (r : Rewrite) : View × H2Result Unit :=
  match validateForeignKeysForRow cat view.seen r.table r.new with
  | .error e => (view, .error e)
  | .ok () =>
    match moveEntries view r r.indexes with
    | (view, .error e) => (view, .error e)
    | (view, .ok ()) => (view.write (.put r.table.mapName r.key r.new.toBytes), .ok ())

/-- `UPDATE` asks unique indexes and moves only the entries whose values change, in indexes that have an
assigned column. -/
def updateRewrite (upd : Update) (t : TableDef) (indexes : List IndexDef) (key : Key) (old new : Row) :
    Rewrite where
  table := t
  indexes := if upd.assignments.any fun a => indexes.any fun idx => a.column ∈ idx.columns then indexes
    else []
  spelled := upd.tableName
  key := key
  rowId := keyRowId key
  old := old
  new := new
  probes := true
  onlyMoved := true

/-- `ON CONFLICT DO UPDATE` asks unique indexes. -/
def doUpdateRewrite (t : TableDef) (indexes : List IndexDef) (rowId : UInt64) (old new : Row) : Rewrite :=
  ⟨t, indexes, t.name, rowKey rowId, rowId, old, new, true, false⟩

/-- `ON DUPLICATE KEY UPDATE` asks none. -/
def duplicateKeyRewrite (t : TableDef) (indexes : List IndexDef) (rowId : UInt64) (old new : Row) :
    Rewrite :=
  ⟨t, indexes, t.name, rowKey rowId, rowId, old, new, false, false⟩

/-- `MERGE` asks none. -/
def mergeRewrite (t : TableDef) (indexes : List IndexDef) (rowId : UInt64) (old new : Row) : Rewrite :=
  ⟨t, indexes, t.name, rowKey rowId, rowId, old, new, false, false⟩

/-! ## INSERT -/

def placeRow (view : View) (t : TableDef) (indexes : List IndexDef) (spelled : String) (row : Row)
    (rowId : UInt64) : View :=
  view.writeAll (indexPuts t indexes spelled row rowId ++ [.put t.mapName (rowKey rowId) row.toBytes])

/-- What `INSERT` does about the row that is in its way. -/
def onConflict (seen : Visible) (ins : Insert) (t : TableDef) (indexes : List IndexDef)
    (row : Row) (rowId : UInt64) (old : Row) : H2Result (List Task) :=
  match ins.on with
  | none => .error (.execution
      s!"Unique constraint violation on table '{ins.tableName}': duplicate key found")
  | some .unsupported => .error (.execution "Unsupported ON INSERT clause")
  | some .doNothing => .ok []
  | some (.doUpdate selection assignments) => do
    -- the row in the way, with the row to insert as EXCLUDED behind it
    if ← selects seen selection (old ++ row) then
      let new ← assign seen t ins.tableName (fun _ => old ++ row) old assignments
      .ok [.onUpdate ins.tableName old new, .rewrite (doUpdateRewrite t indexes rowId old new)]
    else .ok []
  | some (.duplicateKeyUpdate assignments) => do
    let new ← assign seen t ins.tableName (fun _ => old) old assignments
    .ok [.onUpdate ins.tableName old new, .rewrite (duplicateKeyRewrite t indexes rowId old new)]

def checkInsert (cat : Catalog) (seen : Visible) (ins : Insert) (t : TableDef)
    (indexes : List IndexDef) (targets : List Nat) (number : Nat) (rawValues : List Value) :
    H2Result (Row × Option (UInt64 × Row)) := do
  if rawValues.length ≠ targets.length then
    .error (.execution
      s!"Column count mismatch: expected {targets.length}, got {rawValues.length}")
  let row ← buildRow t targets rawValues (ins.nextval number)
  validateForeignKeysForRow cat seen t row
  .ok (row, ← findConflict seen t row indexes)

def insertRow (cat : Catalog) (view : View) (counters : Counters) (ins : Insert) (t : TableDef)
    (indexes : List IndexDef) (targets : List Nat) (number : Nat) (rawValues : List Value) : Outcome :=
  match checkInsert cat view.seen ins t indexes targets number rawValues with
  | .error e => ⟨view, counters, .error e⟩
  | .ok (row, some (rowId, old)) =>
    ⟨view, counters, onConflict view.seen ins t indexes row rowId old⟩
  | .ok (row, none) =>
    match cat.allocateRowId counters ins.tableName with
    | .error e => ⟨view, counters, .error e⟩
    | .ok (rowId, counters) => ⟨placeRow view t indexes t.name row rowId, counters, .ok []⟩

/-- A `RETURNING` list is projected at the end; without one the number of rows is noted. -/
def insertEnd (cat : Catalog) (view : View) (counters : Counters) (ins : Insert) : Outcome :=
  match ins.returning with
  | some projected => ⟨view, counters, projected.map fun _ => []⟩
  | none => ⟨view, cat.updateApproxRowCount counters ins.tableName, .ok []⟩

def fetch (seen : Visible) (t : TableDef) (entries : List (Key × List UInt8)) :
    List (Key × List UInt8) :=
  entries.filterMap fun p => (decodeIndexKey p.1).bind fun v =>
    (seen.get t.mapName (rowKey v.2)).map fun bytes => (rowKey v.2, bytes)

def castLiteral (t : TableDef) (column : String) (val : Value) : Value :=
  match (t.columnIndex column).bind fun i => t.columns[i]? with
  | none => val
  | some c => match val.castTo c.dataType with
    | .ok casted => casted
    | .error _ => val

def equalityMatches (seen : Visible) (t : TableDef) (indexes : List IndexDef) (column : String)
    (val : Value) : Option (List (Key × List UInt8)) :=
  (indexes.find? fun idx => idx.columns = [column]).map fun idx =>
    seen.scanPrefix (indexMapName t.name idx) (encodeIndexPrefix [castLiteral t column val])

/-- The entries of the first index of one column that the clause bounds. -/
def rangeMatches (seen : Visible) (t : TableDef) (range : String → Option (Bound × Bound)) :
    List IndexDef → Option (List (Key × List UInt8))
  | [] => none
  | idx :: indexes =>
    match idx.columns with
    | [column] =>
      match range column with
      | some (lower, upper) => some (seen.scanRange (indexMapName t.name idx) lower upper)
      | none => rangeMatches seen t range indexes
    | _ => rangeMatches seen t range indexes

def deleteEntries (seen : Visible) (del : Delete) (t : TableDef) (indexes : List IndexDef) :
    List (Key × List UInt8) :=
  let fast := if del.usingRows.isSome then none
    else del.access.equality.bind fun p => equalityMatches seen t indexes p.1 p.2
  match fast with
  | some entries => fetch seen t entries
  | none => seen.scan t.mapName

def selectsWith (seen : Visible) (selection : Option Expr) (row : Row) :
    List Row → H2Result (Option Row)
  | [] => .ok none
  | other :: others => do
    if ← selects seen selection (row ++ other) then .ok (some (row ++ other))
    else selectsWith seen selection row others

def isSelected (seen : Visible) (selection : Option Expr) (row : Row) : Option (List Row) → H2Result Bool
  | none => selects seen selection row
  | some others => (selectsWith seen selection row others).map Option.isSome

def deleteRow (cat : Catalog) (seen : Visible) (del : Delete) (t : TableDef) (indexes : List IndexDef)
    (others : Option (List Row)) (key : Key) (bytes : List UInt8) : H2Result (List Task) := do
  let row ← t.readRow bytes
  if ← isSelected seen del.selection row others then
    .ok (handleForeignKeysOnDelete cat del.tableName row ++
      [.dropRow t indexes del.tableName key row])
  else .ok []

def dropRow (view : View) (t : TableDef) (indexes : List IndexDef) (spelled : String) (key : Key)
    (row : Row) : View :=
  view.writeAll (indexRemoves t indexes spelled row (keyRowId key) ++ [.remove t.mapName key])

def deleteEnd (cat : Catalog) (view : View) (counters : Counters) (del : Delete) : Outcome :=
  match del.returning with
  | some projected => ⟨view, counters, projected.map fun _ => []⟩
  | none => ⟨view, cat.updateApproxRowCount counters del.tableName, .ok []⟩

/-! ## UPDATE -/

def updateEntries (seen : Visible) (upd : Update) (t : TableDef) (indexes : List IndexDef) :
    List (Key × List UInt8) :=
  let fast := if upd.fromRows.isSome then none
    else match upd.access.equality with
      | some (column, val) => equalityMatches seen t indexes column val
      | none => rangeMatches seen t upd.access.range indexes
  match fast with
  | some entries => fetch seen t entries
  | none => seen.scan t.mapName

/-- The fast path: an unindexed column is set in the row that a unique index of one column points to,
and no foreign key is about the table. -/
def pointUpdate (cat : Catalog) (seen : Visible) (upd : Update) (t : TableDef)
    (indexes : List IndexDef) : Option (List (Key × List UInt8)) :=
  let indexed := upd.assignments.any fun a => indexes.any fun idx => a.column ∈ idx.columns
  if upd.fromRows.isNone && upd.returning.isNone && !indexed && t.foreignKeys.isEmpty &&
      (cat.getTablesReferencing upd.tableName).isEmpty then
    upd.access.equality.bind fun p =>
      (equalityMatches seen t (indexes.filter IndexDef.isUnique) p.1 p.2).map fun matched =>
        fetch seen t (matched.take 1)
  else none

def updatedRow (seen : Visible) (upd : Update) (t : TableDef) (others : Option (List Row)) (row : Row) :
    H2Result (Option Row) :=
  match others with
  | none => do
    if ← selects seen upd.selection row then
      return some (← assign seen t upd.tableName id row upd.assignments)
    else return none
  | some rows => do
    match ← selectsWith seen upd.selection row rows with
    | some combined => return some (← assign seen t upd.tableName (fun _ => combined) row upd.assignments)
    | none => return none

def checkColumns (t : TableDef) (upd : Update) : H2Result Unit :=
  upd.assignments.forM fun a => match t.columnIndex a.column with
    | some _ => .ok ()
    | none => .error (.execution s!"Column '{a.column}' not found in table '{upd.tableName}'")

/-- The rows one after the other; a key that was updated is passed over. -/
def updateRows (cat : Catalog) (seen : Visible) (upd : Update) (t : TableDef) (indexes : List IndexDef)
    (others : Option (List Row)) (updated : List Key) :
    List (Key × List UInt8) → H2Result (List Task)
  | [] => .ok []
  | (key, bytes) :: entries =>
    if key ∈ updated then .ok [.updateRows upd t indexes others entries updated]
    else do
      let row ← t.readRow bytes
      match ← updatedRow seen upd t others row with
      | none => .ok [.updateRows upd t indexes others entries updated]
      | some new => .ok (handleForeignKeysOnUpdate cat upd.tableName row new ++
          [.rewrite (updateRewrite upd t indexes key row new),
            .updateRows upd t indexes others entries (key :: updated)])

/-! ## MERGE -/

def findTarget (seen : Visible) (on : Expr) (source : Row) :
    List (UInt64 × Row) → H2Result (Option (UInt64 × Row))
  | [] => .ok none
  | (rowId, row) :: rows => do
    if ← selects seen (some on) (row ++ source) then .ok (some (rowId, row))
    else findTarget seen on source rows

def mergeMatched (cat : Catalog) (seen : Visible) (m : Merge) (t : TableDef) (indexes : List IndexDef)
    (rowId : UInt64) (old source : Row) : List MergeClause → H2Result (List Task)
  | [] => .ok []
  | c :: clauses =>
    if c.kind = .matched then do
      if ← selects seen c.condition (old ++ source) then
        match c.action with
        | .update assignments => do
          let new ← assign seen t m.targetName (fun _ => old ++ source) old assignments
          .ok (handleForeignKeysOnUpdate cat m.targetName old new ++
            [.rewrite (mergeRewrite t indexes rowId old new)])
        | .delete => .ok (handleForeignKeysOnDelete cat m.targetName old ++
            [.dropRow t indexes t.name (rowKey rowId) old])
        | .insert _ _ => mergeMatched cat seen m t indexes rowId old source clauses
      else mergeMatched cat seen m t indexes rowId old source clauses
    else mergeMatched cat seen m t indexes rowId old source clauses

/-- The loop of `WHEN NOT MATCHED`, which stores NULL as any other value. -/
def fillExprs (seen : Visible) (t : TableDef) (source : Row) : List (Nat × Expr) → Row → H2Result Row
  | [], row => .ok row
  | (i, e) :: rest, row => do
    let v ← e seen source
    let casted ← v.castTo ((t.columns[i]?.map ColumnDef.dataType).getD .blob)
    fillExprs seen t source rest (row.set i casted)

/-- The row that `WHEN NOT MATCHED` inserts. -/
def mergeNotMatched (seen : Visible) (m : Merge) (t : TableDef) (source : Row) :
    List MergeClause → H2Result (Option Row)
  | [] => .ok none
  | c :: clauses =>
    if c.kind = .notMatched then do
      if ← selects seen c.condition source then
        match c.action with
        | .insert columns values => do
          let targets ← targetIndices t m.targetName columns
          let row ← fillExprs seen t source (targets.zip values) (List.replicate t.columns.length .null)
          .ok (some row)
        | _ => mergeNotMatched seen m t source clauses
      else mergeNotMatched seen m t source clauses
    else mergeNotMatched seen m t source clauses

def mergeRow (cat : Catalog) (view : View) (counters : Counters) (m : Merge) (t : TableDef)
    (indexes : List IndexDef) (targetRows : List (UInt64 × Row)) (source : Row) : Outcome :=
  match findTarget view.seen m.on source targetRows with
  | .error e => ⟨view, counters, .error e⟩
  | .ok (some (rowId, old)) =>
    ⟨view, counters, mergeMatched cat view.seen m t indexes rowId old source m.clauses⟩
  | .ok none =>
    match mergeNotMatched view.seen m t source m.clauses with
    | .error e => ⟨view, counters, .error e⟩
    | .ok none => ⟨view, counters, .ok []⟩
    | .ok (some row) =>
      match cat.allocateRowId counters m.targetName with
      | .error e => ⟨view, counters, .error e⟩
      | .ok (rowId, counters) =>
        match validateForeignKeysForRow cat view.seen t row with
        | .error e => ⟨view, counters, .error e⟩
        | .ok () => ⟨placeRow view t indexes t.name row rowId, counters, .ok []⟩

def fillFields (t : TableDef) : List (Nat × String) → Row → H2Result Row
  | [], row => .ok row
  | (i, field) :: rest, row => do
    let casted ← (Value.string field).castTo ((t.columns[i]?.map ColumnDef.dataType).getD .blob)
    fillFields t rest (row.set i casted)

def buildLine (c : CopyFrom) (t : TableDef) (targets : List Nat) (number : Nat)
    (fields : List String) : H2Result Row := do
  if fields.length ≠ targets.length then
    .error (.execution
      s!"Column count mismatch in CSV import: expected {targets.length}, got {fields.length}")
  let row ← fillFields t (targets.zip fields) (List.replicate t.columns.length .null)
  fillSequences (c.nextval number) 0 t.columns row

/-- A line goes in without a look at constraints, its row before its entries. -/
def copyLine (cat : Catalog) (view : View) (counters : Counters) (c : CopyFrom) (t : TableDef)
    (targets : List Nat) (number : Nat) (fields : List String) : Outcome :=
  match buildLine c t targets number fields with
  | .error e => ⟨view, counters, .error e⟩
  | .ok row =>
    match cat.allocateRowId counters c.tableName with
    | .error e => ⟨view, counters, .error e⟩
    | .ok (rowId, counters) =>
      ⟨view.writeAll (.put t.mapName (rowKey rowId) row.toBytes ::
        indexPuts t (cat.getTableIndexes c.tableName) c.tableName row rowId), counters, .ok []⟩

/-! ## Statements and tasks -/

def findTable (cat : Catalog) (name : String) (place : String) : H2Result TableDef :=
  match cat.getTable name with
  | some t => .ok t
  | none => .error (.catalog s!"Table '{name}' not found{place}")

def otherRows (seen : Visible) : Option (Visible → H2Result (List Row)) → H2Result (Option (List Row))
  | none => .ok none
  | some rows => (rows seen).map some

def Statement.start (cat : Catalog) (seen : Visible) : Statement → H2Result (List Task)
  | .insert ins => do
    let t ← findTable cat ins.tableName ""
    let targets ← targetIndices t ins.tableName ins.columns
    let rows := ins.rowsToInsert.mapIdx fun number raw =>
      Task.insertRow ins t (cat.getTableIndexes ins.tableName) targets number raw
    .ok (rows ++ [.insertEnd ins])
  | .delete del => do
    let t ← findTable cat del.tableName ""
    let indexes := cat.getTableIndexes del.tableName
    let others ← otherRows seen del.usingRows
    let tasks := (deleteEntries seen del t indexes).map fun p =>
      Task.deleteRow del t indexes others p.1 p.2
    .ok (tasks ++ [.deleteEnd del])
  | .update upd => do
    let t ← findTable cat upd.tableName ""
    let indexes := cat.getTableIndexes upd.tableName
    let others ← otherRows seen upd.fromRows
    checkColumns t upd
    match pointUpdate cat seen upd t indexes with
    | some entries => .ok [.updateRows { upd with selection := none } t indexes none entries []]
    | none => .ok [.updateRows upd t indexes others (updateEntries seen upd t indexes) [],
        .updateEnd upd]
  | .merge m => do
    let t ← findTable cat m.targetName " in MERGE"
    let source ← findTable cat m.sourceName " in MERGE source"
    let sourceRows ← readRows source (seen.scan source.mapName)
    let targetRows ← readRows t (seen.scan t.mapName)
    let targets := targetRows.map fun p => (keyRowId p.1, p.2)
    .ok (sourceRows.map fun p => .mergeRow m t (cat.getTableIndexes m.targetName) targets p.2)
  | .copyFrom c => do
    let t ← findTable cat c.tableName " in COPY"
    let targets ← targetIndices t c.tableName c.columns
    .ok (c.records.mapIdx fun number fields => .copyLine c t targets number fields)

def Task.run (cat : Catalog) (view : View) (counters : Counters) : Task → Outcome
  | .insertRow ins t indexes targets number rawValues =>
    Sql.insertRow cat view counters ins t indexes targets number rawValues
  | .insertEnd ins => Sql.insertEnd cat view counters ins
  | .rewrite r =>
    let (view, result) := Sql.rewrite cat view r
    ⟨view, counters, result.map fun _ => []⟩
  | .deleteRow del t indexes others key bytes =>
    ⟨view, counters, Sql.deleteRow cat view.seen del t indexes others key bytes⟩
  | .dropRow t indexes spelled key row =>
    ⟨Sql.dropRow view t indexes spelled key row, counters, .ok []⟩
  | .deleteEnd del => Sql.deleteEnd cat view counters del
  | .updateRows upd t indexes others entries updated =>
    ⟨view, counters, Sql.updateRows cat view.seen upd t indexes others updated entries⟩
  | .updateEnd upd => ⟨view, counters, (upd.returning.getD (.ok ())).map fun _ => []⟩
  | .mergeRow m t indexes targetRows source =>
    Sql.mergeRow cat view counters m t indexes targetRows source
  | .copyLine c t targets number fields => Sql.copyLine cat view counters c t targets number fields
  | .onDelete parent row => ⟨view, counters, .ok (handleForeignKeysOnDelete cat parent row)⟩
  | .deleteChildren parent parentDef row child fk =>
    ⟨view, counters, Sql.deleteChildren cat view.seen parent parentDef row child fk⟩
  | .dropChild child indexes key row => ⟨Sql.dropChild view child indexes key row, counters, .ok []⟩
  | .onUpdate parent old new => ⟨view, counters, .ok (handleForeignKeysOnUpdate cat parent old new)⟩
  | .updateChildren parent parentDef old new child fk =>
    ⟨view, counters, Sql.updateChildren cat view.seen parent parentDef old new child fk⟩
  | .setChild s => ⟨Sql.setChild view s, counters, .ok []⟩

end H2Database.Sql
