import H2Database.Sql.Careful
import H2Database.Sql.CatalogStore

/-!
# CREATE INDEX (`h2-sql/src/executor/statement.rs`)

The index is registered in the catalog, which belongs to no transaction, before the rows of its table are
read; its entries are written by the transaction of the statement.  What fails after the registration,
and what takes the transaction back, leaves the index without its entries.
-/

namespace H2Database.Sql

open Reasoning Mvstore

inductive IndexColumn where
  | identifier (name : String)
  | other (text : String)

def IndexColumn.text : IndexColumn → String
  | .identifier name => name
  | .other text => text

structure CreateIndex where
  tableName : String
  name : Option String
  columns : List IndexColumn
  unique : Bool

/-- What the transaction and the store answer: the visible rows of the table, each `put` of an entry, and
the commit of the store. -/
structure IndexAnswers where
  scanVisible : H2Result (List (Key × List UInt8))
  put : Key → H2Result Unit
  commit : H2Result Unit

/-- How the transaction of a statement ends: it is the statement's own and is committed, with this result,
unless the statement fails, or it goes on and is ended by the client. -/
inductive TxEnd where
  | auto (committed : H2Result Unit)
  | commit
  | rollback

namespace CreateIndex

def indexName (c : CreateIndex) : String :=
  let firstCol := (c.columns.head?.map IndexColumn.text).getD "col"
  c.name.getD s!"idx_{c.tableName}_{firstCol}"

def colNames (t : TableDef) (tableName : String) : List IndexColumn → H2Result (List String)
  | [] => .ok []
  | .other _ :: _ => .error (.execution "Only simple column names supported in index")
  | .identifier name :: columns =>
    if (t.columnIndex name).isNone then
      .error (.catalog s!"Column '{name}' not found in table '{tableName}'")
    else (colNames t tableName columns).map (name :: ·)

section

theorem colNames_error_iff {t : TableDef} (tableName : String) {columns : List IndexColumn} :
    (∃ e, colNames t tableName columns = .error e) ↔
      ∃ col ∈ columns, ∀ name, col = .identifier name → t.columnIndex name = none := by
  induction columns with
  | nil => simp [colNames]
  | cons col columns ih =>
    cases col with
    | other text => simp [colNames]
    | identifier name =>
      rw [List.exists_mem_cons_iff, ← ih, colNames]
      cases hname : t.columnIndex name with
      | none => simp [hname]
      | some i =>
        rw [Option.isNone_some, if_neg Bool.false_ne_true]
        cases colNames t tableName columns with
        | error e => simp [hname, Except.map]
        | ok names => simp [hname, Except.map]

variable [Crates]

/-- The entries of the rows, as far as they are put, and what ends the loop; `seenKeys` is what a unique
index has met. -/
def buildEntries (t : TableDef) (colIndices : List Nat) (idx : IndexDef) (put : Key → H2Result Unit) :
    List (List Value) → List (Key × List UInt8) → List Write × H2Result Unit
  | _, [] => ([], .ok ())
  | seenKeys, (k, valBytes) :: entries =>
    match t.readRow valBytes with
    | .error e => ([], .error e)
    | .ok row =>
      let vals := colIndices.map fun i => row[i]?.getD .null
      let checked := idx.isUnique && !hasNull vals
      if checked && seenKeys.any (fun key => Value.eqAll key vals) then
        ([], .error (.execution s!"Unique constraint violation on creating index '{idx.name}'"))
      else
        let idxKey := encodeCompositeIndexKey vals (keyRowId k)
        match put idxKey with
        | .error e => ([], .error e)
        | .ok () =>
          let (writes, result) :=
            buildEntries t colIndices idx put (if checked then seenKeys ++ [vals] else seenKeys) entries
          (.put (indexMapName idx.tableName idx) idxKey [] :: writes, result)

variable {M : Type}

/-- The catalog after the statement, the writes it has made, and its result. -/
def execute (c : CreateIndex) (isQueue : TableDef → Bool) (answers : IndexAnswers) (db : Database M) :
    Database M × List Write × H2Result Unit :=
  match db.catalog.getTable c.tableName with
  | none => (db, [], .error (.catalog s!"Table '{c.tableName}' not found"))
  | some t =>
    if isQueue t then
      (db, [], .error (.unsupported
        s!"Secondary indexes are not allowed on Queue Table '{c.tableName}'"))
    else match colNames t c.tableName c.columns with
      | .error e => (db, [], .error e)
      | .ok names =>
        let idx : IndexDef := ⟨c.indexName, c.tableName, names, c.unique⟩
        match db.createIndex idx with
        | .error e => (db, [], .error e)
        | .ok db' =>
          match answers.scanVisible with
          | .error e => (db', [], .error e)
          | .ok entries =>
            match buildEntries t (names.filterMap t.columnIndex) idx answers.put [] entries with
            | (writes, .error e) => (db', writes, .error e)
            | (writes, .ok ()) => (db', writes, answers.commit)

/-- The statement and the end of its transaction: the catalog, what is committed of the maps, and the
result. -/
def run (c : CreateIndex) (isQueue : TableDef → Bool) (answers : IndexAnswers) (ends : TxEnd)
    (db : Database M) (view : View) : Database M × View × H2Result Unit :=
  let (db', writes, result) := c.execute isQueue answers db
  match ends, result with
  | .auto (.ok ()), .ok () => (db', view.writeAll writes, .ok ())
  | .auto (.error e), .ok () => (db', view, .error e)
  | .auto _, .error e => (db', view, .error e)
  -- in an explicit transaction the writes of a statement that fails stay
  | .commit, result => (db', view.writeAll writes, result)
  | .rollback, result => (db', view, result)

/-! ## What a CREATE INDEX leaves in the catalog -/

/-- No index of the name is in memory or in the store that was not there before. -/
structure NoTrace (name : String) (before after : Database M) : Prop where
  memory : ∀ idx ∈ after.catalog.indexes, idx.name = name → idx ∈ before.catalog.indexes
  stored : after.stored.indexes name = before.stored.indexes name

/-- The statement fails before it registers the index: it has no table, the table is a queue, a column is
no name or not in the table, or the name of the index is taken. -/
def Refused (c : CreateIndex) (isQueue : TableDef → Bool) (db : Database M) : Prop :=
  ∀ t, db.catalog.getTable c.tableName = some t → isQueue t = true ∨
    (∃ col ∈ c.columns, ∀ name, col = .identifier name → t.columnIndex name = none) ∨
      c.indexName ∈ db.catalog.indexes.map IndexDef.name

omit [Crates] in
theorem createIndex_of_free {db : Database M} (idx : IndexDef)
    (h : idx.name ∉ db.catalog.indexes.map IndexDef.name) : ∃ db', db.createIndex idx = .ok db' ∧
      db'.catalog.indexes = idx :: db.catalog.indexes ∧ db'.stored.indexes idx.name = some idx := by
  refine ⟨_, dif_neg h, rfl, ?_⟩
  exact Function.update_self _ _ _

theorem run_fst (c : CreateIndex) (isQueue : TableDef → Bool) (answers : IndexAnswers) (ends : TxEnd)
    (db : Database M) (view : View) :
    (c.run isQueue answers ends db view).1 = (c.execute isQueue answers db).1 := by
  unfold run
  obtain ⟨db', writes, result⟩ := c.execute isQueue answers db
  dsimp only
  split <;> rfl

variable {c : CreateIndex} {isQueue : TableDef → Bool} {answers : IndexAnswers} {db : Database M}

theorem execute_of_refused (h : c.Refused isQueue db) : (c.execute isQueue answers db).1 = db := by
  unfold execute
  cases ht : db.catalog.getTable c.tableName with
  | none => rfl
  | some t =>
    dsimp only
    rcases h t ht with hqueue | hcolumn | htaken
    · rw [if_pos hqueue]
    · split_ifs
      · rfl
      · obtain ⟨e, he⟩ := (colNames_error_iff c.tableName).mpr hcolumn
        rw [he]
    · split_ifs
      · rfl
      · cases hnames : colNames t c.tableName c.columns with
        | error e => rfl
        | ok names =>
          dsimp only
          rw [Database.createIndex, dif_pos htaken]

theorem execute_of_not_refused (answers : IndexAnswers) (h : ¬c.Refused isQueue db) :
    ∃ idx, idx.name = c.indexName ∧ idx.name ∉ db.catalog.indexes.map IndexDef.name ∧
      (c.execute isQueue answers db).1.catalog.indexes = idx :: db.catalog.indexes ∧
        (c.execute isQueue answers db).1.stored.indexes idx.name = some idx := by
  unfold Refused at h
  push Not at h
  obtain ⟨t, ht, hqueue, hcolumns, hfree⟩ := h
  unfold execute
  rw [ht]
  dsimp only
  rw [if_neg hqueue]
  cases hnames : colNames t c.tableName c.columns with
  | error e =>
    obtain ⟨col, hcol, hnone⟩ := (colNames_error_iff c.tableName).mp ⟨e, hnames⟩
    obtain ⟨name, heq, hsome⟩ := hcolumns col hcol
    exact absurd (hnone name heq) hsome
  | ok names =>
    dsimp only
    refine ⟨⟨c.indexName, c.tableName, names, c.unique⟩, rfl, hfree, ?_⟩
    obtain ⟨db', hcreate, hindexes, hstored⟩ :=
      createIndex_of_free ⟨c.indexName, c.tableName, names, c.unique⟩ hfree
    rw [hcreate]
    cases answers.scanVisible with
    | error e => exact ⟨hindexes, hstored⟩
    | ok entries =>
      dsimp only
      split <;> exact ⟨hindexes, hstored⟩

/-- However a CREATE INDEX and its transaction end, they leave no trace exactly if the statement is
refused. -/
theorem run_noTrace_iff (ends : TxEnd) (view : View) :
    NoTrace c.indexName db (c.run isQueue answers ends db view).1 ↔ c.Refused isQueue db := by
  rw [run_fst]
  constructor
  · intro htrace
    by_contra hrefused
    obtain ⟨idx, hname, hfree, hindexes, _⟩ := execute_of_not_refused answers hrefused
    have hin : idx ∈ (c.execute isQueue answers db).1.catalog.indexes := by
      rw [hindexes]
      exact List.mem_cons_self
    exact hfree (List.mem_map_of_mem (htrace.memory idx hin hname))
  · intro hrefused
    rw [execute_of_refused hrefused]
    exact ⟨fun idx hidx _ => hidx, rfl⟩

end

section

attribute [local instance] plainCrates

/-- Two rows of the table `t` with the value 1. -/
def equalRows : View := View.empty.writeAll
  [.put "tbl_t" (rowKey 1) (Row.toBytes [.integer 1]), .put "tbl_t" (rowKey 2) (Row.toBytes [.integer 1])]

def uniqueIndex : CreateIndex := ⟨"t", some "i", [.identifier "a"], true⟩

def equalAnswers : IndexAnswers := ⟨.ok (equalRows.seen.scan "tbl_t"), fun _ => .ok (), .ok ()⟩

/-- The statement fails at the second row and is rolled back, and the index stays in the catalog without
an entry. -/
theorem duplicate_leaves_index : ∃ db : Database String,
    Database.blank.createTable ["public"] [] (Database.tableOf "public" "t") = .ok db ∧
      (uniqueIndex.run (fun _ => false) equalAnswers (.auto (.ok ())) db equalRows).2.2 =
        .error (.execution "Unique constraint violation on creating index 'i'") ∧
      (uniqueIndex.run (fun _ => false) equalAnswers (.auto (.ok ())) db equalRows).1.catalog.getTableIndexes
        "t" = [⟨"i", "t", ["a"], true⟩] ∧
      (uniqueIndex.run (fun _ => false) equalAnswers (.auto (.ok ())) db equalRows).2.1.seen.scan
        "idx_t_i" = [] ∧
      ¬NoTrace "i" db (uniqueIndex.run (fun _ => false) equalAnswers (.auto (.ok ())) db equalRows).1 := by
  refine ⟨_, rfl, ?_, ?_, ?_, ?_⟩
  · decide +kernel
  · decide +kernel
  · decide +kernel
  · intro htrace
    have hstored := htrace.stored
    revert hstored
    decide +kernel

end

end CreateIndex

end H2Database.Sql
