import H2Database.Sql.Row

/-!
# The catalog (`h2-sql/src/catalog.rs`)

Names stand for their lower-case forms.  A table of the schema `public` is filed under two keys, its
name and its full name.  The counters of row numbers, which the source keeps inside the two table
definitions, are apart from them here: while rows are written nothing else of a catalog changes.
-/

namespace H2Database.Sql

open List Option

structure ColumnDef where
  name : String
  dataType : DataType
  physicalIndex : Option Nat
  sequenceName : Option String

inductive ForeignKeyAction where
  | restrict
  | cascade
  | setNull
  | noAction
  deriving DecidableEq

structure ForeignKeyDef where
  column : String
  foreignTable : String
  foreignColumn : String
  onDelete : ForeignKeyAction
  onUpdate : ForeignKeyAction

structure TableDef where
  name : String
  schema : String
  columns : List ColumnDef
  foreignKeys : List ForeignKeyDef

structure IndexDef where
  name : String
  tableName : String
  columns : List String
  isUnique : Bool
  deriving DecidableEq

def tableMap (name : String) : String := s!"tbl_{name}"

namespace TableDef

def fullName (t : TableDef) : String := s!"{t.schema}.{t.name}"

def mapName (t : TableDef) : String :=
  if t.schema = "public" then tableMap t.name else tableMap s!"{t.schema}_{t.name}"

def columnIndex (t : TableDef) (column : String) : Option Nat :=
  t.columns.findIdx? fun c => c.name = column

/-- The values in the order of the columns: a column with a physical index has its value there. -/
def alignRow (t : TableDef) (row : Row) : Row :=
  if t.columns.any fun c => c.physicalIndex.isSome then
    t.columns.map fun c => (c.physicalIndex.bind fun i => row[i]?).getD .null
  else row ++ List.replicate (t.columns.length - row.length) .null

def readRow [Crates] (t : TableDef) (bytes : List UInt8) : H2Result Row :=
  (Row.fromBytes bytes).map t.alignRow

def columnIndexes (t : TableDef) : List String → Option (List Nat)
  | [] => some []
  | c :: cs => (t.columnIndex c).bind fun i => (columnIndexes t cs).map (i :: ·)

def getIndexValues (t : TableDef) (idx : IndexDef) (row : Row) : Option (List Value) :=
  (t.columnIndexes idx.columns).map fun is => is.map fun i => row[i]?.getD .null

variable {t : TableDef}

theorem mem_columnIndexes {cs : List String} {is : List Nat}
    (h : t.columnIndexes cs = some is) {i : Nat} (hi : i ∈ is) : ∃ c ∈ cs, t.columnIndex c = some i := by
  induction cs generalizing is with
  | nil =>
    cases h
    cases hi
  | cons c cs ih =>
    obtain ⟨j, hj, hrest⟩ := bind_eq_some_iff.mp h
    obtain ⟨js, hjs, rfl⟩ := map_eq_some_iff.mp hrest
    rcases mem_cons.mp hi with rfl | hin
    · exact ⟨c, mem_cons_self, hj⟩
    · obtain ⟨c', hc', hi'⟩ := ih hjs hin
      exact ⟨c', mem_cons_of_mem _ hc', hi'⟩

variable {idx : IndexDef}

theorem getIndexValues_single {c : String} (hc : idx.columns = [c])
    (row : Row) : t.getIndexValues idx row = (t.columnIndex c).map fun i => [row[i]?.getD .null] := by
  rw [getIndexValues, hc, columnIndexes]
  cases t.columnIndex c <;> rfl

theorem getIndexValues_eq_none {row : Row}
    (h : t.getIndexValues idx row = none) (row' : Row) : t.getIndexValues idx row' = none := by
  rw [getIndexValues, map_eq_none_iff] at h
  rw [getIndexValues, h, map_none]

theorem getIndexValues_set {column : Nat}
    (h : ∀ c ∈ idx.columns, t.columnIndex c ≠ some column) (row : Row) (val : Value) :
    t.getIndexValues idx (row.set column val) = t.getIndexValues idx row := by
  rw [getIndexValues, getIndexValues]
  cases his : t.columnIndexes idx.columns with
  | none => rfl
  | some is =>
    rw [map_some, map_some]
    refine congrArg some (map_congr_left fun i hi => ?_)
    obtain ⟨c, hc, hci⟩ := mem_columnIndexes his hi
    have hne : column ≠ i := by
      rintro rfl
      exact h c hc hci
    rw [getElem?_set_ne hne]

end TableDef

def indexMapName (table : String) (idx : IndexDef) : String := s!"idx_{table}_{idx.name}"

def splitOnce (name : String) : Option (String × String) :=
  match name.toList.span (· ≠ '.') with
  | (first, _ :: rest) => some (String.ofList first, String.ofList rest)
  | (_, []) => none

structure Catalog where
  tables : List (String × TableDef)
  indexes : List IndexDef

abbrev Counters := String → UInt64

namespace Catalog

variable (cat : Catalog)

def containsKey (key : String) : Bool := (cat.tables.lookup key).isSome

/-- The key a table is found under: its name, or the name with or without `public`. -/
def tableKey (name : String) : Option String :=
  if cat.containsKey name then some name
  else match splitOnce name with
    | none => if cat.containsKey s!"public.{name}" then some s!"public.{name}" else none
    | some (first, rest) => if first = "public" ∧ cat.containsKey rest then some rest else none

def getTable (name : String) : Option TableDef := (cat.tableKey name).bind fun key => cat.tables.lookup key

theorem mem_tables_of_getTable {cat : Catalog} {name : String} {t : TableDef}
    (h : cat.getTable name = some t) :
    ∃ key, (key, t) ∈ cat.tables := by
  obtain ⟨key, -, hkey⟩ := bind_eq_some_iff.mp h
  obtain ⟨before, after, heq, -⟩ := lookup_eq_some_iff.mp hkey
  exact ⟨key, heq ▸ mem_append_right _ mem_cons_self⟩

/-- The indexes whose table is spelled like this name, with or without a schema. -/
def getTableIndexes (name : String) : List IndexDef :=
  let shortKey := match splitOnce name with
    | some (_, rest) => rest
    | none => name
  let fullKey := if (splitOnce name).isSome then name else s!"public.{name}"
  cat.indexes.filter fun idx =>
    idx.tableName = name || idx.tableName = shortKey || idx.tableName = fullKey

/-- The foreign keys on a table, by its spelling; a public table that has some comes twice. -/
def getTablesReferencing (parent : String) : List (TableDef × ForeignKeyDef) :=
  cat.tables.flatMap fun p =>
    (p.2.foreignKeys.filter fun fk => fk.foreignTable = parent).map fun fk => (p.2, fk)

def allocateRowId (counters : Counters) (name : String) : H2Result (UInt64 × Counters) :=
  match cat.tableKey name with
  | none => .error (.catalog s!"Table '{name}' not found")
  | some key => .ok (counters key, Function.update counters key (counters key + 1))

/-- The definition found under the name is written back under both keys of its table. -/
def updateApproxRowCount (counters : Counters) (name : String) : Counters :=
  match cat.tableKey name with
  | none => counters
  | some key =>
    match cat.tables.lookup key with
    | none => counters
    | some t =>
      let written := Function.update counters t.fullName (counters key)
      if t.schema = "public" then Function.update written t.name (counters key) else written

end Catalog

end H2Database.Sql
