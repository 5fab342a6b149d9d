import H2Database.Sql.Careful
import H2Database.Sql.RoundTrip
import H2Database.Sql.RowWrites
import Mathlib.Data.List.InsertIdx

/-!
# Columns that come and go (`h2-sql/src/catalog.rs`, `h2-sql/src/executor/statement.rs`)

`ALTER TABLE` changes the catalog alone.  Rows stay as they were written and are aligned when they are
read: a column has a physical index, and its value is looked for there.  A `StoredTable` is what the code
keeps, a `LogicalTable` what it stands for.  Both are carried along the same actions, on one row
at a time.
-/

namespace H2Database.Sql

open Reasoning List Option Function

/-! ## New tables -/

namespace TableDef

def new (name : String) (columns : List ColumnDef) : TableDef where
  name := name
  schema := "public"
  columns := columns.mapIdx fun i c => { c with physicalIndex := c.physicalIndex.or (some i) }
  foreignKeys := []

/-- User columns behind those of the system.  One whose name starts with an underscore is left out, and
its position stays empty. -/
def behind (system userColumns : List ColumnDef) : List ColumnDef :=
  (system.mapIdx fun i c => { c with physicalIndex := some i }) ++
    (userColumns.mapIdx fun i c => { c with physicalIndex := some (system.length + i) }).filter
      fun c => c.name.toList.head? ≠ some '_'

def newQueue (name : String) (userColumns : List ColumnDef) : TableDef where
  name := name
  schema := "public"
  columns := behind [⟨"_offset", .bigInt, none, none⟩, ⟨"_timestamp", .timestampTz, none, none⟩,
    ⟨"_msg_id", .varChar none, none, none⟩, ⟨"_correlation_id", .varChar none, none, none⟩] userColumns
  foreignKeys := []

def newCache (name : String) (userColumns : List ColumnDef) : TableDef where
  name := name
  schema := "public"
  columns := behind [⟨"_expires_at", .bigInt, none, none⟩, ⟨"_created_at", .bigInt, none, none⟩,
    ⟨"_dirty", .boolean, none, none⟩] userColumns
  foreignKeys := []

def nextPhysicalIndex (t : TableDef) : Nat :=
  match (t.columns.filterMap ColumnDef.physicalIndex).max? with
  | some i => i + 1
  | none => t.columns.length

def addColumn (t : TableDef) (name : String) (dataType : DataType) : TableDef :=
  { t with columns := t.columns ++ [⟨name, dataType, some t.nextPhysicalIndex, none⟩] }

def dropColumn (t : TableDef) (i : Nat) : TableDef := { t with columns := t.columns.eraseIdx i }

end TableDef

/-- `is_queue`, and `is_cache` with its `cache_ttl_ms`. -/
inductive TableKind where
  | plain
  | queue
  | cache (ttlMs : Int64)
  deriving DecidableEq

/-! ## Rows that are written -/

/-- What the clock and `Uuid::new_v4` answer while a row is inserted. -/
structure Ambient where
  now : Timestamp
  nowMs : Int64
  uid : String

/-- A row of an `INSERT`, and the number it gets. -/
structure RowToInsert where
  tableName : String
  columns : List String
  values : List Value
  nextval : Nat → H2Result Int64
  ambient : Ambient
  rowId : UInt64

/-- A column that is NULL is filled; a row without the column makes the source panic. -/
def fillNull (row : Row) (i : Nat) (val : Value) : Option Row :=
  row[i]?.map fun old => if old.isNull then row.set i val else row

def offsetValue (row : Row) (rowId : UInt64) : Int64 :=
  match row.head? with
  | some (.bigInt v) => v
  | _ => rowId.toInt64

def fillSystem (kind : TableKind) (rowId : UInt64) (ambient : Ambient) (row : Row) : Option Row :=
  match kind with
  | .plain => some row
  | .queue => do
    let row ← fillNull row 0 (.bigInt rowId.toInt64)
    let row ← fillNull row 1 (.timestamp ambient.now)
    fillNull row 2 (.string s!"ID:h2-mq-{offsetValue row rowId}-{ambient.uid}")
  | .cache ttl => do
    let row ← fillNull row 0 (.bigInt (ambient.nowMs + ttl))
    let row ← fillNull row 1 (.bigInt ambient.nowMs)
    if row.length ≤ 2 then none else some (row.set 2 (.boolean true))

def markDirty (kind : TableKind) (row : Row) : Row :=
  match kind with
  | .cache _ => if 2 < row.length then row.set 2 (.boolean true) else row
  | _ => row

def expired (kind : TableKind) (nowMs : Int64) (row : Row) : Bool :=
  match kind, row.head? with
  | .cache _, some (.bigInt exp) => decide (exp ≤ nowMs)
  | _, _ => false

theorem length_fillNull {row new : Row} {i : Nat} {val : Value} (h : fillNull row i val = some new) :
    new.length = row.length := by
  obtain ⟨old, -, rfl⟩ := map_eq_some_iff.mp h
  split_ifs
  · exact length_set
  · rfl

theorem length_fillSystem {kind : TableKind} {rowId : UInt64} {ambient : Ambient} {row new : Row}
    (h : fillSystem kind rowId ambient row = some new) : new.length = row.length := by
  cases kind with
  | plain =>
    cases h
    rfl
  | queue =>
    obtain ⟨offset, hoffset, h⟩ := bind_eq_some_iff.mp h
    obtain ⟨stamped, hstamped, h⟩ := bind_eq_some_iff.mp h
    rw [length_fillNull h, length_fillNull hstamped, length_fillNull hoffset]
  | cache ttl =>
    obtain ⟨expires, hexpires, h⟩ := bind_eq_some_iff.mp h
    obtain ⟨created, hcreated, h⟩ := bind_eq_some_iff.mp h
    split_ifs at h
    cases h
    rw [length_set, length_fillNull hcreated, length_fillNull hexpires]

theorem length_markDirty (kind : TableKind) (row : Row) : (markDirty kind row).length = row.length := by
  cases kind with
  | cache ttl =>
    simp only [markDirty]
    split_ifs
    · exact length_set
    · rfl
  | _ => rfl

theorem eq_ok_of_toOption {α : Type} {r : H2Result α} {a : α} (h : r.toOption = some a) : r = .ok a := by
  cases r with
  | error e => cases h
  | ok b =>
    cases h
    rfl

section

variable [Crates]

/-- The row that an `INSERT` lays out. -/
def RowToInsert.row (ins : RowToInsert) (t : TableDef) (kind : TableKind) : Option Row := do
  let targets ← (targetIndices t ins.tableName ins.columns).toOption
  if ins.values.length ≠ targets.length then none
  let row ← (buildRow t targets ins.values ins.nextval).toOption
  fillSystem kind ins.rowId ins.ambient row

/-- `ON CONFLICT DO UPDATE` about the row in the way. -/
def upsertedRow (seen : Visible) (t : TableDef) (tableName : String) (selection : Option Expr)
    (assignments : List Assignment) (row old : Row) : Option Row := do
  let selected ← (selects seen selection (old ++ row)).toOption
  if selected then (assign seen t tableName (fun _ => old ++ row) old assignments).toOption else none

/-- `UPDATE` about one row; a queue refuses. -/
def rewrittenRow (seen : Visible) (t : TableDef) (kind : TableKind) (upd : Update)
    (others : Option (List Row)) (nowMs : Int64) (old : Row) : Option Row :=
  if kind = .queue || expired kind nowMs old then none
  else (updatedRow seen upd t others old).toOption.join.map (markDirty kind)

/-! ## What the code keeps, and what it stands for -/

inductive DdlAction where
  | addColumn (name : String) (dataType : DataType)
  | dropColumn (name : String)
  | insert (ins : RowToInsert)
  | upsert (seen : Visible) (ins : RowToInsert) (selection : Option Expr)
      (assignments : List Assignment) (rowId : UInt64)
  | update (seen : Visible) (upd : Update) (others : Option (List Row)) (nowMs : Int64) (rowId : UInt64)

/-- What the rows of a table are written with, by the rows that are read. -/
def DdlAction.written (t : TableDef) (kind : TableKind) (read : UInt64 → Option Row) :
    DdlAction → Option (UInt64 × Row)
  | .addColumn _ _ | .dropColumn _ => none
  | .insert ins => (ins.row t kind).map fun row => (ins.rowId, row)
  | .upsert seen ins selection assignments rowId => do
    let row ← ins.row t kind
    let old ← read rowId
    let new ← upsertedRow seen t ins.tableName selection assignments row old
    some (rowId, new)
  | .update seen upd others nowMs rowId => do
    let old ← read rowId
    let new ← rewrittenRow seen t kind upd others nowMs old
    some (rowId, new)

/-- What `ALTER TABLE` does to a definition; a name that is taken, or is not there, is an error. -/
def DdlAction.alter (t : TableDef) : DdlAction → TableDef
  | .addColumn name dataType => if (t.columnIndex name).isSome then t else t.addColumn name dataType
  | .dropColumn name => match t.columnIndex name with
    | none => t
    | some i => t.dropColumn i
  | _ => t

structure StoredTable where
  table : TableDef
  kind : TableKind
  rows : UInt64 → Option (List UInt8)

namespace StoredTable

omit [Crates] in
def write (s : StoredTable) (rowId : UInt64) (row : Row) : StoredTable :=
  { s with rows := Function.update s.rows rowId (some row.toBytes) }

/-- `Row::from_bytes`, then `align_row`. -/
def read (s : StoredTable) (rowId : UInt64) : Option (H2Result Row) := (s.rows rowId).map s.table.readRow

/-- The row that an action writes; a row that cannot be read ends a statement. -/
def written (s : StoredTable) (a : DdlAction) : Option (UInt64 × Row) :=
  a.written s.table s.kind fun rowId => (s.read rowId).bind Except.toOption

def step (s : StoredTable) (a : DdlAction) : StoredTable :=
  match s.written a with
  | some (rowId, row) => s.write rowId row
  | none => { s with table := a.alter s.table }

end StoredTable

structure LogicalTable where
  table : TableDef
  kind : TableKind
  rows : UInt64 → Option Row

namespace LogicalTable

/-- The rows after `ALTER TABLE`: NULL in a new column, and nothing of a dropped one. -/
def alterRow (t : TableDef) (a : DdlAction) (row : Row) : Row :=
  match a with
  | .addColumn name _ => if (t.columnIndex name).isSome then row else row ++ [.null]
  | .dropColumn name => match t.columnIndex name with
    | none => row
    | some i => row.eraseIdx i
  | _ => row

def step (l : LogicalTable) (a : DdlAction) : LogicalTable :=
  match a.written l.table l.kind l.rows with
  | some (rowId, row) => { l with rows := Function.update l.rows rowId (some row) }
  | none => ⟨a.alter l.table, l.kind, fun rowId => (l.rows rowId).map (alterRow l.table a)⟩

end LogicalTable

/-! ## Rows that are written have the columns' length -/

variable {t : TableDef} {kind : TableKind}

theorem length_row {ins : RowToInsert} {row : Row}
    (h : ins.row t kind = some row) : row.length = t.columns.length := by
  obtain ⟨targets, -, h⟩ := bind_eq_some_iff.mp h
  split_ifs at h
  · cases h
  · obtain ⟨built, hbuilt, h⟩ := bind_eq_some_iff.mp h
    rw [length_fillSystem h, length_buildRow (eq_ok_of_toOption hbuilt)]

theorem length_upsertedRow {seen : Visible} {tableName : String} {selection : Option Expr}
    {assignments : List Assignment} {row old new : Row}
    (h : upsertedRow seen t tableName selection assignments row old = some new) :
    new.length = old.length := by
  obtain ⟨selected, -, h⟩ := bind_eq_some_iff.mp h
  split_ifs at h
  exact assign_length (eq_ok_of_toOption h)

theorem length_rewrittenRow {seen : Visible} {upd : Update}
    {others : Option (List Row)} {nowMs : Int64} {old new : Row}
    (h : rewrittenRow seen t kind upd others nowMs old = some new) : new.length = old.length := by
  unfold rewrittenRow at h
  split_ifs at h
  obtain ⟨updated, hupdated, rfl⟩ := map_eq_some_iff.mp h
  rw [length_markDirty]
  exact updatedRow_length (eq_ok_of_toOption (join_eq_some_iff.mp hupdated))

theorem DdlAction.length_written {a : DdlAction}
    {read : UInt64 → Option Row} (hread : ∀ rowId row, read rowId = some row → row.length = t.columns.length)
    {rowId : UInt64} {row : Row} (h : a.written t kind read = some (rowId, row)) :
    row.length = t.columns.length := by
  cases a with
  | addColumn name dataType => cases h
  | dropColumn name => cases h
  | insert ins =>
    obtain ⟨new, hnew, heq⟩ := map_eq_some_iff.mp h
    cases heq
    exact length_row hnew
  | upsert seen ins selection assignments rowId' =>
    obtain ⟨inserted, -, h⟩ := bind_eq_some_iff.mp h
    obtain ⟨old, hold, h⟩ := bind_eq_some_iff.mp h
    obtain ⟨new, hnew, heq⟩ := bind_eq_some_iff.mp h
    cases heq
    rw [length_upsertedRow hnew, hread _ _ hold]
  | update seen upd others nowMs rowId' =>
    obtain ⟨old, hold, h⟩ := bind_eq_some_iff.mp h
    obtain ⟨new, hnew, heq⟩ := bind_eq_some_iff.mp h
    cases heq
    rw [length_rewrittenRow hnew, hread _ _ hold]

end

/-! ## Layouts -/

namespace TableDef

def Placed (t : TableDef) : Prop := ∀ c ∈ t.columns, c.physicalIndex.isSome

/-- A column with another physical index than its position has, by chance, the same value there. -/
def Lays (t : TableDef) (row : Row) : Prop :=
  ∀ (p : Nat) (c : ColumnDef), t.columns[p]? = some c → c.physicalIndex ≠ some p →
    ((c.physicalIndex.bind fun i => row[i]?).getD .null) = row[p]?.getD .null

theorem placed_behind (system userColumns : List ColumnDef) :
    ∀ c ∈ behind system userColumns, c.physicalIndex.isSome := by
  intro c hc
  rcases mem_append.mp hc with hin | hin
  · obtain ⟨i, -, rfl⟩ := mem_mapIdx.mp hin
    rfl
  · obtain ⟨i, -, rfl⟩ := mem_mapIdx.mp (mem_of_mem_filter hin)
    rfl

theorem placed_new (name : String) (columns : List ColumnDef) : (new name columns).Placed := by
  intro c hc
  obtain ⟨i, -, rfl⟩ := mem_mapIdx.mp hc
  change (Option.or _ (some i)).isSome = true
  rw [isSome_or, isSome_some, Bool.or_true]

variable {t : TableDef}

theorem alignRow_of_placed (h : t.Placed) (hne : t.columns ≠ []) (row : Row) :
    t.alignRow row = t.columns.map fun c => (c.physicalIndex.bind fun i => row[i]?).getD .null := by
  have hany : (t.columns.any fun c => c.physicalIndex.isSome) = true := by
    obtain ⟨c, hc⟩ := exists_mem_of_ne_nil _ hne
    exact any_eq_true.mpr ⟨c, hc, h c hc⟩
  rw [alignRow, if_pos hany]

theorem alignRow_of_nil (h : t.columns = []) (row : Row) : t.alignRow row = row := by
  simp [alignRow, h]

theorem alignRow_eq_self_iff (h : t.Placed) {row : Row}
    (hlength : row.length = t.columns.length) : t.alignRow row = row ↔ t.Lays row := by
  by_cases hne : t.columns = []
  · refine iff_of_true (alignRow_of_nil hne row) fun p c hc => ?_
    rw [hne] at hc
    cases hc
  · rw [alignRow_of_placed h hne]
    constructor
    · intro heq p c hc _
      have hp := congrArg (fun r : Row => r[p]?) heq
      simp only [getElem?_map, hc, map_some] at hp
      rw [← hp, getD_some]
    · intro hlays
      refine ext_getElem? fun p => ?_
      rw [getElem?_map]
      cases hc : t.columns[p]? with
      | none =>
        rw [getElem?_eq_none_iff] at hc
        exact (getElem?_eq_none_iff.mpr (by omega)).symm
      | some c =>
        have hp : p < row.length := by
          rw [hlength]
          exact (List.getElem?_eq_some_iff.mp hc).1
        rw [map_some, List.getElem?_eq_getElem hp]
        by_cases hphysical : c.physicalIndex = some p
        · rw [hphysical, bind_some, List.getElem?_eq_getElem hp, getD_some]
        · rw [hlays p c hc hphysical, getElem?_eq_getElem hp, getD_some]

/-- What a row that is there must be like for `ALTER TABLE`: no old value where a column is added, and no
values at all under the last column. -/
def Keeps (t : TableDef) (a : DdlAction) (raw : Row) : Prop :=
  match a with
  | .addColumn name _ => t.columnIndex name = none → raw[t.nextPhysicalIndex]?.getD .null = .null
  | .dropColumn name => (t.columnIndex name).isSome → t.columns.length = 1 → raw = []
  | _ => True

theorem alignRow_addColumn (h : t.Placed) {raw : Row} (hraw : t.columns = [] → raw = [])
    (name : String) (dataType : DataType) : (t.addColumn name dataType).alignRow raw =
      t.alignRow raw ++ [raw[t.nextPhysicalIndex]?.getD .null] := by
  have hplaced : (t.addColumn name dataType).Placed := by
    intro c hc
    rcases mem_append.mp hc with hin | hin
    · exact h c hin
    · rw [mem_singleton.mp hin]
      rfl
  have hne : (t.addColumn name dataType).columns ≠ [] := by
    simp [addColumn]
  rw [alignRow_of_placed hplaced hne]
  by_cases hnil : t.columns = []
  · rw [alignRow_of_nil hnil, hraw hnil]
    simp [addColumn, hnil]
  · rw [alignRow_of_placed h hnil]
    simp [addColumn]

theorem placed_dropColumn (h : t.Placed) (i : Nat) : (t.dropColumn i).Placed :=
  fun c hc => h c (mem_of_mem_eraseIdx hc)

theorem alignRow_dropColumn (h : t.Placed) {i : Nat} (hi : i < t.columns.length)
    (hmore : t.columns.length ≠ 1) (raw : Row) :
    (t.dropColumn i).alignRow raw = (t.alignRow raw).eraseIdx i := by
  have hne : t.columns ≠ [] := ne_nil_of_length_pos (by omega)
  have hrest : (t.dropColumn i).columns ≠ [] := by
    apply ne_nil_of_length_pos
    rw [dropColumn, length_eraseIdx_of_lt hi]
    omega
  rw [alignRow_of_placed (placed_dropColumn h i) hrest, alignRow_of_placed h hne, dropColumn,
    eraseIdx_map]

theorem placed_alter (h : t.Placed) (a : DdlAction) : (a.alter t).Placed := by
  cases a with
  | addColumn name dataType =>
    rw [DdlAction.alter]
    split_ifs
    · exact h
    · intro c hc
      rcases mem_append.mp hc with hin | hin
      · exact h c hin
      · rw [mem_singleton.mp hin]
        rfl
  | dropColumn name =>
    rw [DdlAction.alter]
    split
    · exact h
    · exact placed_dropColumn h _
  | _ => exact h

theorem columnIndex_lt {name : String} {i : Nat} (h : t.columnIndex name = some i) :
    i < t.columns.length :=
  (findIdx?_eq_some_iff_getElem.mp h).1

theorem alignRow_alter_iff (h : t.Placed) {raw : Row} (hraw : t.columns = [] → raw = [])
    (hlength : (t.alignRow raw).length = t.columns.length) (a : DdlAction) :
    (a.alter t).alignRow raw = LogicalTable.alterRow t a (t.alignRow raw) ↔ t.Keeps a raw := by
  cases a with
  | addColumn name dataType =>
    simp only [DdlAction.alter, LogicalTable.alterRow, Keeps]
    cases hi : t.columnIndex name with
    | none =>
      rw [if_neg (by simp), if_neg (by simp), alignRow_addColumn h hraw]
      simp
    | some i => simp
  | dropColumn name =>
    simp only [DdlAction.alter, LogicalTable.alterRow, Keeps]
    cases hi : t.columnIndex name with
    | none => simp
    | some i =>
      have hlt := columnIndex_lt hi
      by_cases hone : t.columns.length = 1
      · -- the last column goes, and what is stored shows
        have hgone : (t.dropColumn i).columns = [] := by
          apply eq_nil_of_length_eq_zero
          rw [dropColumn, length_eraseIdx_of_lt hlt]
          omega
        have hnone : (t.alignRow raw).eraseIdx i = [] := by
          apply eq_nil_of_length_eq_zero
          rw [length_eraseIdx_of_lt (by omega)]
          omega
        simp only [alignRow_of_nil hgone, hnone, hone]
        simp
      · simp only [alignRow_dropColumn h hlt hone, hone]
        simp
  | _ => simp only [DdlAction.alter, LogicalTable.alterRow, Keeps]

end TableDef

theorem length_alterRow {t : TableDef} {row : Row} (hlength : row.length = t.columns.length)
    (a : DdlAction) : (LogicalTable.alterRow t a row).length = (a.alter t).columns.length := by
  cases a with
  | addColumn name dataType =>
    simp only [LogicalTable.alterRow, DdlAction.alter]
    split_ifs
    · exact hlength
    · rw [length_append, TableDef.addColumn, length_append, hlength]
      rfl
  | dropColumn name =>
    simp only [LogicalTable.alterRow, DdlAction.alter]
    split
    · exact hlength
    · rw [TableDef.dropColumn, length_eraseIdx, length_eraseIdx, hlength]
  | _ => exact hlength

section

variable [Crates]

theorem DdlAction.keeps_of_written {a : DdlAction} {t : TableDef} {kind : TableKind}
    {read : UInt64 → Option Row} {p : UInt64 × Row} (h : a.written t kind read = some p) (raw : Row) :
    t.Keeps a raw := by
  cases a with
  | addColumn name dataType => cases h
  | dropColumn name => cases h
  | _ => trivial

/-! ## Reading what was written -/

def Transparent (s : StoredTable) (l : LogicalTable) : Prop := ∀ rowId, s.read rowId = (l.rows rowId).map .ok

structure History where
  stored : StoredTable
  logical : LogicalTable

namespace History

def step (s : History) (a : DdlAction) : History := ⟨s.stored.step a, s.logical.step a⟩

def new (t : TableDef) (kind : TableKind) : History := ⟨⟨t, kind, fun _ => none⟩, ⟨t, kind, fun _ => none⟩⟩

def Storable (s : History) (a : DdlAction) : Prop :=
  ∀ rowId row, s.stored.written a = some (rowId, row) → row.Storable

/-- The row that is written is laid as the columns are, and the rows that are there are kept. -/
def Fits (s : History) (a : DdlAction) : Prop :=
  (∀ rowId row, s.stored.written a = some (rowId, row) → s.stored.table.Lays row) ∧
  ∀ rowId bytes raw, s.stored.rows rowId = some bytes → Row.fromBytes bytes = .ok raw →
    s.stored.table.Keeps a raw

/-- Both have one definition, and the rows have the values of its columns. -/
structure Sound (s : History) : Prop where
  table : s.logical.table = s.stored.table
  kind : s.logical.kind = s.stored.kind
  placed : s.stored.table.Placed
  length : ∀ rowId row, s.logical.rows rowId = some row → row.length = s.stored.table.columns.length
  transparent : Transparent s.stored s.logical

variable {s : History}

theorem Sound.written (h : s.Sound) (a : DdlAction) :
    a.written s.logical.table s.logical.kind s.logical.rows = s.stored.written a := by
  have hread : (fun rowId => (s.stored.read rowId).bind Except.toOption) = s.logical.rows := by
    funext rowId
    rw [h.transparent rowId]
    cases s.logical.rows rowId <;> rfl
  rw [StoredTable.written, hread, h.table, h.kind]

variable {rowId : UInt64} {a : DdlAction}

section

variable (h : s.Sound)

include h

theorem Sound.exists_raw {bytes : List UInt8} (hbytes : s.stored.rows rowId = some bytes) :
    ∃ raw, Row.fromBytes bytes = .ok raw ∧ s.logical.rows rowId = some (s.stored.table.alignRow raw) := by
  have hread := h.transparent rowId
  rw [StoredTable.read, hbytes, map_some] at hread
  cases hlogical : s.logical.rows rowId with
  | none =>
    rw [hlogical] at hread
    cases hread
  | some row =>
    rw [hlogical, map_some] at hread
    obtain ⟨raw, hraw, heq⟩ := H2Result.map_eq_ok.mp (Option.some.inj hread)
    exact ⟨raw, hraw, congrArg some heq.symm⟩

theorem Sound.eq_none (hnone : s.stored.rows rowId = none) :
    s.logical.rows rowId = none := by
  have hread := h.transparent rowId
  rw [StoredTable.read, hnone] at hread
  exact map_eq_none_iff.mp hread.symm

theorem Sound.length_written {row : Row} (hw : s.stored.written a = some (rowId, row)) :
    row.length = s.stored.table.columns.length := by
  rw [← h.written, h.table] at hw
  exact DdlAction.length_written h.length hw

theorem Sound.step_some {row : Row} (hw : s.stored.written a = some (rowId, row)) :
    s.step a = ⟨s.stored.write rowId row,
      { s.logical with rows := Function.update s.logical.rows rowId (some row) }⟩ := by
  rw [step, StoredTable.step, LogicalTable.step, h.written, hw]

theorem Sound.step_none (hw : s.stored.written a = none) :
    s.step a = ⟨{ s.stored with table := a.alter s.stored.table },
      ⟨a.alter s.logical.table, s.logical.kind,
        fun rowId => (s.logical.rows rowId).map (LogicalTable.alterRow s.logical.table a)⟩⟩ := by
  rw [step, StoredTable.step, LogicalTable.step, h.written, hw]

theorem Sound.write_iff {row : Row} (hw : s.stored.written a = some (rowId, row)) (hstorable : row.Storable) :
    Transparent (s.step a).stored (s.step a).logical ↔ s.stored.table.Lays row := by
  have hread : s.stored.table.readRow row.toBytes = .ok (s.stored.table.alignRow row) := by
    rw [TableDef.readRow, Row.fromBytes_toBytes hstorable]
    rfl
  rw [h.step_some hw, ← TableDef.alignRow_eq_self_iff h.placed (h.length_written hw)]
  constructor
  · intro htransparent
    have heq := htransparent rowId
    simp only [StoredTable.read, StoredTable.write, update_self, map_some, hread] at heq
    exact Except.ok.inj (Option.some.inj heq)
  · intro heq rowId'
    simp only [StoredTable.read, StoredTable.write]
    by_cases hrow : rowId' = rowId
    · rw [hrow, update_self, update_self, map_some, hread, heq, map_some]
    · rw [update_of_ne hrow, update_of_ne hrow]
      exact h.transparent rowId'

theorem Sound.alter_iff (hw : s.stored.written a = none) :
    Transparent (s.step a).stored (s.step a).logical ↔
      ∀ rowId bytes raw, s.stored.rows rowId = some bytes → Row.fromBytes bytes = .ok raw →
        s.stored.table.Keeps a raw := by
  have hiff : ∀ rowId bytes raw, s.stored.rows rowId = some bytes → Row.fromBytes bytes = .ok raw →
      ((s.step a).stored.read rowId = ((s.step a).logical.rows rowId).map .ok ↔
        s.stored.table.Keeps a raw) := by
    intro rowId bytes raw hbytes hraw
    obtain ⟨raw', hraw', hlogical⟩ := h.exists_raw hbytes
    obtain rfl : raw' = raw := by
      rw [hraw'] at hraw
      exact Except.ok.inj hraw
    have hlength := h.length rowId _ hlogical
    rw [← TableDef.alignRow_alter_iff h.placed (fun hnil => ?_) hlength, h.step_none hw]
    · simp only [StoredTable.read, hbytes, hlogical, h.table, map_some, TableDef.readRow, hraw]
      simp [Except.map]
    · rw [TableDef.alignRow_of_nil hnil, hnil] at hlength
      exact eq_nil_of_length_eq_zero hlength
  constructor
  · intro htransparent rowId bytes raw hbytes hraw
    exact (hiff rowId bytes raw hbytes hraw).mp (htransparent rowId)
  · intro hkeeps rowId
    cases hbytes : s.stored.rows rowId with
    | none =>
      rw [h.step_none hw]
      simp only [StoredTable.read, hbytes, h.eq_none hbytes, map_none]
    | some bytes =>
      obtain ⟨raw, hraw, -⟩ := h.exists_raw hbytes
      exact (hiff rowId bytes raw hbytes hraw).mpr (hkeeps rowId bytes raw hbytes hraw)

theorem Sound.transparent_step_iff (hstorable : s.Storable a) :
    Transparent (s.step a).stored (s.step a).logical ↔ s.Fits a := by
  cases hw : s.stored.written a with
  | none =>
    rw [h.alter_iff hw]
    constructor
    · intro hkeeps
      refine ⟨fun rowId row hrow => ?_, hkeeps⟩
      rw [hw] at hrow
      cases hrow
    · intro hfits
      exact hfits.2
  | some p =>
    rw [h.write_iff hw (hstorable _ _ hw)]
    constructor
    · intro hlays
      refine ⟨fun rowId row hrow => ?_, fun rowId bytes raw _ _ => DdlAction.keeps_of_written hw raw⟩
      rw [hw] at hrow
      cases hrow
      exact hlays
    · intro hfits
      exact hfits.1 _ _ hw

theorem Sound.step (htransparent : Transparent (s.step a).stored (s.step a).logical) : (s.step a).Sound := by
  cases hw : s.stored.written a with
  | none =>
    rw [h.step_none hw] at htransparent ⊢
    refine ⟨congrArg a.alter h.table, h.kind, TableDef.placed_alter h.placed a, ?_, htransparent⟩
    intro rowId row hrow
    obtain ⟨old, hold, rfl⟩ := map_eq_some_iff.mp hrow
    rw [h.table]
    exact length_alterRow (h.length rowId old hold) a
  | some p =>
    rw [h.step_some hw] at htransparent ⊢
    refine ⟨h.table, h.kind, h.placed, ?_, htransparent⟩
    intro rowId row hrow
    simp only [update_apply] at hrow
    split_ifs at hrow
    · cases hrow
      exact h.length_written hw
    · exact h.length rowId row hrow

end

theorem sound_new {t : TableDef} (h : t.Placed) (kind : TableKind) : (new t kind).Sound where
  table := rfl
  kind := rfl
  placed := h
  length := by
    intro rowId row hrow
    cases hrow
  transparent := fun _ => rfl

end History

inductive NewTable where
  | table (name : String) (columns : List ColumnDef)
  | queue (name : String) (userColumns : List ColumnDef)
  | cache (name : String) (userColumns : List ColumnDef) (ttlMs : Int64)

def NewTable.start : NewTable → History
  | .table name columns => .new (TableDef.new name columns) .plain
  | .queue name userColumns => .new (TableDef.newQueue name userColumns) .queue
  | .cache name userColumns ttlMs => .new (TableDef.newCache name userColumns) (.cache ttlMs)

theorem NewTable.sound (n : NewTable) : n.start.Sound := by
  cases n with
  | table name columns => exact History.sound_new (TableDef.placed_new name columns) _
  | queue name userColumns =>
    exact History.sound_new (t := TableDef.newQueue name userColumns) (TableDef.placed_behind _ userColumns) _
  | cache name userColumns ttlMs =>
    exact History.sound_new (t := TableDef.newCache name userColumns) (TableDef.placed_behind _ userColumns) _

/-- Among the runs that write rows whose bytes can be read, those in which every row always reads as it
should are the ones whose steps all fit. -/
theorem align_row_transparent (n : NewTable) (as : List DdlAction) :
    Meets History.step (fun s a => s.Storable a ∧ s.Fits a) n.start as ↔
      Meets History.step History.Storable n.start as ∧
        ∀ before, before <+: as →
          Transparent (runs History.step n.start before).stored
            (runs History.step n.start before).logical := by
  have hstep : ∀ (s : History) (a : DdlAction), s.Sound → s.Storable a → s.Fits a → (s.step a).Sound :=
    fun s a hsound hstorable hfits => hsound.step ((hsound.transparent_step_iff hstorable).mpr hfits)
  have hfits : ∀ (s : History) (a : DdlAction), s.Sound → s.Storable a →
      Transparent (s.step a).stored (s.step a).logical → s.Fits a :=
    fun s a hsound hstorable htransparent => (hsound.transparent_step_iff hstorable).mp htransparent
  exact meets_and_iff (P := fun s : History => Transparent s.stored s.logical) hstep
    (fun s hsound => hsound.transparent) hfits n.sound as

end

attribute [local instance] plainCrates

def abcTable : NewTable := .table "t" [integerColumn "a", integerColumn "b", integerColumn "c"]

def rowToInsert (vals : List Value) : RowToInsert :=
  ⟨"t", [], vals, fun _ => .ok 0, ⟨⟨0, 0⟩, 0, ""⟩, 1⟩

/-- `b` is dropped, and the value of `c` is written in its place. -/
def dropThenInsert : List DdlAction :=
  [.dropColumn "b", .insert (rowToInsert [.integer 1, .integer 3])]

/-- The row is read without its second value. -/
theorem insert_after_drop_reads_null :
    ¬Transparent (runs History.step abcTable.start dropThenInsert).stored
      (runs History.step abcTable.start dropThenInsert).logical := by
  intro htransparent
  have hnulls := congrArg (fun r => (r.bind Except.toOption).map fun row : Row => row.map Value.isNull)
    (htransparent 1)
  revert hnulls
  decide +kernel

end H2Database.Sql
