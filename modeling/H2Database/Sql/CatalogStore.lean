import H2Database.Reasoning.PartialMap
import H2Database.Sql.RowIds

/-!
# The stored catalog (`h2-sql/src/catalog.rs`, `h2-sql/src/executor/statement.rs`)

A database has its catalog twice, in memory and as the entries `tbl:<key>` and `idx:<name>` of the map
`_catalog`.  Neither belongs to a transaction, and neither do the maps of the store.
-/

namespace H2Database.Sql

open Reasoning Option

structure StoredEntries where
  tables : String → Option TableDef
  indexes : String → Option IndexDef

/-- A database over maps with contents of the type `M`.  In memory an index is filed under its name. -/
structure Database (M : Type) where
  catalog : Catalog
  stored : StoredEntries
  maps : String → Option M
  nodup_indexes : (catalog.indexes.map IndexDef.name).Nodup

/-- The entries that a table is filed under when it is created or renamed. -/
def TableDef.keys (t : TableDef) : List String :=
  if t.schema = "public" then [t.fullName, t.name] else [t.fullName]

/-- An index on a table, by the name it is registered under.  DROP and RENAME take both names of a
table for its own, also outside the schema `public`. -/
def TableDef.owns (t : TableDef) (idx : IndexDef) : Bool :=
  idx.tableName = t.fullName || idx.tableName = t.name

namespace Catalog

def findTable (cat : Catalog) (name : String) : Option (String × TableDef) :=
  (cat.tableKey name).bind fun key => (cat.tables.lookup key).map fun t => (key, t)

theorem findTable_snd (cat : Catalog) (name : String) :
    (cat.findTable name).map Prod.snd = cat.getTable name := by
  rw [findTable, getTable]
  cases cat.tableKey name with
  | none => rfl
  | some key =>
    rw [bind_some, bind_some, map_map]
    exact map_id'

variable {cat : Catalog} {t : TableDef}

theorem lookup_of_findTable {name key : String}
    (h : cat.findTable name = some (key, t)) : cat.tables.lookup key = some t := by
  obtain ⟨k, _, hmap⟩ := bind_eq_some_iff.mp h
  obtain ⟨t', ht', heq⟩ := map_eq_some_iff.mp hmap
  cases heq
  exact ht'

theorem findTable_of_lookup {name key : String}
    (hkey : cat.tableKey name = some key) (ht : cat.tables.lookup key = some t) :
    cat.findTable name = some (key, t) := by
  rw [findTable, hkey, bind_some, ht]
  rfl

theorem getTable_eq_some {name : String} (h : cat.getTable name = some t) :
    ∃ key, cat.tableKey name = some key ∧ cat.tables.lookup key = some t :=
  bind_eq_some_iff.mp h

def removeTable (cat : Catalog) (key : String) (t : TableDef) : Catalog :=
  ⟨cat.tables.filter fun entry => entry.1 ∉ [key, t.fullName, t.name],
    cat.indexes.filter fun idx => !t.owns idx⟩

end Catalog

namespace Database

variable {M : Type}

def createTable (db : Database M) (schemas views : List String) (t : TableDef) : H2Result (Database M) :=
  match h : db.catalog.createTable schemas views t with
  | .error e => .error e
  | .ok catalog =>
    .ok ⟨catalog,
      { db.stored with tables := fun key => if key ∈ t.keys then some t else db.stored.tables key },
      db.maps, by
        have hindexes : catalog.indexes = db.catalog.indexes := by
          unfold Catalog.createTable at h
          split_ifs at h <;> cases h <;> rfl
        rw [hindexes]
        exact db.nodup_indexes⟩

def createIndex (db : Database M) (idx : IndexDef) : H2Result (Database M) :=
  if h : idx.name ∈ db.catalog.indexes.map IndexDef.name then
    .error (.catalog s!"Index '{idx.name}' already exists")
  else .ok ⟨⟨db.catalog.tables, idx :: db.catalog.indexes⟩,
    { db.stored with indexes := Function.update db.stored.indexes idx.name (some idx) }, db.maps,
    List.nodup_cons.mpr ⟨h, db.nodup_indexes⟩⟩

def ownIndexes (db : Database M) (t : TableDef) : List IndexDef := db.catalog.indexes.filter t.owns

def ownMaps (db : Database M) (t : TableDef) : List String :=
  t.mapName :: (db.ownIndexes t).map (indexMapName t.name)

/-- `Catalog::drop_table`, and the maps it returns. -/
def dropTable (db : Database M) (name : String) : H2Result (Database M × List String) :=
  match db.catalog.findTable name with
  | none => .error (.catalog s!"Table '{name}' not found")
  | some (key, t) =>
    .ok (⟨db.catalog.removeTable key t,
      ⟨without db.stored.tables [t.fullName, t.name],
        without db.stored.indexes ((db.ownIndexes t).map IndexDef.name)⟩,
      db.maps, db.nodup_indexes.sublist (List.filter_sublist.map _)⟩, db.ownMaps t)

def executeDrop (db : Database M) (ifExists : Bool) (name : String) : Database M × H2Result Unit :=
  if (db.catalog.getTable name).isNone then
    (db, if ifExists then .ok () else .error (.catalog s!"Table '{name}' not found"))
  else
    let referencing := db.catalog.getTablesReferencing name
    if !referencing.isEmpty then
      let childNames := String.intercalate ", " (referencing.map fun child => child.1.name)
      (db, .error (.execution s!"Cannot drop table '{name}' because it is referenced by: {childNames}"))
    else match db.dropTable name with
      | .error e => (db, .error e)
      | .ok (db', droppedMaps) => ({ db' with maps := without db'.maps droppedMaps }, .ok ())

/-- The database without tables, where the contents of each map are its name. -/
def blank : Database String := ⟨⟨[], []⟩, ⟨fun _ => none, fun _ => none⟩, some, List.nodup_nil⟩

/-- The table `t` of a schema. -/
def tableOf (schema name : String) : TableDef := ⟨name, schema, [⟨"a", .integer, none, none⟩], []⟩

def oneSchema : H2Result (Database String) := do
  let db ← blank.createTable ["public"] [] (tableOf "public" "a")
  db.createTable ["public"] [] (tableOf "public" "b")

def twoSchemas : H2Result (Database String) := do
  let db ← blank.createTable ["public", "s"] [] (tableOf "public" "t")
  let db ← db.createIndex ⟨"i", "t", ["a"], false⟩
  db.createTable ["public", "s"] [] (tableOf "s" "t")

end Database

end H2Database.Sql
