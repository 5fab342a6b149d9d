import H2Database.Reasoning.Joined
import H2Database.Sql.RowIds
import Mathlib.Data.List.TakeDrop

/-!
# Which map a statement opens (`h2-sql/src/executor`)

A table has the map `TableDef::map_name`, an index the map `idx_<table>_<index>`.  Some statements take
these names from the definition, others put them together from the name as it is spelled.  The names
of different objects differ, and every spelling leads to the same one, exactly when no identifier can
be divided at another underscore and only the plain names of public tables are put together.
-/

namespace H2Database.Sql

open Reasoning List

/-- The places that open a map.  `search` is the index lookup of an UPDATE or DELETE, `truncateCheck`
the one that looks into the referencing tables, `upkeep` what `admin.rs` and autovacuum do. -/
inductive MapUse where
  | insert
  | select
  | search
  | update
  | delete
  | merge
  | copyFrom
  | truncate
  | truncateCheck
  | createIndex
  | dropIndex
  | dropTable
  | renameFrom
  | renameTo
  | parentCheck
  | childAction
  | upkeep
  deriving DecidableEq

def MapUse.rowMap (t : TableDef) (spelled : String) : MapUse → Option String
  | .dropIndex => none
  -- ALTER TABLE RENAME joins what the statement says, the check of a row what its foreign key says
  | .renameFrom | .renameTo | .parentCheck => some (tableMap spelled)
  -- these drop the schema of the referencing table
  | .truncateCheck | .childAction => some (tableMap t.name)
  | .insert | .select | .search | .update | .delete | .merge | .copyFrom | .truncate | .createIndex
  | .dropTable | .upkeep => some t.mapName

def MapUse.indexMap (t : TableDef) (spelled : String) (idx : IndexDef) : MapUse → Option String
  | .parentCheck | .truncateCheck => none
  | .dropIndex => some (indexMapName idx.tableName idx)
  | .update | .delete | .copyFrom | .truncate | .createIndex | .renameFrom | .renameTo =>
    some (indexMapName spelled idx)
  | .insert | .select | .search | .merge | .dropTable | .childAction | .upkeep =>
    some (indexMapName t.name idx)

/-- A statement that opens maps, and the name it gives the table. -/
structure NamedUse where
  use : MapUse
  spelled : String

/-! ## The names -/

theorem tableMap_inj {a b : String} : tableMap a = tableMap b ↔ a = b := by
  show "tbl_" ++ a = "tbl_" ++ b ↔ _
  rw [String.append_right_inj]

theorem indexMapName_eq (table : String) (idx : IndexDef) :
    indexMapName table idx = "idx_" ++ joined '_' table idx.name := by
  simp [indexMapName, joined, String.append_assoc]
  rfl

theorem indexMapName_inj {table table' : String} {idx : IndexDef} :
    indexMapName table idx = indexMapName table' idx ↔ table = table' := by
  rw [indexMapName_eq, indexMapName_eq, String.append_right_inj, joined_right_inj]

theorem indexMapName_eq_iff {table table' : String} {idx jdx : IndexDef} :
    indexMapName table idx = indexMapName table' jdx ↔
      (table = table' ∧ idx.name = jdx.name) ∨ Redivided '_' table idx.name table' jdx.name ∨
        Redivided '_' table' jdx.name table idx.name := by
  rw [indexMapName_eq, indexMapName_eq, String.append_right_inj, joined_eq_joined_iff]

namespace TableDef

theorem fullName_eq (t : TableDef) : t.fullName = joined '.' t.schema t.name := by
  simp [fullName, joined]
  rfl

theorem mapName_public {t : TableDef} (h : t.schema = "public") : t.mapName = tableMap t.name := if_pos h

theorem mapName_schema {t : TableDef} (h : t.schema ≠ "public") :
    t.mapName = tableMap (joined '_' t.schema t.name) := by
  rw [mapName, if_neg h]
  rfl

end TableDef

theorem eq_joined_of_splitOnce {name first rest : String} (h : splitOnce name = some (first, rest)) :
    name = joined '.' first rest := by
  rw [eq_joined_iff]
  unfold splitOnce at h
  rw [span_eq_takeWhile_dropWhile] at h
  have hname := takeWhile_append_dropWhile (p := (· ≠ '.')) (l := name.toList)
  cases hdrop : name.toList.dropWhile (· ≠ '.') with
  | nil =>
    rw [hdrop] at h
    cases h
  | cons c cs =>
    have hc : c = '.' := by
      have hhead := head?_dropWhile_not (· ≠ '.') name.toList
      rw [hdrop] at hhead
      simpa using hhead
    rw [hdrop] at h hname
    obtain ⟨rfl, rfl⟩ := Prod.mk.inj (Option.some.inj h)
    rw [String.toList_ofList, String.toList_ofList]
    nth_rewrite 1 [← hname]
    rw [hc]

namespace Catalog

variable {cat : Catalog} {spelled key : String} {t : TableDef}

theorem tableKey_cases (h : cat.tableKey spelled = some key) :
    key = spelled ∨ key.toList.length ≠ spelled.toList.length := by
  unfold tableKey at h
  by_cases hkey : cat.containsKey spelled = true
  · left
    rw [if_pos hkey] at h
    exact (Option.some.inj h).symm
  · right
    rw [if_neg hkey] at h
    cases hsplit : splitOnce spelled with
    | none =>
      rw [hsplit] at h
      simp only at h
      split_ifs at h
      cases h
      have hlength : ("public." ++ spelled).toList.length = 7 + spelled.toList.length := by
        rw [String.toList_append, length_append]
        rfl
      show ("public." ++ spelled).toList.length ≠ _
      omega
    | some parts =>
      obtain ⟨first, rest⟩ := parts
      rw [hsplit] at h
      simp only at h
      split_ifs at h
      cases h
      rw [eq_joined_of_splitOnce hsplit, length_joined]
      omega

theorem tableMap_eq_mapName_iff (hown : ∀ key t, cat.tables.lookup key = some t → IsKeyOf t key)
    (ht : cat.getTable spelled = some t) :
    tableMap spelled = t.mapName ↔ t.schema = "public" ∧ spelled = t.name := by
  by_cases hpublic : t.schema = "public"
  · rw [TableDef.mapName_public hpublic, tableMap_inj]
    exact ⟨fun h => ⟨hpublic, h⟩, fun h => h.2⟩
  · rw [TableDef.mapName_schema hpublic, tableMap_inj]
    constructor
    · intro hspelled
      exfalso
      obtain ⟨key, hkey, hlookup⟩ := Option.bind_eq_some_iff.mp ht
      have hfull : key = joined '.' t.schema t.name :=
        ((hown key t hlookup).resolve_right fun h => hpublic h.1).trans t.fullName_eq
      rcases tableKey_cases hkey with h | h
      · exact joined_ne_joined (by decide) t.schema t.name ((hfull.symm.trans h).trans hspelled)
      · apply h
        rw [hfull, hspelled, length_joined, length_joined]
    · intro h
      exact absurd h.1 hpublic

end Catalog

/-! ## Distinct maps -/

/-- Different objects have different maps, and each statement opens the map of its table and of the
table's indexes. -/
structure DistinctMaps (cat : Catalog) (uses : List NamedUse) : Prop where
  tables : ∀ key key' t u, cat.tables.lookup key = some t → cat.tables.lookup key' = some u →
    (t.schema, t.name) ≠ (u.schema, u.name) → t.mapName ≠ u.mapName
  indexes : ∀ idx ∈ cat.indexes, ∀ jdx ∈ cat.indexes, ∀ t u, cat.getTable idx.tableName = some t →
    cat.getTable jdx.tableName = some u → (t.schema, t.name) ≠ (u.schema, u.name) →
      idx.name ≠ jdx.name → indexMapName t.name idx ≠ indexMapName u.name jdx
  rows : ∀ n ∈ uses, ∀ t, cat.getTable n.spelled = some t →
    ∀ m ∈ n.use.rowMap t n.spelled, m = t.mapName
  entries : ∀ n ∈ uses, ∀ t, cat.getTable n.spelled = some t → ∀ idx ∈ cat.indexes,
    cat.getTable idx.tableName = some t →
      ∀ m ∈ n.use.indexMap t n.spelled idx, m = indexMapName t.name idx

/-- No name of a table can be divided into the names of another one.  Without its schema a public
table has one name only. -/
structure Undivided (cat : Catalog) : Prop where
  bare : ∀ key key' t u, cat.tables.lookup key = some t → cat.tables.lookup key' = some u →
    t.schema = "public" → u.schema ≠ "public" → t.name ≠ joined '_' u.schema u.name
  schemas : ∀ key key' t u, cat.tables.lookup key = some t → cat.tables.lookup key' = some u →
    t.schema ≠ "public" → u.schema ≠ "public" → ¬Redivided '_' t.schema t.name u.schema u.name
  indexes : ∀ idx ∈ cat.indexes, ∀ jdx ∈ cat.indexes, ∀ t u, cat.getTable idx.tableName = some t →
    cat.getTable jdx.tableName = some u → (t.schema, t.name) ≠ (u.schema, u.name) →
      ¬Redivided '_' t.name idx.name u.name jdx.name

/-- The name of the table is one from which the place puts its maps together. -/
def PlainlyNamed (cat : Catalog) (t : TableDef) (spelled : String) : MapUse → Prop
  | .insert | .select | .search | .merge | .dropTable | .upkeep => True
  | .parentCheck => t.schema = "public" ∧ spelled = t.name
  | .renameFrom | .renameTo => t.schema = "public" ∧ spelled = t.name
  | .truncateCheck | .childAction => t.schema = "public"
  | .update | .delete | .copyFrom | .truncate | .createIndex =>
    ∀ idx ∈ cat.indexes, cat.getTable idx.tableName = some t → spelled = t.name
  | .dropIndex => ∀ idx ∈ cat.indexes, cat.getTable idx.tableName = some t → idx.tableName = t.name

section Different

variable {cat : Catalog} {t u : TableDef}

theorem mapName_ne_iff (hdiff : (t.schema, t.name) ≠ (u.schema, u.name)) :
    t.mapName ≠ u.mapName ↔
      (t.schema = "public" → u.schema ≠ "public" → t.name ≠ joined '_' u.schema u.name) ∧
        (u.schema = "public" → t.schema ≠ "public" → u.name ≠ joined '_' t.schema t.name) ∧
          (t.schema ≠ "public" → u.schema ≠ "public" → ¬Redivided '_' t.schema t.name u.schema u.name ∧
            ¬Redivided '_' u.schema u.name t.schema t.name) := by
  by_cases ht : t.schema = "public"
  · by_cases hu : u.schema = "public"
    · have hne : t.name ≠ u.name := fun h => hdiff (by rw [ht, hu, h])
      simp [TableDef.mapName_public ht, TableDef.mapName_public hu, tableMap_inj, ht, hu, hne]
    · simp [TableDef.mapName_public ht, TableDef.mapName_schema hu, tableMap_inj, ht, hu]
  · by_cases hu : u.schema = "public"
    · simp [TableDef.mapName_schema ht, TableDef.mapName_public hu, tableMap_inj, ht, hu,
        eq_comm (a := u.name)]
    · have hne : ¬(t.schema = u.schema ∧ t.name = u.name) := fun h => hdiff (by rw [h.1, h.2])
      simp [TableDef.mapName_schema ht, TableDef.mapName_schema hu, tableMap_inj, ht, hu,
        joined_eq_joined_iff, hne]

theorem indexMapName_ne_iff {idx jdx : IndexDef} (hname : idx.name ≠ jdx.name) :
    indexMapName t.name idx ≠ indexMapName u.name jdx ↔
      ¬Redivided '_' t.name idx.name u.name jdx.name ∧
        ¬Redivided '_' u.name jdx.name t.name idx.name := by
  simp [indexMapName_eq_iff, hname]

theorem tableMap_name_eq_iff : tableMap t.name = t.mapName ↔ t.schema = "public" := by
  by_cases ht : t.schema = "public"
  · simp [TableDef.mapName_public ht, ht]
  · simp only [TableDef.mapName_schema ht, tableMap_inj, ht, iff_false]
    intro h
    have hlength := congrArg (fun name : String => name.toList.length) h
    simp only [length_joined] at hlength
    omega

theorem plainlyNamed_iff (hown : ∀ key t, cat.tables.lookup key = some t → Catalog.IsKeyOf t key)
    {spelled : String} (ht : cat.getTable spelled = some t) (use : MapUse) :
    PlainlyNamed cat t spelled use ↔
      (∀ m ∈ use.rowMap t spelled, m = t.mapName) ∧
        ∀ idx ∈ cat.indexes, cat.getTable idx.tableName = some t →
          ∀ m ∈ use.indexMap t spelled idx, m = indexMapName t.name idx := by
  have hspelled := Catalog.tableMap_eq_mapName_iff hown ht
  cases use <;>
    simp only [PlainlyNamed, MapUse.rowMap, MapUse.indexMap, Option.mem_def, Option.some.injEq,
      forall_eq', hspelled, tableMap_name_eq_iff, indexMapName_inj, true_and, and_true, implies_true,
      reduceCtorEq, false_implies]
  -- a renamed table is plainly named with its indexes
  all_goals exact ⟨fun h => ⟨h, fun _ _ _ => h.2⟩, fun h => h.1⟩

end Different

/-- The maps are distinct exactly when no name can be divided into the names of another object, and
the statements put together no other names than those of public tables. -/
theorem distinctMaps_iff {cat : Catalog}
    (hown : ∀ key t, cat.tables.lookup key = some t → Catalog.IsKeyOf t key) (uses : List NamedUse) :
    DistinctMaps cat uses ↔ Undivided cat ∧ ∀ n ∈ uses, ∀ t, cat.getTable n.spelled = some t →
      PlainlyNamed cat t n.spelled n.use := by
  constructor
  · intro h
    refine ⟨⟨?_, ?_, ?_⟩, fun n hn t ht =>
      (plainlyNamed_iff hown ht n.use).mpr ⟨h.rows n hn t ht, h.entries n hn t ht⟩⟩
    · intro key key' t u hkey hkey' ht hu
      have hdiff : (t.schema, t.name) ≠ (u.schema, u.name) := fun heq =>
        hu ((congrArg Prod.fst heq).symm.trans ht)
      exact ((mapName_ne_iff hdiff).mp (h.tables key key' t u hkey hkey' hdiff)).1 ht hu
    · intro key key' t u hkey hkey' ht hu hdivided
      have hdiff : (t.schema, t.name) ≠ (u.schema, u.name) := fun heq =>
        hdivided.ne.1 (congrArg Prod.fst heq)
      exact (((mapName_ne_iff hdiff).mp (h.tables key key' t u hkey hkey' hdiff)).2.2 ht hu).1 hdivided
    · intro idx hidx jdx hjdx t u ht hu hdiff hdivided
      exact ((indexMapName_ne_iff hdivided.ne.2).mp
        (h.indexes idx hidx jdx hjdx t u ht hu hdiff hdivided.ne.2)).1 hdivided
  · intro h
    obtain ⟨hnames, huses⟩ := h
    refine ⟨?_, ?_, fun n hn t ht => ((plainlyNamed_iff hown ht n.use).mp (huses n hn t ht)).1,
      fun n hn t ht => ((plainlyNamed_iff hown ht n.use).mp (huses n hn t ht)).2⟩
    · intro key key' t u hkey hkey' hdiff
      exact (mapName_ne_iff hdiff).mpr ⟨hnames.bare key key' t u hkey hkey',
        hnames.bare key' key u t hkey' hkey, fun ht hu => ⟨hnames.schemas key key' t u hkey hkey' ht hu,
          hnames.schemas key' key u t hkey' hkey hu ht⟩⟩
    · intro idx hidx jdx hjdx t u ht hu hdiff hname
      exact (indexMapName_ne_iff hname).mpr ⟨hnames.indexes idx hidx jdx hjdx t u ht hu hdiff,
        hnames.indexes jdx hjdx idx hidx u t hu ht hdiff.symm⟩

/-- The table `bareTable` with an index. -/
def indexedCatalog : Catalog := ⟨bareCatalog.tables, [⟨"i", "t", ["c"], false⟩]⟩

theorem indexed_lookup {key : String} {t : TableDef} (h : indexedCatalog.tables.lookup key = some t) :
    Catalog.IsKeyOf t key ∧ t = bareTable := by
  have hkey := filed_bareCatalog.own key t h
  refine ⟨hkey, ?_⟩
  rw [indexedCatalog, bareCatalog, Catalog.lookup_cons_eq_ite, Catalog.lookup_cons_eq_ite] at h
  split_ifs at h
  all_goals cases h
  all_goals rfl

theorem indexed_getTable {spelled : String} {t : TableDef} (h : indexedCatalog.getTable spelled = some t) :
    t = bareTable := by
  obtain ⟨key, _, hlookup⟩ := Option.bind_eq_some_iff.mp h
  exact (indexed_lookup hlookup).2

/-- An INSERT may spell the schema, a DELETE may not. -/
theorem distinctMaps_plainDelete :
    DistinctMaps indexedCatalog [⟨.insert, "public.t"⟩, ⟨.delete, "t"⟩] := by
  refine (distinctMaps_iff (fun key t h => (indexed_lookup h).1) _).mpr ⟨⟨?_, ?_, ?_⟩, ?_⟩
  · intro key key' t u _ hu _ hpublic
    rw [(indexed_lookup hu).2] at hpublic
    exact absurd rfl hpublic
  · intro key key' t u ht _ hpublic
    rw [(indexed_lookup ht).2] at hpublic
    exact absurd rfl hpublic
  · intro idx _ jdx _ t u ht hu hdiff
    rw [indexed_getTable ht, indexed_getTable hu] at hdiff
    exact absurd rfl hdiff
  · intro n hn t ht
    rw [indexed_getTable ht]
    simp only [mem_cons, not_mem_nil, or_false] at hn
    rcases hn with rfl | rfl
    · trivial
    · intro _ _ _
      rfl

/-- The table `b` of the schema `a` beside the public table `a_b`. -/
def dividedCatalog : Catalog :=
  ⟨[("a.b", ⟨"b", "a", [], []⟩), ("public.a_b", ⟨"a_b", "public", [], []⟩),
    ("a_b", ⟨"a_b", "public", [], []⟩)], []⟩

/-- The two tables have one map, and a DELETE that spells the schema leaves the entries of the index
where they are. -/
theorem maps_not_distinct :
    ¬DistinctMaps dividedCatalog [] ∧ ¬DistinctMaps indexedCatalog [⟨.delete, "public.t"⟩] := by
  constructor
  · intro h
    exact h.tables "a.b" "a_b" ⟨"b", "a", [], []⟩ ⟨"a_b", "public", [], []⟩ rfl rfl (by decide)
      (by decide +kernel)
  · intro h
    have hmap := h.entries ⟨.delete, "public.t"⟩ mem_cons_self bareTable rfl
      ⟨"i", "t", ["c"], false⟩ mem_cons_self rfl _ rfl
    exact absurd hmap (by decide +kernel)

end H2Database.Sql
