import H2Database.Sql.CatalogStore

/-!
# What a DROP TABLE touches (`h2-sql/src/catalog.rs`)

`drop_table` takes out the plain name of its table also where that is the name of a public table, and
every index that is registered under either of its names.
-/

namespace H2Database.Sql

open Reasoning List

namespace Catalog

variable {cat : Catalog}

theorem containsKey_of_lookup {key : String} {t : TableDef} (h : cat.tables.lookup key = some t) :
    cat.containsKey key = true := by
  rw [containsKey, h]
  rfl

theorem tableKey_of_subset {cat' : Catalog} (hsubset : ∀ key, cat'.containsKey key = true →
    cat.containsKey key = true) {name key : String} (hkey : cat.tableKey name = some key)
    (hin : cat'.containsKey key = true) :
    cat'.tableKey name = some key := by
  unfold tableKey at hkey ⊢
  by_cases hname : cat.containsKey name = true
  · rw [if_pos hname] at hkey
    cases hkey
    exact if_pos hin
  · rw [if_neg hname] at hkey
    rw [if_neg fun h => hname (hsubset name h)]
    cases hsplit : splitOnce name with
    | none =>
      rw [hsplit] at hkey
      dsimp only at hkey ⊢
      split_ifs at hkey
      cases hkey
      exact if_pos hin
    | some parts =>
      obtain ⟨first, rest⟩ := parts
      rw [hsplit] at hkey
      dsimp only at hkey ⊢
      split_ifs at hkey with hpublic
      cases hkey
      exact if_pos ⟨hpublic.1, hin⟩

theorem lookup_removeTable (key : String) (t : TableDef) (key' : String) :
    (cat.removeTable key t).tables.lookup key' =
      without (fun k => cat.tables.lookup k) [key, t.fullName, t.name] key' :=
  lookup_filter

theorem getTableIndexes_removeTable (key : String) (t : TableDef) (name : String) :
    (cat.removeTable key t).getTableIndexes name =
      (cat.getTableIndexes name).filter fun idx => !t.owns idx := by
  unfold getTableIndexes removeTable
  dsimp only
  rw [filter_filter, filter_filter]
  exact filter_congr fun idx _ => Bool.and_comm _ _

end Catalog

namespace Database

variable {M : Type}

def mapsOf (db : Database M) (u : TableDef) (spelled : String) : List String :=
  u.mapName :: (db.catalog.getTableIndexes spelled).flatMap fun idx =>
    [indexMapName u.name idx, indexMapName spelled idx]

/-- Of every table but `t` the entries, what its spellings find, its indexes and its maps are the same
before and after. -/
structure TouchesOnly (t : TableDef) (before after : Database M) : Prop where
  entries : ∀ key u, before.catalog.tables.lookup key = some u → u.fullName ≠ t.fullName →
    after.catalog.tables.lookup key = some u
  storedEntries : ∀ key u, before.stored.tables key = some u → u.fullName ≠ t.fullName →
    after.stored.tables key = some u
  lookups : ∀ spelled u, before.catalog.getTable spelled = some u → u.fullName ≠ t.fullName →
    after.catalog.getTable spelled = some u
  indexes : ∀ spelled u, before.catalog.getTable spelled = some u → u.fullName ≠ t.fullName →
    after.catalog.getTableIndexes spelled = before.catalog.getTableIndexes spelled
  storedIndexes : ∀ spelled u, before.catalog.getTable spelled = some u → u.fullName ≠ t.fullName →
    ∀ idx ∈ before.catalog.getTableIndexes spelled,
      after.stored.indexes idx.name = before.stored.indexes idx.name
  maps : ∀ spelled u, before.catalog.getTable spelled = some u → u.fullName ≠ t.fullName →
    ∀ m ∈ before.mapsOf u spelled, after.maps m = before.maps m

/-- No other table is filed under a name of `t`, has an index that is registered under one, or has a
map of the same name. -/
structure Apart (db : Database M) (t : TableDef) : Prop where
  entries : ∀ key ∈ [t.fullName, t.name], ∀ u, db.catalog.tables.lookup key = some u →
    u.fullName = t.fullName
  storedEntries : ∀ key ∈ [t.fullName, t.name], ∀ u, db.stored.tables key = some u →
    u.fullName = t.fullName
  indexes : ∀ spelled u, db.catalog.getTable spelled = some u → u.fullName ≠ t.fullName →
    ∀ idx ∈ db.catalog.getTableIndexes spelled, t.owns idx = false
  maps : ∀ spelled u, db.catalog.getTable spelled = some u → u.fullName ≠ t.fullName →
    ∀ m ∈ db.mapsOf u spelled, m ∈ db.ownMaps t → db.maps m = none

/-- What a DROP TABLE that succeeds leaves of the database: the definition was found under the key. -/
structure Dropped (t : TableDef) (key : String) (before after : Database M) : Prop where
  found : before.catalog.tables.lookup key = some t
  catalog : after.catalog = before.catalog.removeTable key t
  storedTables : after.stored.tables = without before.stored.tables [t.fullName, t.name]
  storedIndexes : after.stored.indexes =
    without before.stored.indexes ((before.ownIndexes t).map IndexDef.name)
  maps : after.maps = without before.maps (before.ownMaps t)

theorem executeDrop_dropped {db : Database M} {ifExists : Bool} {name : String} {t : TableDef}
    (ht : db.catalog.getTable name = some t) (h : (db.executeDrop ifExists name).2 = .ok ()) :
    ∃ key, Dropped t key db (db.executeDrop ifExists name).1 := by
  have hsnd := ht
  rw [← Catalog.findTable_snd] at hsnd
  obtain ⟨⟨key, t'⟩, hfind, heq⟩ := Option.map_eq_some_iff.mp hsnd
  cases heq
  unfold executeDrop at h ⊢
  rw [ht] at h ⊢
  simp only [Option.isNone_some, Bool.false_eq_true, if_false] at h ⊢
  split_ifs at h ⊢ with hreferencing
  rw [dropTable, hfind]
  exact ⟨key, Catalog.lookup_of_findTable hfind, rfl, rfl, rfl, rfl⟩

theorem eq_of_name_eq {db : Database M} {idx jdx : IndexDef} (hidx : idx ∈ db.catalog.indexes)
    (hjdx : jdx ∈ db.catalog.indexes) (h : idx.name = jdx.name) : idx = jdx :=
  inj_on_of_nodup_map db.nodup_indexes hidx hjdx h

namespace Dropped

variable {t : TableDef} {key : String} {db after : Database M}

section

variable (h : Dropped t key db after)

include h

theorem lookup (key' : String) : after.catalog.tables.lookup key' =
    without (fun k => db.catalog.tables.lookup k) [key, t.fullName, t.name] key' := by
  rw [h.catalog, Catalog.lookup_removeTable]

theorem getTableIndexes (spelled : String) :
    after.catalog.getTableIndexes spelled =
      (db.catalog.getTableIndexes spelled).filter fun idx => !t.owns idx := by
  rw [h.catalog, Catalog.getTableIndexes_removeTable]

theorem containsKey {key' : String}
    (hin : after.catalog.containsKey key' = true) : db.catalog.containsKey key' = true := by
  unfold Catalog.containsKey at hin ⊢
  rw [h.lookup] at hin
  by_cases hgone : key' ∈ [key, t.fullName, t.name]
  · rw [without_of_mem hgone] at hin
    cases hin
  · rwa [without_of_not_mem hgone] at hin

theorem apart (htouches : TouchesOnly t db after) : db.Apart t := by
  constructor
  · intro key' hin u hu
    by_contra hne
    have hkept := htouches.entries key' u hu hne
    rw [h.lookup, without_of_mem (mem_cons_of_mem _ hin)] at hkept
    cases hkept
  · intro key' hin u hu
    by_contra hne
    have hkept := htouches.storedEntries key' u hu hne
    rw [h.storedTables, without_of_mem hin] at hkept
    cases hkept
  · intro spelled u hu hne idx hidx
    rw [← htouches.indexes spelled u hu hne, h.getTableIndexes] at hidx
    simpa using (mem_filter.mp hidx).2
  · intro spelled u hu hne m hm hown
    rw [← htouches.maps spelled u hu hne m hm, h.maps]
    exact without_of_mem hown

theorem entries (hapart : db.Apart t) {key' : String} {u : TableDef}
    (hu : db.catalog.tables.lookup key' = some u) (hne : u.fullName ≠ t.fullName) :
    after.catalog.tables.lookup key' = some u := by
  rw [h.lookup, without_of_not_mem, hu]
  intro hin
  rcases mem_cons.mp hin with heq | hin
  · rw [heq, h.found] at hu
    exact hne (congrArg TableDef.fullName (Option.some.inj hu)).symm
  · exact hne (hapart.entries key' hin u hu)

theorem touchesOnly (hapart : db.Apart t) : TouchesOnly t db after where
  entries := fun _ _ hu hne => h.entries hapart hu hne
  storedEntries := by
    intro key' u hu hne
    rw [h.storedTables, without_of_not_mem fun hin => hne (hapart.storedEntries key' hin u hu), hu]
  lookups := by
    intro spelled u hu hne
    obtain ⟨key', hspelled, hlookup⟩ := Catalog.getTable_eq_some hu
    have hkept := h.entries hapart hlookup hne
    have hsame := Catalog.tableKey_of_subset (fun _ hin => h.containsKey hin) hspelled
      (Catalog.containsKey_of_lookup hkept)
    rw [Catalog.getTable, hsame]
    exact hkept
  indexes := by
    intro spelled u hu hne
    rw [h.getTableIndexes, filter_eq_self]
    intro idx hidx
    rw [hapart.indexes spelled u hu hne idx hidx]
    rfl
  storedIndexes := by
    intro spelled u hu hne idx hidx
    rw [h.storedIndexes]
    apply without_of_not_mem
    intro hin
    -- a dropped index of the same name would be the same index
    obtain ⟨jdx, hjdx, hname⟩ := mem_map.mp hin
    obtain ⟨hjdx, howns⟩ := mem_filter.mp hjdx
    have heq := eq_of_name_eq hjdx (mem_filter.mp hidx).1 hname
    rw [heq, hapart.indexes spelled u hu hne idx hidx] at howns
    cases howns
  maps := by
    intro spelled u hu hne m hm
    rw [h.maps]
    exact without_eq_self_iff.mpr (hapart.maps spelled u hu hne m hm)

end

end Dropped

/-- A DROP TABLE that succeeds touches its table only exactly if the table stands apart. -/
theorem executeDrop_touchesOnly_iff {db : Database M} {ifExists : Bool} {name : String} {t : TableDef}
    (ht : db.catalog.getTable name = some t) (h : (db.executeDrop ifExists name).2 = .ok ()) :
    TouchesOnly t db (db.executeDrop ifExists name).1 ↔ db.Apart t := by
  obtain ⟨key, hdropped⟩ := executeDrop_dropped ht h
  exact ⟨hdropped.apart, hdropped.touchesOnly⟩

/-- Where the two public tables have no index, one can be dropped beside the other. -/
theorem executeDrop_touchesOnly_oneSchema : ∃ db : Database String, oneSchema = .ok db ∧
    TouchesOnly (tableOf "public" "a") db (db.executeDrop false "a").1 := by
  refine ⟨_, rfl, (executeDrop_touchesOnly_iff rfl rfl).mpr ⟨?_, ?_, ?_, ?_⟩⟩
  · intro key hkey u hu
    rcases mem_pair.mp hkey with rfl | rfl
    all_goals
      cases hu
      rfl
  · intro key hkey u hu
    rcases mem_pair.mp hkey with rfl | rfl
    all_goals
      cases hu
      rfl
  · intro spelled u hu hne idx hidx
    cases hidx
  · intro spelled u hu hne m hm hown
    obtain ⟨key, hin⟩ := Catalog.mem_tables_of_getTable hu
    have hother : u = tableOf "public" "b" := by
      simp only [mem_cons, Prod.mk.injEq] at hin
      rcases hin with h | h | h | h | h
      · exact h.2
      · exact h.2
      · exact absurd (congrArg TableDef.fullName h.2) hne
      · exact absurd (congrArg TableDef.fullName h.2) hne
      · cases h
    rw [hother] at hm
    have hb := mem_singleton.mp hm
    have ha := mem_singleton.mp hown
    exact absurd (hb.symm.trans ha) (by decide +kernel)

/-- DROP TABLE s.t takes the index of the public table t with it. -/
theorem drop_takes_index_of_public : ∃ db after : Database String, twoSchemas = .ok db ∧
    db.executeDrop false "s.t" = (after, .ok ()) ∧
      db.catalog.getTableIndexes "t" = [⟨"i", "t", ["a"], false⟩] ∧
        after.catalog.getTableIndexes "t" = [] ∧ ¬TouchesOnly (tableOf "s" "t") db after := by
  refine ⟨_, _, rfl, rfl, ?_, ?_, ?_⟩
  · decide +kernel
  · decide +kernel
  · intro htouches
    have hindexes := htouches.indexes "t" (tableOf "public" "t") rfl (by decide +kernel)
    revert hindexes
    decide +kernel

end Database

end H2Database.Sql
