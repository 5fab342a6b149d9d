import H2Database.Sql.CatalogStore
import H2Database.Sql.MapNames

/-!
# ALTER TABLE RENAME (`h2-sql/src/executor/statement.rs`, `h2-sql/src/catalog.rs`)

The maps of a table are renamed before its entries, and the old entries are taken out before the new
name is looked for.  When that name is taken, nothing of this is undone.
-/

namespace H2Database.Sql

open Reasoning List

namespace TableDef

/-- The definition under its new name: without a schema it stays in its own. -/
def renamed (t : TableDef) (newName : String) : TableDef :=
  match splitOnce newName with
  | some (schema, name) => { t with schema := schema, name := name }
  | none => { t with name := newName }

def registered (t : TableDef) (idx : IndexDef) : IndexDef :=
  { idx with tableName := if t.schema = "public" then t.name else t.fullName }

theorem fullName_mem_keys (t : TableDef) : t.fullName ∈ t.keys := by
  unfold keys
  split_ifs <;> exact mem_cons_self

end TableDef

namespace Database

variable {M : Type}

def takeOut (db : Database M) (key : String) (t : TableDef) : Database M :=
  ⟨⟨db.catalog.tables.filter fun entry => entry.1 ∉ [key, t.fullName, t.name], db.catalog.indexes⟩,
    { db.stored with tables := without db.stored.tables [t.fullName, t.name] }, db.maps, db.nodup_indexes⟩

/-- The database with a table under its new name, and the indexes of the old one registered for it. -/
def fileAs (db : Database M) (old new : TableDef) : Database M :=
  ⟨⟨new.keys.map (fun key => (key, new)) ++ db.catalog.tables,
      db.catalog.indexes.map fun idx => if old.owns idx then new.registered idx else idx⟩,
    ⟨fun key => if key ∈ new.keys then some new else db.stored.tables key,
      fun name => match (db.ownIndexes old).find? fun idx => idx.name = name with
        | some idx => some (new.registered idx)
        | none => db.stored.indexes name⟩,
    db.maps, by
      have hnames : IndexDef.name ∘ (fun idx => if old.owns idx then new.registered idx else idx) =
          IndexDef.name := by
        funext idx
        show (if old.owns idx then new.registered idx else idx).name = idx.name
        split_ifs <;> rfl
      rw [map_map, hnames]
      exact db.nodup_indexes⟩

/-- `Catalog::rename_table`. -/
def renameTable (db : Database M) (oldName newName : String) : Database M × H2Result Unit :=
  match db.catalog.findTable oldName with
  | none => (db, .error (.catalog s!"Table '{oldName}' not found"))
  | some (key, t) =>
    let rest := db.takeOut key t
    let renamed := t.renamed newName
    if rest.catalog.containsKey renamed.fullName ||
        (renamed.schema = "public" && rest.catalog.containsKey renamed.name) then
      (rest, .error (.catalog s!"Table '{newName}' already exists"))
    else (rest.fileAs t renamed, .ok ())

def renameIndexMap (oldName newName : String) (maps : String → Option M) (idx : IndexDef) :
    String → Option M :=
  (rekey maps (indexMapName oldName idx) (indexMapName newName idx)).getD maps

/-- ALTER TABLE RENAME, with the result of the commit of the store at its end. -/
def executeRename (db : Database M) (ifExists : Bool) (oldName newName : String)
    (committed : H2Result Unit) : Database M × H2Result Unit :=
  if (db.catalog.getTable oldName).isNone then
    (db, if ifExists then .ok () else .error (.catalog s!"Table '{oldName}' not found"))
  else match rekey db.maps (tableMap oldName) (tableMap newName) with
    | none => (db, .error (.storage s!"Map '{tableMap oldName}' not found"))
    | some maps =>
      let maps := (db.catalog.getTableIndexes oldName).foldl (renameIndexMap oldName newName) maps
      match renameTable { db with maps := maps } oldName newName with
      | (db', .ok ()) => (db', committed)
      | failed => failed

/-! ## What a rename that fails leaves -/

/-- The entries of two databases are the same in memory and in the store, and so are the maps. -/
structure Untouched (before after : Database M) : Prop where
  tables : ∀ key, after.catalog.tables.lookup key = before.catalog.tables.lookup key
  indexes : after.catalog.indexes = before.catalog.indexes
  storedTables : after.stored.tables = before.stored.tables
  storedIndexes : after.stored.indexes = before.stored.indexes
  maps : after.maps = before.maps

/-- The table has the new name already, and all that a rename writes is there. -/
structure NothingToRename (db : Database M) (oldName newName : String) (t : TableDef) : Prop where
  spelled : oldName = newName
  name : t.renamed newName = t
  found : ∀ key, db.catalog.tableKey oldName = some key → key ∈ t.keys
  entries : ∀ key ∈ t.keys, db.catalog.tables.lookup key = some t ∧ db.stored.tables key = some t
  plain : t.name ∉ t.keys → db.catalog.tables.lookup t.name = none ∧ db.stored.tables t.name = none
  indexes : ∀ idx ∈ db.catalog.indexes, t.owns idx = true →
    t.registered idx = idx ∧ db.stored.indexes idx.name = some idx

theorem tableMap_ne_indexMapName (table table' : String) (idx : IndexDef) :
    tableMap table ≠ indexMapName table' idx := by
  intro h
  have hchars := congrArg String.toList h
  rw [indexMapName_eq] at hchars
  have htable : (tableMap table).toList = "tbl_".toList ++ table.toList := String.toList_append
  rw [htable, String.toList_append] at hchars
  injection hchars with hchar
  revert hchar
  decide

theorem renameIndexMaps_tableMap (oldName newName : String) (indexes : List IndexDef)
    (maps : String → Option M) (table : String) :
    indexes.foldl (renameIndexMap oldName newName) maps (tableMap table) = maps (tableMap table) := by
  induction indexes generalizing maps with
  | nil => rfl
  | cons idx indexes ih =>
    rw [foldl_cons, ih, renameIndexMap]
    cases hrekey : rekey maps (indexMapName oldName idx) (indexMapName newName idx) with
    | none => rfl
    | some maps' =>
      exact rekey_apply_of_ne hrekey (tableMap_ne_indexMapName table oldName idx)
        (tableMap_ne_indexMapName table newName idx)

theorem renameIndexMaps_self {name : String} (indexes : List IndexDef) (maps : String → Option M) :
    indexes.foldl (renameIndexMap name name) maps = maps := by
  induction indexes with
  | nil => rfl
  | cons idx indexes ih => rw [foldl_cons, renameIndexMap, rekey_self, ih]

theorem renamedMaps_eq_iff {db : Database M} {oldName newName : String} {maps : String → Option M}
    (h : rekey db.maps (tableMap oldName) (tableMap newName) = some maps) (indexes : List IndexDef) :
    indexes.foldl (renameIndexMap oldName newName) maps = db.maps ↔ oldName = newName := by
  obtain ⟨v, hv, _⟩ := Option.map_eq_some_iff.mp h
  constructor
  · intro heq
    by_contra hne
    have hold := renameIndexMaps_tableMap oldName newName indexes maps oldName
    rw [heq, rekey_apply_old h fun hmap => hne (tableMap_inj.mp hmap), hv] at hold
    cases hold
  · intro heq
    have hself := rekey_self db.maps (tableMap newName)
    rw [heq] at h
    rw [h, Option.getD_some] at hself
    rw [heq, renameIndexMaps_self, hself]

section Refiled

variable {db : Database M} {key : String} {t r : TableDef} {maps : String → Option M}

theorem lookup_fileAs (k : String) :
    (({ db with maps := maps }.takeOut key t).fileAs t r).catalog.tables.lookup k =
      if k ∈ r.keys then some r
      else without (fun k => db.catalog.tables.lookup k) [key, t.fullName, t.name] k := by
  rw [← lookup_filter]
  exact lookup_map_append _ _ _ _

theorem find?_ownIndexes {idx : IndexDef} (hidx : idx ∈ db.catalog.indexes) (howns : t.owns idx = true) :
    ((db.ownIndexes t).find? fun jdx => jdx.name = idx.name) = some idx := by
  cases hfind : (db.ownIndexes t).find? fun jdx => jdx.name = idx.name with
  | none =>
    have hnot := find?_eq_none.mp hfind idx (mem_filter.mpr ⟨hidx, howns⟩)
    exact absurd (decide_eq_true rfl) hnot
  | some jdx =>
    have hjdx := (mem_filter.mp (mem_of_find?_eq_some hfind)).1
    have hname := find?_some hfind
    rw [inj_on_of_nodup_map db.nodup_indexes hjdx hidx (of_decide_eq_true hname)]

theorem Untouched.eq_of_fileAs (ht : db.catalog.tables.lookup key = some t)
    (h : Untouched db (({ db with maps := maps }.takeOut key t).fileAs t r)) : r = t ∧ key ∈ r.keys := by
  have hkey := h.tables key
  rw [lookup_fileAs, ht] at hkey
  by_cases hin : key ∈ r.keys
  · rw [if_pos hin] at hkey
    exact ⟨Option.some.inj hkey, hin⟩
  · rw [if_neg hin, without_of_mem mem_cons_self] at hkey
    cases hkey

variable {oldName newName : String}

theorem Untouched.nothingToRename (hspelled : oldName = newName)
    (hkey : db.catalog.tableKey oldName = some key) (ht : db.catalog.tables.lookup key = some t)
    (h : Untouched db (({ db with maps := maps }.takeOut key t).fileAs t (t.renamed newName))) :
    NothingToRename db oldName newName t := by
  obtain ⟨hname, hin⟩ := h.eq_of_fileAs ht
  rw [hname] at h hin
  have hstored : ∀ k, (if k ∈ t.keys then some t else without db.stored.tables [t.fullName, t.name] k) =
      db.stored.tables k := fun k => congrFun h.storedTables k
  refine ⟨hspelled, hname, ?_, ?_, ?_, ?_⟩
  · intro key' hkey'
    rw [hkey] at hkey'
    cases hkey'
    exact hin
  · intro k hk
    rw [← h.tables k, ← hstored k, lookup_fileAs, if_pos hk, if_pos hk]
    exact ⟨rfl, rfl⟩
  · intro hk
    rw [← h.tables t.name, ← hstored t.name, lookup_fileAs, if_neg hk, if_neg hk]
    exact ⟨without_of_mem (by simp), without_of_mem (by simp)⟩
  · intro idx hidx howns
    have hmap : (if t.owns idx then t.registered idx else idx) = idx :=
      map_inj_left.mp (h.indexes.trans (map_id _).symm) idx hidx
    rw [if_pos howns] at hmap
    have hstoredIndex := congrFun h.storedIndexes idx.name
    have hfind := find?_ownIndexes hidx howns
    refine ⟨hmap, hstoredIndex.symm.trans ?_⟩
    show (match (db.ownIndexes t).find? fun jdx => jdx.name = idx.name with
      | some jdx => some (t.registered jdx)
      | none => db.stored.indexes idx.name) = some idx
    rw [hfind]
    exact congrArg some hmap

theorem NothingToRename.untouched (h : NothingToRename db oldName newName t)
    (hkey : db.catalog.tableKey oldName = some key) (hmaps : maps = db.maps) :
    Untouched db (({ db with maps := maps }.takeOut key t).fileAs t (t.renamed newName)) := by
  rw [h.name]
  have hin := h.found key hkey
  have hgone : ∀ k, k ∉ t.keys → k = t.name ∨ k ∉ [key, t.fullName, t.name] := by
    intro k hk
    by_cases heq : k = t.name
    · exact .inl heq
    · right
      simp only [mem_cons, not_mem_nil, or_false, not_or]
      exact ⟨fun h => hk (h ▸ hin), fun h => hk (h ▸ t.fullName_mem_keys), heq⟩
  constructor
  · intro k
    rw [lookup_fileAs]
    by_cases hk : k ∈ t.keys
    · rw [if_pos hk, (h.entries k hk).1]
    · rw [if_neg hk]
      rcases hgone k hk with rfl | hnot
      · rw [(h.plain hk).1]
        exact without_of_mem (by simp)
      · exact without_of_not_mem hnot
  · show db.catalog.indexes.map (fun idx => if t.owns idx then t.registered idx else idx) = db.catalog.indexes
    nth_rewrite 2 [← map_id db.catalog.indexes]
    rw [map_inj_left]
    intro idx hidx
    show (if t.owns idx then t.registered idx else idx) = idx
    split_ifs with howns
    · exact (h.indexes idx hidx howns).1
    · rfl
  · ext1 k
    show (if k ∈ t.keys then some t else without db.stored.tables [t.fullName, t.name] k) = db.stored.tables k
    by_cases hk : k ∈ t.keys
    · rw [if_pos hk, (h.entries k hk).2]
    · rw [if_neg hk]
      rcases hgone k hk with rfl | hnot
      · rw [(h.plain hk).2]
        exact without_of_mem (by simp)
      · exact without_of_not_mem fun hmem => hnot (mem_cons_of_mem _ hmem)
  · ext1 name
    show (match (db.ownIndexes t).find? fun idx => idx.name = name with
      | some idx => some (t.registered idx)
      | none => db.stored.indexes name) = db.stored.indexes name
    cases hfind : (db.ownIndexes t).find? fun idx => idx.name = name with
    | none => rfl
    | some idx =>
      obtain ⟨hidx, howns⟩ := mem_filter.mp (mem_of_find?_eq_some hfind)
      obtain ⟨hregistered, hstored⟩ := h.indexes idx hidx howns
      have hname := find?_some hfind
      rw [decide_eq_true_eq] at hname
      show some (t.registered idx) = db.stored.indexes name
      rw [hregistered, ← hname, hstored]
  · exact hmaps

end Refiled

section Failed

variable {db : Database M} {ifExists : Bool} {oldName newName key : String} {committed : H2Result Unit}
  {t : TableDef}

theorem Untouched.refl (db : Database M) : Untouched db db := ⟨fun _ => rfl, rfl, rfl, rfl, rfl⟩

theorem takeOut_not_containsKey {k : String} (h : k ∈ [key, t.fullName, t.name]) :
    (db.takeOut key t).catalog.containsKey k = false := by
  show ((db.catalog.tables.filter fun entry => entry.1 ∉ [key, t.fullName, t.name]).lookup k).isSome = false
  rw [lookup_filter_of_mem h]
  rfl

theorem takeOut_not_untouched {maps : String → Option M} (ht : db.catalog.tables.lookup key = some t) :
    ¬Untouched db ({ db with maps := maps }.takeOut key t) := by
  intro h
  have hkey := h.tables key
  have hgone : ({ db with maps := maps }.takeOut key t).catalog.tables.lookup key = none :=
    lookup_filter_of_mem mem_cons_self
  rw [hgone, ht] at hkey
  cases hkey

/-- A rename, whether it fails or not, leaves everything as it was exactly if it does not come as far as
the entries, or finds nothing to rename. -/
theorem executeRename_untouched_iff :
    Untouched db (db.executeRename ifExists oldName newName committed).1 ↔
      db.catalog.getTable oldName = none ∨ db.maps (tableMap oldName) = none ∨
        ∃ t, db.catalog.getTable oldName = some t ∧ NothingToRename db oldName newName t := by
  unfold executeRename
  cases hget : db.catalog.getTable oldName with
  | none => exact iff_of_true (Untouched.refl db) (Or.inl rfl)
  | some t =>
    obtain ⟨key, hkey, ht⟩ := Catalog.getTable_eq_some hget
    simp only [Option.isNone_some, Bool.false_eq_true, if_false]
    cases hrekey : rekey db.maps (tableMap oldName) (tableMap newName) with
    | none =>
      have hnone : db.maps (tableMap oldName) = none := Option.map_eq_none_iff.mp hrekey
      exact iff_of_true (Untouched.refl db) (Or.inr (Or.inl hnone))
    | some maps =>
      have hsome : db.maps (tableMap oldName) ≠ none := by
        obtain ⟨v, hv, _⟩ := Option.map_eq_some_iff.mp hrekey
        rw [hv]
        exact Option.some_ne_none v
      have hmaps := renamedMaps_eq_iff hrekey (db.catalog.getTableIndexes oldName)
      simp only [hsome, reduceCtorEq, false_or, Option.some.injEq, exists_eq_left', renameTable,
        Catalog.findTable_of_lookup hkey ht]
      generalize (db.catalog.getTableIndexes oldName).foldl (renameIndexMap oldName newName) maps =
        renamedMaps at hmaps
      split_ifs with htaken
      · apply iff_of_false (takeOut_not_untouched ht)
        intro hnothing
        -- a table that is renamed to its own name does not find it taken
        rw [hnothing.name, takeOut_not_containsKey (by simp), takeOut_not_containsKey (by simp)] at htaken
        simp at htaken
      · constructor
        · intro huntouched
          exact huntouched.nothingToRename (hmaps.mp huntouched.maps) hkey ht
        · intro hnothing
          exact hnothing.untouched hkey (hmaps.mpr hnothing.spelled)

end Failed

/-- The rows of `a` take the place of those of `b`, and `a` is gone from the catalog. -/
theorem rename_to_taken_name : ∃ db after : Database String, oneSchema = .ok db ∧
    db.executeRename false "a" "b" (.ok ()) = (after, .error (.catalog "Table 'b' already exists")) ∧
      after.catalog.getTable "a" = none ∧ after.stored.tables "a" = none ∧
        after.maps "tbl_b" = some "tbl_a" ∧ after.maps "tbl_a" = none ∧ ¬Untouched db after := by
  refine ⟨_, _, rfl, rfl, rfl, rfl, rfl, rfl, ?_⟩
  intro huntouched
  have hkey := huntouched.tables "a"
  cases hkey

end Database

end H2Database.Sql
