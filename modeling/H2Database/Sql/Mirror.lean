import H2Database.Reasoning.Run
import H2Database.Sql.Session

/-!
# Indexes mirror their tables

The entries of an index are to be those of the rows of its table, whatever statements are carried out.
Each statement keeps the entries in its own way, from the row it has read, under the name it was given
for the table, and foreign-key actions from the first column of an index.  `Changed` is what all of them
are to do to the maps; a step that does it keeps every index a mirror.
-/

namespace H2Database.Sql

open Reasoning Mvstore Option

def Catalog.Defines (cat : Catalog) (t : TableDef) : Prop := ∃ name, cat.getTable name = some t

def Catalog.Has (cat : Catalog) (t : TableDef) (idx : IndexDef) : Prop :=
  idx ∈ cat.indexes ∧ cat.getTable idx.tableName = some t

variable [Crates]

/-! ## Rows and entries -/

def rowAt (view : View) (t : TableDef) (key : Key) : Option Row :=
  ((view t.mapName).get key).bind fun bytes => (t.readRow bytes).toOption

variable {t : TableDef}

theorem exists_of_mem_readRows {entries : List (Key × List UInt8)} {rows : List (Key × Row)}
    (h : readRows t entries = .ok rows) {p : Key × Row} (hp : p ∈ rows) :
    ∃ e ∈ entries, e.1 = p.1 ∧ t.readRow e.2 = .ok p.2 := by
  induction entries generalizing rows with
  | nil =>
    cases h
    cases hp
  | cons e entries ih =>
    obtain ⟨row, hrow, h⟩ := H2Result.bind_eq_ok.mp h
    obtain ⟨rest, hrest, h⟩ := H2Result.bind_eq_ok.mp h
    cases h
    rcases List.mem_cons.mp hp with rfl | hin
    · exact ⟨e, List.mem_cons_self, rfl, hrow⟩
    · obtain ⟨e', he', heq⟩ := ih hrest hin
      exact ⟨e', List.mem_cons_of_mem _ he', heq⟩

def entryOf (t : TableDef) (idx : IndexDef) (key : Key) (row : Row) : Option Key :=
  (t.getIndexValues idx row).map fun vals => encodeCompositeIndexKey vals (keyRowId key)

def entryAt (view : View) (t : TableDef) (idx : IndexDef) (key : Key) : Option Key :=
  (rowAt view t key).bind (entryOf t idx key)

def Mirrors (view : View) (t : TableDef) (idx : IndexDef) : Prop :=
  ∀ k, ((view (indexMapName t.name idx)).get k).isSome ↔ ∃ key, entryAt view t idx key = some k

def RowKeys (view : View) : Prop :=
  ∀ name k, ((view (tableMap name)).get k).isSome → k.length = 8

section

omit [Crates]

theorem rowKey_length (rowId : UInt64) : (rowKey rowId).length = 8 := length_leBytes 8 _

theorem keyRowId_rowKey (rowId : UInt64) : keyRowId (rowKey rowId) = rowId := by
  unfold keyRowId rowKey
  rw [if_pos (length_leBytes 8 _), fromLe_leBytes_of_lt (UInt64.toNat_lt rowId), UInt64.ofNat_toNat]

theorem eq_of_keyRowId {k k' : Key} (hk : k.length = 8) (hk' : k'.length = 8)
    (h : keyRowId k = keyRowId k') : k = k' := by
  have hlt : ∀ {b : Key}, b.length = 8 → fromLe b < UInt64.size := by
    intro b hb
    have := fromLe_lt b
    rw [hb] at this
    exact this
  rw [keyRowId, keyRowId, if_pos hk, if_pos hk', ← UInt64.toNat_inj,
    UInt64.toNat_ofNat_of_lt' (hlt hk), UInt64.toNat_ofNat_of_lt' (hlt hk')] at h
  calc k = leBytes 8 (fromLe k) := by rw [← hk, leBytes_fromLe]
    _ = leBytes 8 (fromLe k') := by rw [h]
    _ = k' := by rw [← hk', leBytes_fromLe]

theorem mapName_eq (t : TableDef) : ∃ name, t.mapName = tableMap name := by
  unfold TableDef.mapName
  split_ifs <;> exact ⟨_, rfl⟩

theorem indexMapName_ne (table name : String) (idx : IndexDef) :
    indexMapName table idx ≠ tableMap name := by
  intro h
  have hchars := congrArg String.toList h
  simp [indexMapName, tableMap, toString] at hchars

end

variable {idx : IndexDef}

theorem key_of_entryOf {key key' : Key} {row row' : Row} {k : Key}
    (hkey : key.length = 8) (hkey' : key'.length = 8) (h : entryOf t idx key row = some k)
    (h' : entryOf t idx key' row' = some k) : key = key' := by
  obtain ⟨vals, -, rfl⟩ := map_eq_some_iff.mp h
  obtain ⟨vals', -, heq⟩ := map_eq_some_iff.mp h'
  exact eq_of_keyRowId hkey hkey' (rowId_of_encodeCompositeIndexKey heq).symm

variable {view : View} {key : Key}

theorem length_of_rowAt (hkeys : RowKeys view) {row : Row}
    (h : rowAt view t key = some row) : key.length = 8 := by
  obtain ⟨name, hname⟩ := mapName_eq t
  obtain ⟨bytes, hbytes, -⟩ := bind_eq_some_iff.mp h
  rw [hname] at hbytes
  exact hkeys name key (by rw [hbytes]; rfl)

theorem entryAt_eq_some {key k : Key} (h : entryAt view t idx key = some k) :
    ∃ row, rowAt view t key = some row ∧ entryOf t idx key row = some k :=
  bind_eq_some_iff.mp h

/-! ## Changing one row -/

/-- A step has changed one row, and the entries with it; `new` is the entry of the row after it. -/
structure Changed (cat : Catalog) (view view' : View) (t : TableDef) (key : Key)
    (new : IndexDef → Option Key) : Prop where
  rows : ∀ t', cat.Defines t' → ∀ k, ¬(t' = t ∧ k = key) → rowAt view' t' k = rowAt view t' k
  row : ∀ idx, cat.Has t idx → entryAt view' t idx key = new idx
  entries : ∀ idx, cat.Has t idx → ∀ k, ((view' (indexMapName t.name idx)).get k).isSome ↔
    new idx = some k ∨
      ((view (indexMapName t.name idx)).get k).isSome ∧ entryAt view t idx key ≠ some k
  others : ∀ t' idx, cat.Has t' idx → t' ≠ t → ∀ k,
    (view' (indexMapName t'.name idx)).get k = (view (indexMapName t'.name idx)).get k
  rowKeys : RowKeys view'

def AllMirror (cat : Catalog) (view : View) : Prop := ∀ t idx, cat.Has t idx → Mirrors view t idx

structure Mirrored (cat : Catalog) (view : View) : Prop where
  mirror : AllMirror cat view
  rowKeys : RowKeys view

variable {cat : Catalog}

variable {new : IndexDef → Option Key}

theorem Changed.mirrored {view view' : View} (h : Changed cat view view' t key new) (hkey : key.length = 8)
    (hmirrored : Mirrored cat view) : Mirrored cat view' := by
  obtain ⟨hm, hkeys⟩ := hmirrored
  refine ⟨fun t' idx hhas k => ?_, h.rowKeys⟩
  have hdefines : cat.Defines t' := ⟨idx.tableName, hhas.2⟩
  have hsame : ∀ key', ¬(t' = t ∧ key' = key) → entryAt view' t' idx key' = entryAt view t' idx key' := by
    intro key' hne
    rw [entryAt, entryAt, h.rows t' hdefines key' hne]
  by_cases ht : t' = t
  · subst ht
    rw [h.entries idx hhas, hm t' idx hhas k]
    constructor
    · rintro (hnew | ⟨⟨key', hkey'⟩, hne⟩)
      · exact ⟨key, (h.row idx hhas).trans hnew⟩
      · refine ⟨key', (hsame key' fun heq => ?_).trans hkey'⟩
        exact hne (heq.2 ▸ hkey')
    · rintro ⟨key', hkey'⟩
      by_cases heq : key' = key
      · rw [heq, h.row idx hhas] at hkey'
        exact .inl hkey'
      · rw [hsame key' fun hboth => heq hboth.2] at hkey'
        refine .inr ⟨⟨key', hkey'⟩, fun hold => heq ?_⟩
        obtain ⟨row', hrow', hentry'⟩ := entryAt_eq_some hkey'
        obtain ⟨row, -, hentry⟩ := entryAt_eq_some hold
        exact key_of_entryOf (length_of_rowAt hkeys hrow') hkey hentry' hentry
  · rw [h.others t' idx hhas ht, hm t' idx hhas k]
    exact exists_congr fun key' => by rw [hsame key' fun hboth => ht hboth.1]

/-! ## What the writes of a step do -/

/-- The statement keeps indexes of the table, in the maps they have, and no other table or index has
these maps. -/
structure Maintains (cat : Catalog) (t : TableDef) (indexes : List IndexDef) (spelled : String) :
    Prop where
  own : ∀ idx ∈ indexes, cat.Has t idx
  named : ∀ idx ∈ indexes, indexMapName spelled idx = indexMapName t.name idx
  aloneRows : ∀ t', cat.Defines t' → t'.mapName = t.mapName → t' = t
  aloneEntries : ∀ idx ∈ indexes, ∀ t' idx', cat.Has t' idx' →
    indexMapName t'.name idx' = indexMapName t.name idx → t' = t ∧ idx' = idx

/-- Writes that take the entry `old` out of a map and put the entry `new` in. -/
def Moves (m : String) (ws : List Write) (old new : Option Key) : Prop :=
  ∀ k stored, ((lastWrite m k ws).getD stored).isSome ↔ new = some k ∨ stored.isSome ∧ old ≠ some k

section

omit [Crates]

theorem moves_nil (m : String) : Moves m [] none none := by
  intro k stored
  simp [lastWrite]

theorem moves_put (m : String) (k : Key) : Moves m [.put m k []] none (some k) := by
  intro k' stored
  rw [lastWrite_singleton, Write.at]
  by_cases hk : k' = k
  · simp [hk]
  · simp [hk, Ne.symm hk]

theorem moves_remove (m : String) (k : Key) : Moves m [.remove m k] (some k) none := by
  intro k' stored
  rw [lastWrite_singleton, Write.at]
  by_cases hk : k' = k
  · simp [hk]
  · simp [hk, Ne.symm hk]

theorem moves_move (m : String) (k k' : Key) :
    Moves m [.remove m k, .put m k' []] (some k) (some k') := by
  intro j stored
  simp only [lastWrite, Write.at, none_or]
  by_cases hk' : j = k'
  · simp [hk']
  · by_cases hk : j = k
    · subst hk
      simp [hk', Ne.symm hk']
    · simp [hk', hk, Ne.symm hk, Ne.symm hk']

end

section

variable {cat : Catalog} {view : View} {t : TableDef} {indexes : List IndexDef} {spelled : String}
  {g : IndexDef → List Write} {w : Write} {ws : List Write}

/-- A step writes the entries of each index in the index's map, and the row before or after them. -/
structure StepWrites (t : TableDef) (indexes : List IndexDef) (spelled : String)
    (g : IndexDef → List Write) (w : Write) (ws : List Write) : Prop where
  entries : ∀ idx ∈ indexes, ∀ e ∈ g idx, e.mapName = indexMapName spelled idx
  row : w.mapName = t.mapName
  order : ws = indexes.flatMap g ++ [w] ∨ ws = w :: indexes.flatMap g

omit [Crates]

section

variable (hw : StepWrites t indexes spelled g w ws)

include hw

theorem StepWrites.mapName_flatMap {e : Write}
    (he : e ∈ indexes.flatMap g) : ∃ idx ∈ indexes, e.mapName = indexMapName spelled idx := by
  obtain ⟨idx, hidx, heg⟩ := List.mem_flatMap.mp he
  exact ⟨idx, hidx, hw.entries idx hidx e heg⟩

theorem StepWrites.lastWrite_table (name : String) (k : Key) :
    lastWrite (tableMap name) k ws = w.at (tableMap name) k := by
  have hnone : lastWrite (tableMap name) k (indexes.flatMap g) = none := by
    refine lastWrite_eq_none (fun e he => ?_) k
    obtain ⟨idx, -, heq⟩ := hw.mapName_flatMap he
    exact heq.trans_ne (indexMapName_ne spelled name idx)
  rcases hw.order with rfl | rfl
  · rw [lastWrite_append, hnone, lastWrite_singleton, or_none]
  · rw [lastWrite, hnone, none_or]

theorem StepWrites.lastWrite_index (table : String)
    (idx : IndexDef) (k : Key) : lastWrite (indexMapName table idx) k ws =
      lastWrite (indexMapName table idx) k (indexes.flatMap g) := by
  obtain ⟨name, hname⟩ := mapName_eq t
  have hnone : w.at (indexMapName table idx) k = none := by
    refine Write.at_eq_none ?_ k
    rw [hw.row, hname]
    exact (indexMapName_ne table name idx).symm
  rcases hw.order with rfl | rfl
  · rw [lastWrite_append, lastWrite_singleton, hnone, none_or]
  · rw [lastWrite, hnone, or_none]

theorem StepWrites.get_table (name : String) (k : Key) : ((view.writeAll ws) (tableMap name)).get k =
      (w.at (tableMap name) k).getD ((view (tableMap name)).get k) := by
  rw [View.get_writeAll, hw.lastWrite_table]

theorem StepWrites.get_index (hm : Maintains cat t indexes spelled) (hidx : idx ∈ indexes) (k : Key) :
    ((view.writeAll ws) (indexMapName t.name idx)).get k =
      (lastWrite (indexMapName t.name idx) k (g idx)).getD ((view (indexMapName t.name idx)).get k) := by
  have hmaps : ∀ i ∈ indexes, ∀ e ∈ g i, e.mapName = indexMapName t.name i :=
    fun i hi e he => (hw.entries i hi e he).trans (hm.named i hi)
  have halone : ∀ i ∈ indexes, indexMapName t.name i = indexMapName t.name idx → i = idx :=
    fun i hi heq => (hm.aloneEntries idx hidx t i (hm.own i hi) heq).2
  rw [View.get_writeAll, hw.lastWrite_index,
    lastWrite_flatMap (indexMapName t.name) hmaps hidx halone]

theorem StepWrites.get_other (hm : Maintains cat t indexes spelled) {t' : TableDef} (hhas : cat.Has t' idx)
    (hne : ¬(t' = t ∧ idx ∈ indexes)) (k : Key) :
    ((view.writeAll ws) (indexMapName t'.name idx)).get k = (view (indexMapName t'.name idx)).get k := by
  have hnone : lastWrite (indexMapName t'.name idx) k (indexes.flatMap g) = none := by
    refine lastWrite_eq_none (fun e he => ?_) k
    obtain ⟨i, hi, heq⟩ := hw.mapName_flatMap he
    rw [heq, hm.named i hi]
    intro hsame
    obtain ⟨ht, rfl⟩ := hm.aloneEntries i hi t' idx hhas hsame.symm
    exact hne ⟨ht, hi⟩
  rw [View.get_writeAll, hw.lastWrite_index, hnone, getD_none]

end

end

/-- Where an index mirrors the rows, the entry a step takes out may be the row's or, of a row that is not
there, any the row could have. -/
theorem Mirrors.old_iff (hm : Mirrors view t idx) (hkeys : RowKeys view) (hkey : key.length = 8) {read : Row}
    (hnow : entryAt view t idx key = none ∨ entryAt view t idx key = entryOf t idx key read) {k : Key}
    (hin : ((view (indexMapName t.name idx)).get k).isSome) :
    entryOf t idx key read = some k ↔ entryAt view t idx key = some k := by
  rcases hnow with hnone | heq
  · rw [hnone]
    refine ⟨fun hentry => ?_, fun h => by cases h⟩
    -- an entry under the key's number belongs to the row under the key, which has none
    obtain ⟨key', hkey'⟩ := (hm k).mp hin
    obtain ⟨row', hrow', hentry'⟩ := entryAt_eq_some hkey'
    rw [key_of_entryOf (length_of_rowAt hkeys hrow') hkey hentry' hentry, hnone] at hkey'
    exact hkey'
  · rw [heq]

variable {indexes : List IndexDef} {g : IndexDef → List Write}

omit [Crates] in
theorem StepWrites.rowKeys {spelled : String} {w : Write} {ws : List Write}
    (hw : StepWrites t indexes spelled g w ws) (hkeys : RowKeys view)
    (hkey : key.length = 8) (hwrite : ∀ k, k ≠ key → w.at t.mapName k = none) :
    RowKeys (view.writeAll ws) := by
  intro name k hin
  rw [hw.get_table name k] at hin
  cases hat : w.at (tableMap name) k with
  | none =>
    rw [hat, getD_none] at hin
    exact hkeys name k hin
  | some stored =>
    by_cases hk : k = key
    · rw [hk, hkey]
    · have hmap : w.mapName = tableMap name := by
        by_contra hne
        rw [Write.at_eq_none hne k] at hat
        cases hat
      rw [← hmap, hw.row, hwrite k hk] at hat
      cases hat

theorem StepWrites.changed {spelled : String} {w : Write} {ws : List Write}
    (hw : StepWrites t indexes spelled g w ws) (hm : Maintains cat t indexes spelled)
    (hkey : key.length = 8) (hmirrored : Mirrored cat view) (hwrite : ∀ k, k ≠ key → w.at t.mapName k = none)
    (hrow : ∀ idx, cat.Has t idx → entryAt (view.writeAll ws) t idx key = new idx) (hkept : ∀ idx ∈ indexes,
      (∃ old, Moves (indexMapName t.name idx) (g idx) old (new idx) ∧
        ∀ k, ((view (indexMapName t.name idx)).get k).isSome →
          (old = some k ↔ entryAt view t idx key = some k)) ∨
      g idx = [] ∧ new idx = entryAt view t idx key)
    (hskipped : ∀ idx, cat.Has t idx → idx ∉ indexes → new idx = entryAt view t idx key) :
    Changed cat view (view.writeAll ws) t key new := by
  have hstill : ∀ idx, cat.Has t idx → new idx = entryAt view t idx key → ∀ k,
      (((view (indexMapName t.name idx)).get k).isSome ↔ new idx = some k ∨
        ((view (indexMapName t.name idx)).get k).isSome ∧ entryAt view t idx key ≠ some k) := by
    intro idx hhas hnew k
    rw [hnew]
    constructor
    · intro hin
      by_cases heq : entryAt view t idx key = some k
      · exact .inl heq
      · exact .inr ⟨hin, heq⟩
    · rintro (heq | ⟨hin, -⟩)
      · exact (hmirrored.mirror t idx hhas k).mpr ⟨key, heq⟩
      · exact hin
  refine ⟨fun t' hdefines k hne => ?_, hrow, fun idx hhas k => ?_, fun t' idx hhas ht k => ?_,
    hw.rowKeys hmirrored.rowKeys hkey hwrite⟩
  · obtain ⟨name, hname⟩ := mapName_eq t'
    have hnone : w.at t'.mapName k = none := by
      by_cases ht : t'.mapName = t.mapName
      · have htt := hm.aloneRows t' hdefines ht
        rw [ht]
        exact hwrite k fun hk => hne ⟨htt, hk⟩
      · exact Write.at_eq_none (hw.row.trans_ne (Ne.symm ht)) k
    rw [rowAt, rowAt]
    rw [hname] at hnone ⊢
    rw [hw.get_table name k, hnone, getD_none]
  · by_cases hidx : idx ∈ indexes
    · rw [hw.get_index hm hidx k]
      rcases hkept idx hidx with ⟨old, hmoves, hold⟩ | ⟨hnil, hnew⟩
      · rw [hmoves k]
        exact or_congr_right (and_congr_right fun hin => not_congr (hold k hin))
      · rw [hnil, lastWrite, getD_none]
        exact hstill idx hhas hnew k
    · rw [hw.get_other hm hhas (fun h => hidx h.2) k]
      exact hstill idx hhas (hskipped idx hhas hidx) k
  · exact hw.get_other hm hhas (fun h => ht h.1) k

def ReadsBack (cat : Catalog) (t : TableDef) (row : Row) : Prop :=
  ∃ back, t.readRow row.toBytes = .ok back ∧
    ∀ idx, cat.Has t idx → t.getIndexValues idx back = t.getIndexValues idx row

/-- The row under the key, if it is there, still has the indexed values a statement has read. -/
def Current (cat : Catalog) (view : View) (t : TableDef) (key : Key) (read : Row) : Prop :=
  ∀ now, rowAt view t key = some now →
    ∀ idx, cat.Has t idx → t.getIndexValues idx now = t.getIndexValues idx read

theorem Current.entryAt {read : Row} (h : Current cat view t key read) (hhas : cat.Has t idx) :
    Sql.entryAt view t idx key = none ∨ Sql.entryAt view t idx key = entryOf t idx key read := by
  unfold Sql.entryAt
  cases hrow : rowAt view t key with
  | none => exact .inl rfl
  | some now =>
    refine .inr ?_
    rw [bind_some, entryOf, entryOf, h now hrow idx hhas]

theorem ReadsBack.entryAt {row : Row}
    (h : ReadsBack cat t row) (hput : (view t.mapName).get key = some row.toBytes) (hhas : cat.Has t idx) :
    Sql.entryAt view t idx key = entryOf t idx key row := by
  obtain ⟨back, hback, hvals⟩ := h
  rw [Sql.entryAt, rowAt, hput, bind_some, hback, Except.toOption, bind_some, entryOf,
    entryOf, hvals idx hhas]

end H2Database.Sql
