import H2Database.Sql.Csv
import H2Database.Sql.IndexEntries
import H2Database.Sql.RoundTrip
import H2Database.Sql.RowWrites
import Mathlib.Data.List.Nodup

/-!
# The table behind COPY FROM (`h2-sql/src/executor/statement.rs`)

`COPY FROM` files each row under the next row id, the little-endian bytes of which are the key, and a scan
takes the keys in the order of their bytes.  Behind an id that ends in a byte of 255 comes one that stands
before it.
-/

namespace H2Database.Sql

open Reasoning Mvstore List

/-! ## Keys of consecutive ids -/

theorem rowKey_lt_succ {rowId : UInt64} : rowKey rowId < rowKey (rowId + 1) ↔ rowId.toNat % 256 < 255 := by
  have hnext : (rowId + 1).toNat = (rowId.toNat + 1) % 2 ^ 64 := UInt64.toNat_add _ _
  have hfirst : ∀ n, UInt8.ofNat n < UInt8.ofNat ((n + 1) % 2 ^ 64) ∨
      UInt8.ofNat n = UInt8.ofNat ((n + 1) % 2 ^ 64) ↔ n % 256 < 255 := by
    intro n
    rw [UInt8.lt_iff_toNat_lt, ← UInt8.toNat_inj, UInt8.toNat_ofNat', UInt8.toNat_ofNat']
    omega
  change UInt8.ofNat rowId.toNat :: leBytes 7 _ < UInt8.ofNat (rowId + 1).toNat :: leBytes 7 _ ↔ _
  rw [hnext, cons_lt_cons_iff, ← hfirst]
  refine or_congr_right (and_iff_left_of_imp fun heq => ?_)
  exfalso
  rw [← UInt8.toNat_inj, UInt8.toNat_ofNat', UInt8.toNat_ofNat'] at heq
  omega

/-- The entries of rows that are put in from this id on. -/
def filed (rowId : UInt64) : List Row → List (Key × List UInt8)
  | [] => []
  | row :: rows => (rowKey rowId, row.toBytes) :: filed (rowId + 1) rows

theorem map_snd_filed (rowId : UInt64) (rows : List Row) :
    (filed rowId rows).map Prod.snd = rows.map Row.toBytes := by
  induction rows generalizing rowId with
  | nil => rfl
  | cons row rows ih => rw [filed, map_cons, map_cons, ih]

theorem map_fst_filed (rowId : UInt64) (rows : List Row) :
    (filed rowId rows).map Prod.fst = (List.range rows.length).map fun i =>
      rowKey (rowId + UInt64.ofNat i) := by
  induction rows generalizing rowId with
  | nil => rfl
  | cons row rows ih =>
    rw [filed, map_cons, ih, length_cons, range_succ_eq_map, map_cons, map_map]
    congr 1
    · exact congrArg rowKey (UInt64.add_zero rowId).symm
    · apply map_congr_left
      intro i _
      rw [Function.comp_apply, Nat.succ_eq_add_one, UInt64.ofNat_add, UInt64.add_assoc, UInt64.add_comm 1]
      rfl

theorem nodup_filed (rowId : UInt64) {rows : List Row} (h : rows.length ≤ 2 ^ 64) :
    ((filed rowId rows).map Prod.fst).Nodup := by
  rw [map_fst_filed]
  refine List.Nodup.map_on (fun i hi j hj heq => ?_) nodup_range
  have hid := congrArg keyRowId heq
  rw [keyRowId_rowKey, keyRowId_rowKey, UInt64.add_right_inj, ← UInt64.toNat_inj] at hid
  rw [mem_range] at hi hj
  rwa [UInt64.toNat_ofNat_of_lt' (Nat.lt_of_lt_of_le hi h),
      UInt64.toNat_ofNat_of_lt' (Nat.lt_of_lt_of_le hj h)] at hid

theorem sorted_filed_iff (rowId : UInt64) (rows : List Row) :
    ((filed rowId rows).map Prod.fst).Pairwise (· < ·) ↔ rowId.toNat % 256 + rows.length ≤ 256 := by
  induction rows generalizing rowId with
  | nil => exact iff_of_true List.Pairwise.nil (by rw [length_nil]; omega)
  | cons row rows ih =>
    have hnext : (rowId + 1).toNat = (rowId.toNat + 1) % 2 ^ 64 := UInt64.toNat_add _ _
    rw [filed, map_cons, pairwise_cons, ih, length_cons]
    cases rows with
    | nil =>
      rw [length_nil]
      exact iff_of_true ⟨fun k hk => absurd hk not_mem_nil, by omega⟩ (by omega)
    | cons row' rows =>
      rw [length_cons]
      constructor
      · rintro ⟨hhead, htail⟩
        have hlt := rowKey_lt_succ.mp (hhead _ mem_cons_self)
        omega
      · intro h
        have hlt : rowKey rowId < rowKey (rowId + 1) := rowKey_lt_succ.mpr (by omega)
        have htail : (rowId + 1).toNat % 256 + (rows.length + 1) ≤ 256 := by omega
        refine ⟨fun k hk => ?_, htail⟩
        rcases mem_cons.mp hk with hk | hk
        · exact hk ▸ hlt
        · exact hlt.trans ((pairwise_cons.mp ((ih (rowId + 1)).mpr htail)).1 k hk)

/-! ## Lines that go in -/

theorem eq_of_perm_of_map_eq {α β : Type} {g : α → β} {xs ys : List α} (hperm : xs.Perm ys)
    (hmap : xs.map g = ys.map g) (hnodup : (ys.map g).Nodup) : xs = ys := by
  apply ext_getElem hperm.length_eq
  intro i hi hj
  apply inj_on_of_nodup_map hnodup (hperm.mem_iff.mp (getElem_mem hi)) (getElem_mem hj)
  have hxs : i < (xs.map g).length := by rwa [length_map]
  have hys : i < (ys.map g).length := by rwa [length_map]
  have hget : (xs.map g)[i] = (ys.map g)[i] := getElem_of_eq hmap hxs
  rwa [getElem_map, getElem_map] at hget

theorem sorted_scan (view : View) (m : String) : (view.seen.scan m).Pairwise fun e e' => e.1 < e'.1 := by
  have hsorted := (view m).sorted_scanAll
  rw [View.seen, pairwise_map]
  exact pairwise_map.mp hsorted

section

variable [Crates]

/-- The loop over the lines of the file. -/
def copyLines (cat : Catalog) (c : CopyFrom) (t : TableDef) (targets : List Nat) :
    Nat → View → Counters → List (List String) → Outcome
  | _, view, counters, [] => ⟨view, counters, .ok []⟩
  | number, view, counters, fields :: records =>
    let o := copyLine cat view counters c t targets number fields
    match o.result with
    | .error _ => o
    | .ok _ => copyLines cat c t targets (number + 1) o.view o.counters records

/-- The rows of a table in the order of a scan. -/
def tableRows (view : View) (t : TableDef) : H2Result (List Row) :=
  (readRows t (view.seen.scan t.mapName)).map (List.map Prod.snd)

variable {cat : Catalog} {c : CopyFrom} {t : TableDef} {targets : List Nat} {key : String}

theorem copyLine_ok {row : Row} {number : Nat} {fields : List String} (view : View) (counters : Counters)
    (hkey : cat.tableKey c.tableName = some key) (hrow : buildLine c t targets number fields = .ok row) :
    ∃ view', copyLine cat view counters c t targets number fields =
        ⟨view', Function.update counters key (counters key + 1), .ok []⟩ ∧
      ∀ k, (view' t.mapName).get k =
        if k = rowKey (counters key) then some row.toBytes else (view t.mapName).get k := by
  rw [copyLine, hrow, Catalog.allocateRowId, hkey]
  refine ⟨_, rfl, fun k => ?_⟩
  obtain ⟨name, hname⟩ := mapName_eq t
  have hone : OneRow (.put t.mapName (rowKey (counters key)) row.toBytes)
      (.put t.mapName (rowKey (counters key)) row.toBytes ::
        indexPuts t (cat.getTableIndexes c.tableName) c.tableName row (counters key)) :=
    ⟨_, entriesOnly_indexPuts, .inr rfl⟩
  have hget := hone.writesRow view name k
  rw [← hname, Write.at] at hget
  rw [hget]
  by_cases hk : k = rowKey (counters key)
  · rw [if_pos ⟨rfl, hk⟩, if_pos hk, Option.getD_some]
  · rw [if_neg fun h => hk h.2, if_neg hk, Option.getD_none]

theorem copyLines_result (hkey : cat.tableKey c.tableName = some key) (number : Nat) (view : View)
    (counters : Counters) (records : List (List String)) :
    (copyLines cat c t targets number view counters records).result =
      (importLines c t targets number records).map fun _ => [] := by
  induction records generalizing number view counters with
  | nil => rfl
  | cons fields records ih =>
    rw [copyLines, importLines]
    cases hrow : buildLine c t targets number fields with
    | error e =>
      rw [copyLine, hrow]
      rfl
    | ok row =>
      obtain ⟨view', heq, -⟩ := copyLine_ok view counters hkey hrow
      rw [heq]
      refine (ih _ _ _).trans ?_
      show _ = Except.map _ ((importLines c t targets (number + 1) records).bind _)
      cases importLines c t targets (number + 1) records <;> rfl

theorem get_copyLines (hkey : cat.tableKey c.tableName = some key) {number : Nat} {view : View}
    {counters : Counters} {records : List (List String)} {rows : List Row}
    (h : importLines c t targets number records = .ok rows)
    (hnodup : ((filed (counters key) rows).map Prod.fst).Nodup) (k : Key) (v : List UInt8) :
    ((copyLines cat c t targets number view counters records).view t.mapName).get k = some v ↔
      (k, v) ∈ filed (counters key) rows ∨
        k ∉ (filed (counters key) rows).map Prod.fst ∧ (view t.mapName).get k = some v := by
  induction records generalizing number view counters rows with
  | nil =>
    cases h
    simp [copyLines, filed]
  | cons fields records ih =>
    rw [importLines] at h
    obtain ⟨row, hrow, h⟩ := H2Result.bind_eq_ok.mp h
    obtain ⟨others, hothers, h⟩ := H2Result.bind_eq_ok.mp h
    cases h
    obtain ⟨view', heq, hget⟩ := @copyLine_ok _ cat c t targets key row number fields view counters hkey hrow
    rw [filed, map_cons, nodup_cons] at hnodup
    have hself : Function.update counters key (counters key + 1) key = counters key + 1 :=
      Function.update_self _ _ _
    have hrest := @ih (number + 1) view' (Function.update counters key (counters key + 1)) others hothers
      (by rw [hself]; exact hnodup.2)
    rw [hself] at hrest
    rw [copyLines, heq]
    refine hrest.trans ?_
    rw [hget, filed, mem_cons, map_cons, mem_cons, not_or, Prod.mk.injEq]
    by_cases hk : k = rowKey (counters key)
    · subst hk
      have hfresh : (rowKey (counters key), v) ∉ filed (counters key + 1) others :=
        fun hin => hnodup.1 (mem_map.mpr ⟨_, hin, rfl⟩)
      simp [hfresh, hnodup.1, eq_comm]
    · simp [hk]

/-! ## The scan -/

theorem map_readRows_eq_iff {entries : List (Key × List UInt8)} {rows : List Row} :
    (readRows t entries).map (List.map Prod.snd) = .ok rows ↔
      entries.map (fun e => t.readRow e.2) = rows.map .ok := by
  induction entries generalizing rows with
  | nil =>
    cases rows with
    | nil => exact iff_of_true rfl rfl
    | cons row rows => exact iff_of_false (fun h => by cases h) fun h => by cases h
  | cons e entries ih =>
    rw [H2Result.map_eq_ok, map_cons]
    constructor
    · rintro ⟨all, hall, heq⟩
      obtain ⟨row, hrow, hall⟩ := H2Result.bind_eq_ok.mp hall
      obtain ⟨others, hothers, hall⟩ := H2Result.bind_eq_ok.mp hall
      cases hall
      rw [← heq, map_cons, map_cons, hrow, ih.mp (H2Result.map_eq_ok.mpr ⟨others, hothers, rfl⟩)]
    · intro h
      cases rows with
      | nil => cases h
      | cons row rows =>
        rw [map_cons, List.cons.injEq] at h
        obtain ⟨others, hothers, heq⟩ := H2Result.map_eq_ok.mp (ih.mpr h.2)
        refine ⟨(e.1, row) :: others, ?_, by rw [map_cons, heq]⟩
        rw [readRows, h.1, hothers]
        rfl

/-- `COPY FROM` goes through, and then the table has these rows in this order. -/
def ComesBack (cat : Catalog) (c : CopyFrom) (t : TableDef) (view : View) (counters : Counters)
    (rows : List Row) : Prop :=
  let o := copyLines cat c t (List.range t.columns.length) 0 view counters c.records
  o.result = .ok [] ∧ tableRows o.view t = .ok rows

section

variable {view : View} {counters : Counters} {lines rows : List Row}
  (hkey : cat.tableKey c.tableName = some key) (hempty : ∀ k, (view t.mapName).get k = none)
  (h : importedRows c t (List.range t.columns.length) = .ok lines) (hcount : lines.length ≤ 2 ^ 64)
  (hread : ∀ row ∈ lines, t.readRow row.toBytes = .ok row)

include hkey hempty h hcount

/-- A scan finds the entries of the lines, in the order of their keys. -/
theorem comesBack_iff : ∃ scan : List (Key × List UInt8), scan.Perm (filed (counters key) lines) ∧
    (scan.Pairwise fun e e' => e.1 < e'.1) ∧ (ComesBack cat c t view counters rows ↔
      scan.map (fun e => t.readRow e.2) = rows.map .ok) := by
  have hnodup := nodup_filed (counters key) hcount
  refine ⟨_, ?_, sorted_scan
    (copyLines cat c t (List.range t.columns.length) 0 view counters c.records).view t.mapName, ?_⟩
  · apply (perm_ext_iff_of_nodup (List.Nodup.of_map _ (View.nodup_scan _ _))
      (List.Nodup.of_map _ hnodup)).mpr
    rintro ⟨k, v⟩
    rw [View.mem_scan, get_copyLines hkey h hnodup]
    exact or_iff_left fun hold => by cases (hempty k).symm.trans hold.2
  · rw [← map_readRows_eq_iff]
    apply and_iff_right
    rw [copyLines_result hkey, ← importedRows, h]
    rfl

include hread

omit hkey hempty h hcount in
theorem map_readRow_filed (rowId : UInt64) :
    (filed rowId lines).map (fun e => t.readRow e.2) = lines.map .ok := by
  have hbytes := congrArg (List.map t.readRow) (map_snd_filed rowId lines)
  rw [map_map, map_map] at hbytes
  exact hbytes.trans (map_congr_left hread)

theorem length_of_comesBack (hback : ComesBack cat c t view counters rows) : lines.length = rows.length := by
  obtain ⟨scan, hperm, -, hiff⟩ := comesBack_iff hkey hempty h hcount
  have hlines := congrArg List.length (map_readRow_filed hread (counters key))
  have hlength := congrArg List.length (hiff.mp hback)
  rw [length_map, length_map] at hlines hlength
  rw [← hlines, ← hperm.length_eq, hlength]

theorem comesBack_iff_of_sorted (hids : (counters key).toNat % 256 + lines.length ≤ 256) :
    ComesBack cat c t view counters rows ↔ lines = rows := by
  obtain ⟨scan, hperm, hscan, hiff⟩ := comesBack_iff hkey hempty h hcount
  have hsorted := pairwise_map.mp ((sorted_filed_iff (counters key) lines).mpr hids)
  have hsame := hperm.eq_of_pairwise
    (fun e e' _ _ hlt hgt => absurd (hlt.trans hgt) (lt_irrefl _)) hscan hsorted
  rw [hiff, hsame, map_readRow_filed hread]
  exact (map_injective_iff.mpr fun row row' => Except.ok.inj).eq_iff

/-- Ids that pass a byte of 255 bring different rows into another order. -/
theorem not_comesBack (hnodup : lines.Nodup) (hids : 256 < (counters key).toNat % 256 + lines.length) :
    ¬ComesBack cat c t view counters lines := by
  intro hback
  obtain ⟨scan, hperm, hscan, hiff⟩ := comesBack_iff hkey hempty h hcount
  have hsame := hiff.mp hback
  rw [← map_readRow_filed hread (counters key)] at hsame
  have hrows : ((filed (counters key) lines).map fun e => t.readRow e.2).Nodup := by
    rw [map_readRow_filed hread]
    exact hnodup.map fun row row' => Except.ok.inj
  rw [eq_of_perm_of_map_eq hperm hsame hrows, ← pairwise_map, sorted_filed_iff] at hscan
  omega

end

variable {view : View} {counters : Counters} {rows : List Row}

theorem readRow_toBytes (hplaced : ∀ col ∈ t.columns, col.physicalIndex = none) {row : Row}
    (hlength : row.length = t.columns.length) (hrow : row.Storable) : t.readRow row.toBytes = .ok row := by
  have hnone : (t.columns.any fun col => col.physicalIndex.isSome) = false := by
    rw [any_eq_false]
    intro col hcol
    rw [hplaced col hcol]
    exact Bool.false_ne_true
  rw [TableDef.readRow, Row.fromBytes_toBytes hrow]
  change Except.ok (t.alignRow row) = _
  rw [TableDef.alignRow, hnone, if_neg Bool.false_ne_true, hlength, Nat.sub_self, replicate_zero,
    append_nil]

end

attribute [local instance] plainCrates

/-- A table of one VARCHAR column, and COPY FROM of the file with the rows. -/
def textTable : TableDef := ⟨"t", "PUBLIC", [⟨"v", .varChar none, none, none⟩], []⟩

def textCatalog : Catalog := ⟨[("t", textTable)], []⟩

def copyBack (rows : List Row) : CopyFrom :=
  ⟨"t", [], csvRecords true ',' (csvText true ',' ["v"] rows), fun _ _ => .ok 1⟩

theorem textTable_varChar : ∀ col ∈ textTable.columns, ∃ len, col.dataType = .varChar len := by
  intro col hcol
  rw [List.mem_singleton.mp hcol]
  exact ⟨none, rfl⟩

theorem textTable_placed : ∀ col ∈ textTable.columns, col.physicalIndex = none := by
  intro col hcol
  rw [List.mem_singleton.mp hcol]

def quotedRows : List Row := [[.string " \""], [.string "b"]]

theorem storable_text {s : String} (h : (utf8 s).length < 2 ^ 32) : Row.Storable [.string s] :=
  ⟨Nat.one_lt_two_pow (by decide), h, trivial⟩

theorem csvKept_text {s : String} (first last : Char) (h : '\n' ∉ s.toList)
    (hfirst : edge ',' s.toList s.toList.head? false = some first ∧ isWhiteSpace first = false)
    (hlast : edge ',' s.toList s.toList.getLast? false = some last ∧ isWhiteSpace last = false) :
    CsvKept ',' [.string s] :=
  ⟨fun v hv => ⟨s, mem_singleton.mp hv, h⟩, fun heq => absurd heq (by decide), ⟨s, rfl, first, hfirst⟩,
    ⟨s, rfl, last, hlast⟩⟩

end H2Database.Sql
