import H2Database.Sql.ColumnFolds
import H2Database.Sql.IndexEntries

/-!
# Aggregates are pushed down

The pushdown goes through stored bytes where the evaluation goes through rows.  A column is read at its
logical position, as a number, and `WHERE` is reduced to the range that was recognised; where the rows,
the layout and the types of the columns bear that, both answer the same.
-/

namespace H2Database.Sql

open Reasoning Mvstore List

section

theorem parseAggregateOp_cases {ctx : RowContext} {call : FunctionCall} {op : VectorAggregateOp}
    (h : parseAggregateOp ctx call = some op) :
    (op = .countStar ∧ call.name = "COUNT" ∧ (call.args = [] ∨ call.args = [.wildcard])) ∨
      ∃ column i, call.args = [.expr (.identifier column)] ∧ ctx.resolveColumn none column = some i ∧
        op.column = some i ∧ (op = .count i ∧ call.name = "COUNT" ∨ op = .sum i ∧ call.name = "SUM" ∨
          op = .avg i ∧ call.name = "AVG" ∨ op = .min i ∧ call.name = "MIN" ∨
          op = .max i ∧ call.name = "MAX") := by
  unfold parseAggregateOp at h
  split at h
  next hargs =>
    split_ifs at h with hname
    cases h
    exact .inl ⟨rfl, hname, .inl hargs⟩
  next hargs =>
    split_ifs at h with hname
    cases h
    exact .inl ⟨rfl, hname, .inr hargs⟩
  next column hargs =>
    obtain ⟨i, hi, h⟩ := Option.bind_eq_some_iff.mp h
    split at h <;> cases h <;> exact .inr ⟨column, i, hargs, hi, rfl, by simp [*]⟩
  next => cases h

theorem count_eq_zero_iff {n : Nat} (h : n < 2 ^ 63) : (0 : Int64) + Int64.ofNat n = 0 ↔ n = 0 := by
  rw [Int64.zero_add]
  constructor
  · intro hzero
    have hint := congrArg Int64.toInt hzero
    rw [Int64.toInt_ofNat_of_lt h] at hint
    simpa using hint
  · intro hzero
    rw [hzero]
    rfl

variable [Crates]

theorem filterMap_present (vals : List Value) :
    vals.filterMap Value.number = (present vals).filterMap Value.number := by
  unfold present
  rw [filterMap_filter]
  apply filterMap_congr
  intro v _
  cases hv : v.isNull with
  | true => rw [(Value.number_eq_none v).mpr hv]; rfl
  | false => rfl

theorem length_filterMap_present (vals : List Value) :
    ((present vals).filterMap Value.number).length = (present vals).length := by
  rw [length_filterMap_eq_countP, countP_eq_length]
  intro v hv
  have hnull := (mem_filter.mp hv).2
  cases hnumber : v.number with
  | none => simp [(Value.number_eq_none v).mp hnumber] at hnull
  | some p => rfl

variable [Arithmetic]

structure Snapshot (view : View) (t : TableDef) (indexes : List IndexDef) : Prop where
  stored : ∀ key bytes, (view t.mapName).get key = some bytes →
    ∃ raw : Row, raw.Storable ∧ bytes = raw.toBytes
  rowKeys : ∀ key, ((view t.mapName).get key).isSome → key.length = 8
  mirror : ∀ idx ∈ indexes, Mirrors view t idx
  few : (view.seen.scan t.mapName).length < 2 ^ 63

def visibleRows (seen : Visible) (t : TableDef) : List Row :=
  (seen.scan t.mapName).filterMap fun e => (t.readRow e.2).toOption

/-- The rows that `WHERE` selects. -/
def selectedRows (ctx : RowContext) (seen : Visible) (selection : Option SqlExpr) : List Row :=
  (visibleRows seen ctx.table).filter (satisfies ctx seen selection)

def PushdownTransparent (ctx : RowContext) (kind : TableKind) (view : View) (indexes : List IndexDef)
    (projection : List (FunctionCall × String)) (selection : Option SqlExpr) : Prop :=
  ∀ row, pushdown ctx kind view.seen indexes (projection.map fun p => .function p.1 p.2) selection =
    some row →
    ∃ row', evaluateAggregates ctx view.seen (selectedRows ctx view.seen selection)
      (projection.map Prod.fst) = .ok row' ∧ Value.eqAll row row' = true

/-! ## When the pushdown reads what is there -/

/-- The column is stored at its logical position, behind values that are passed over. -/
structure PlainColumn (t : TableDef) (raw : Row) (column : Nat) : Prop where
  placed : columnValue column (t.alignRow raw) = columnValue column raw
  skipped : ∀ w ∈ raw.take column, w.isSkipped = true
  read : ∀ v, raw[column]? = some v → v.isRead = true

omit [Arithmetic] in
theorem PlainColumn.extract {t : TableDef} {raw : Row} {column : Nat} (h : PlainColumn t raw column)
    (hs : raw.Storable) :
    extractNumericColumn raw.toBytes column = (columnValue column (t.alignRow raw)).number := by
  rw [h.placed]
  exact extractNumericColumn_toBytes hs h.skipped h.read

def VectorAggregateOp.Bears (type : DataType) (v : Value) : VectorAggregateOp → Prop
  | .countStar | .count _ => True
  | .sum _ => type.holds v = true ∧ ∀ i, v = .bigInt i → IsExact i
  | .min _ => v.KeepsPlace type 1
  | .max _ => v.KeepsPlace type (-1)
  | .avg _ => False

section

variable {ctx : RowContext} {seen : Visible} {rows : List Row} {stored : List (List UInt8)} {column : Nat}
  {name : String} {type : DataType}

/-- The numbers that are read of a column are those of its values. -/
structure ReadsAll (stored : List (List UInt8)) (rows : List Row) (column : Nat) : Prop where
  numbers : (numbers stored column).Perm ((rows.map (columnValue column)).filterMap Value.number)
  few : stored.length < 2 ^ 63

omit [Arithmetic] in
theorem ReadsAll.present (h : ReadsAll stored rows column) : (Sql.numbers stored column).Perm
    ((Sql.present (rows.map (columnValue column))).filterMap Value.number) := by
  rw [← filterMap_present]
  exact h.numbers

omit [Arithmetic] in
theorem ReadsAll.length (h : ReadsAll stored rows column) :
    (Sql.numbers stored column).length = (Sql.present (rows.map (columnValue column))).length := by
  rw [h.present.length_eq, length_filterMap_present]

theorem ReadsAll.count (h : ReadsAll stored rows column) {op : VectorAggregateOp}
    (hop : op.column = some column) :
    (stored.foldl (Accumulator.add op) {}).count = 0 ↔ Sql.present (rows.map (columnValue column)) = [] := by
  have hle : (Sql.numbers stored column).length ≤ stored.length := length_filterMap_le _ _
  rw [count_column hop, count_eq_zero_iff (by have := h.few; omega), h.length, length_eq_zero_iff]

theorem count_agrees (h : ReadsAll stored rows column) (hcolumn : ctx.resolveColumn none name = some column) :
    foldValues ctx seen rows (.identifier name) 0 countStep =
      .ok (stored.foldl (Accumulator.add (.count column)) {}).count := by
  rw [foldValues_identifier hcolumn, foldlM_countStep,
    count_column (show VectorAggregateOp.column (.count column) = some column from rfl), h.length]

theorem extreme_agrees {sign : Int} {betterInt : Int64 → Int64 → Bool} {worstInt : Int64}
    {betterF64 : UInt64 → UInt64 → Bool} {worstF64 : UInt64} {better : Value → Value → Bool}
    (hextreme : Extreme sign betterInt worstInt betterF64 worstF64 better)
    (hwide : type = .float → ExactWidening)
    (h : ReadsAll stored rows column) (hcolumn : ctx.resolveColumn none name = some column)
    (hvals : ∀ row ∈ rows, (columnValue column row).KeepsPlace type sign) :
    ∃ v, (foldValues ctx seen rows (.identifier name) none (extremeStep better)).map (fun v => v.getD .null) =
        .ok v ∧
      (present (rows.map (columnValue column)) = [] → v = .null) ∧
      (present (rows.map (columnValue column)) ≠ [] →
        (if type.isInteger then Value.bigInt
          (bestOf betterInt worstInt ((numbers stored column).map Prod.fst))
          else .double (bestOf betterF64 worstF64 ((numbers stored column).map Prod.snd))).eq v = true) := by
  rw [foldValues_identifier hcolumn, foldlM_extremeStep]
  have hpresent := h.present
  cases hp : present (rows.map (columnValue column)) with
  | nil => exact ⟨.null, rfl, fun _ => rfl, fun hne => absurd rfl hne⟩
  | cons v rest =>
    rw [hp] at hpresent
    refine ⟨bestOf better v rest, rfl, fun hnil => absurd hnil (cons_ne_nil _ _), fun _ => ?_⟩
    apply hextreme.agrees hwide hpresent
    intro w hw
    rw [← hp] at hw
    obtain ⟨hin, hnull⟩ := mem_filter.mp hw
    obtain ⟨row, hrow, rfl⟩ := mem_map.mp hin
    exact ⟨by simpa using hnull, hvals row hrow⟩

theorem sum_agrees (hexact : ExactIntegers) (htype : type.isInteger = true) (h : ReadsAll stored rows column)
    (hcolumn : ctx.resolveColumn none name = some column)
    (hvals : ∀ row ∈ rows, VectorAggregateOp.Bears type (columnValue column row) (.sum column))
    (hstored : SmallSums 0 ((numbers stored column).map fun p => p.1.toInt))
    (hrows : SmallSums 0 ((present (rows.map (columnValue column))).map Value.int))
    (hfits : type = .integer → -2 ^ 31 ≤ ((present (rows.map (columnValue column))).map Value.int).sum ∧
      ((present (rows.map (columnValue column))).map Value.int).sum < 2 ^ 31) :
    ∃ v, (foldValues ctx seen rows (.identifier name) none sumStep).map (fun v => v.getD .null) = .ok v ∧
      (present (rows.map (columnValue column)) = [] → v = .null) ∧
      (present (rows.map (columnValue column)) ≠ [] →
        (Value.bigInt (Crates.f64ToI64
          (((numbers stored column).map Prod.snd).foldl Arithmetic.f64Add 0))).eq v
          = true) := by
  rw [foldValues_identifier hcolumn, foldlM_sumStep]
  have hpresent := h.present
  cases hp : present (rows.map (columnValue column)) with
  | nil => exact ⟨.null, rfl, fun _ => rfl, fun hne => absurd rfl hne⟩
  | cons v rest =>
    rw [hp] at hpresent hrows hfits
    obtain ⟨s, hs, heq⟩ := sums_agree hexact htype hpresent (fun w hw => by
      rw [← hp] at hw
      obtain ⟨hin, hnull⟩ := mem_filter.mp hw
      obtain ⟨row, hrow, rfl⟩ := mem_map.mp hin
      exact ⟨by simpa using hnull, hvals row hrow⟩) hstored hrows hfits
    refine ⟨s, ?_, fun hnil => absurd hnil (cons_ne_nil _ _), fun _ => heq⟩
    simp only [hs]
    rfl

end

/-! ## The rows that are folded -/

omit [Arithmetic] in
def storedRow (t : TableDef) (bytes : List UInt8) : Row := (t.readRow bytes).toOption.getD []

section

variable {ctx : RowContext} {view : View} {indexes : List IndexDef} {selection : Option SqlExpr}

omit [Arithmetic] in
theorem Snapshot.readRow (hs : Snapshot view ctx.table indexes) {key : Key} {bytes : List UInt8}
    (h : (view ctx.table.mapName).get key = some bytes) :
    ∃ raw : Row, raw.Storable ∧ bytes = raw.toBytes ∧ ctx.table.readRow bytes = .ok (ctx.table.alignRow raw) ∧
      storedRow ctx.table bytes = ctx.table.alignRow raw := by
  obtain ⟨raw, hraw, rfl⟩ := hs.stored key bytes h
  have hread : ctx.table.readRow raw.toBytes = .ok (ctx.table.alignRow raw) := by
    rw [TableDef.readRow, Row.fromBytes_toBytes hraw]
    rfl
  exact ⟨raw, hraw, rfl, hread, by rw [storedRow, hread]; rfl⟩

/-- The entries whose rows `WHERE` selects. -/
def selectedEntries (ctx : RowContext) (seen : Visible) (selection : Option SqlExpr) :
    List (Key × List UInt8) :=
  (seen.scan ctx.table.mapName).filter fun e => satisfies ctx seen selection (storedRow ctx.table e.2)

theorem Snapshot.selectedRows (hs : Snapshot view ctx.table indexes) (selection : Option SqlExpr) :
    selectedRows ctx view.seen selection =
      (selectedEntries ctx view.seen selection).map fun e => storedRow ctx.table e.2 := by
  have hrows : visibleRows view.seen ctx.table =
      (view.seen.scan ctx.table.mapName).map fun e => storedRow ctx.table e.2 := by
    rw [visibleRows, ← filterMap_eq_map']
    apply filterMap_congr
    intro e he
    obtain ⟨raw, -, -, hread, hstored⟩ := hs.readRow (View.mem_scan.mp he)
    rw [hread, hstored]
    rfl
  rw [Sql.selectedRows, hrows, filter_map]
  rfl

omit [Arithmetic] in
theorem Snapshot.range_perm (hs : Snapshot view ctx.table indexes) {idx : IndexDef} (hidx : idx ∈ indexes)
    (bounds : Bound × Bound) :
    ((view.seen.scanRange (indexMapName ctx.table.name idx) bounds.1 bounds.2).filterMap fun e =>
        rowOfEntry view.seen ctx.table e.1).Perm
      (((view.seen.scan ctx.table.mapName).filter fun e => (entryAt view ctx.table idx e.1).any fun k =>
        bounds.1.admitsFrom k && bounds.2.admitsTo k).map Prod.snd) := by
  have hperm := (entries_perm (hs.mirror idx hidx) hs.rowKeys fun k =>
    bounds.1.admitsFrom k && bounds.2.admitsTo k).filterMap (view ctx.table.mapName).get
  rw [filterMap_map, filterMap_map] at hperm
  convert hperm using 1
  · apply filterMap_congr
    intro e he
    obtain ⟨key, hkey⟩ := (hs.mirror idx hidx e.1).mp (by
      rw [View.mem_scan.mp (mem_filter.mp he).1]
      rfl)
    have hlength := (keyOfEntry_entryAt hs.rowKeys hkey).2
    exact if_pos (by omega)
  · rw [← filterMap_eq_map]
    apply filterMap_congr
    intro e he
    exact (View.mem_scan.mp (mem_filter.mp he).1).symm

end

def columnType (t : TableDef) (column : Nat) : Option DataType := t.columns[column]?.map ColumnDef.dataType

def columnInts (rows : List Row) (column : Nat) : List Int :=
  (present (rows.map (columnValue column))).map Value.int

/-- The operations that the pushdown is to agree on: no `AVG`, and `SUM` over integer columns whose partial
sums stay below 2^53, in the order of the rows and in the order the pushdown goes through them. -/
structure InScope (ctx : RowContext) (view : View) (indexes : List IndexDef) (ops : List VectorAggregateOp)
    (selection : Option SqlExpr) : Prop where
  avg : ∀ column, .avg column ∉ ops
  integer : ∀ column, .sum column ∈ ops → ∀ type, columnType ctx.table column = some type →
    type.isInteger = true
  sums : ∀ column, .sum column ∈ ops →
    SmallSums 0 (columnInts (selectedRows ctx view.seen selection) column)
  storedSums : ∀ column, .sum column ∈ ops → ∀ stored,
    pushdownRows view.seen ctx.table indexes selection = some stored →
      SmallSums 0 ((numbers stored column).map fun p => p.1.toInt)

/-- The rows and their columns bear the pushdown: the range that was recognised holds the rows that `WHERE`
selects, the columns lie where they are read, and their values go through numbers. -/
structure Pushable (ctx : RowContext) (view : View) (indexes : List IndexDef) (ops : List VectorAggregateOp)
    (selection : Option SqlExpr) : Prop where
  selects : ∀ sel idx bounds, selection = some sel → accessPath ctx.table indexes sel = .range idx bounds →
    ∀ key row, rowAt view ctx.table key = some row →
      satisfies ctx view.seen selection row = (entryOf ctx.table idx key row).any fun k =>
        bounds.1.admitsFrom k && bounds.2.admitsTo k
  columns : ∀ op ∈ ops, ∀ column, op.column = some column → ∀ key (raw : Row), raw.Storable →
    (view ctx.table.mapName).get key = some raw.toBytes →
      satisfies ctx view.seen selection (ctx.table.alignRow raw) = true → PlainColumn ctx.table raw column
  values : ∀ op ∈ ops, ∀ column type, op.column = some column → columnType ctx.table column = some type →
    ∀ row ∈ selectedRows ctx view.seen selection, op.Bears type (columnValue column row)
  fits : ∀ column, .sum column ∈ ops → columnType ctx.table column = some .integer →
    -2 ^ 31 ≤ (columnInts (selectedRows ctx view.seen selection) column).sum ∧
      (columnInts (selectedRows ctx view.seen selection) column).sum < 2 ^ 31

section

variable {ctx : RowContext} {view : View} {indexes : List IndexDef} {selection : Option SqlExpr}
  {ops : List VectorAggregateOp} {stored : List (List UInt8)}

theorem Pushable.rows_perm (h : Pushable ctx view indexes ops selection)
    (hs : Snapshot view ctx.table indexes)
    (hstored : pushdownRows view.seen ctx.table indexes selection = some stored) :
    stored.Perm ((selectedEntries ctx view.seen selection).map Prod.snd) := by
  cases selection with
  | none =>
    cases hstored
    have hall : selectedEntries ctx view.seen none = view.seen.scan ctx.table.mapName :=
      filter_eq_self.mpr fun _ _ => rfl
    rw [hall]
  | some sel =>
    rw [pushdownRows] at hstored
    cases hpath : accessPath ctx.table indexes sel with
    | range idx bounds =>
      rw [hpath] at hstored
      cases hstored
      have hidx : idx ∈ indexes := mem_of_accessPath (by rw [hpath]; rfl)
      have hfilter : selectedEntries ctx view.seen (some sel) =
          (view.seen.scan ctx.table.mapName).filter fun e => (entryAt view ctx.table idx e.1).any fun k =>
            bounds.1.admitsFrom k && bounds.2.admitsTo k := by
        apply filter_congr
        intro e he
        obtain ⟨raw, -, -, hread, hrow⟩ := hs.readRow (View.mem_scan.mp he)
        have hat : rowAt view ctx.table e.1 = some (ctx.table.alignRow raw) := by
          rw [rowAt, View.mem_scan.mp he, Option.bind_some, hread]
          rfl
        rw [hrow, h.selects sel idx bounds rfl hpath e.1 _ hat, entryAt, hat, Option.bind_some]
      rw [hfilter]
      exact hs.range_perm hidx bounds
    | _ =>
      rw [hpath] at hstored
      cases hstored

theorem Pushable.readsAll (h : Pushable ctx view indexes ops selection) (hs : Snapshot view ctx.table indexes)
    (hstored : pushdownRows view.seen ctx.table indexes selection = some stored) {op : VectorAggregateOp}
    (hop : op ∈ ops) {column : Nat} (hcolumn : op.column = some column) :
    ReadsAll stored (selectedRows ctx view.seen selection) column := by
  have hperm := h.rows_perm hs hstored
  refine ⟨?_, ?_⟩
  · have hnumbers := hperm.filterMap fun bytes => extractNumericColumn bytes column
    rw [filterMap_map] at hnumbers
    rw [hs.selectedRows, map_map, filterMap_map]
    refine hnumbers.trans (List.Perm.of_eq (filterMap_congr fun e he => ?_))
    obtain ⟨hin, hsat⟩ := mem_filter.mp he
    obtain ⟨raw, hraw, hbytes, -, hrow⟩ := hs.readRow (View.mem_scan.mp hin)
    have hplain := h.columns op hop column hcolumn e.1 raw hraw (hbytes ▸ View.mem_scan.mp hin) (hrow ▸ hsat)
    simp only [Function.comp_apply]
    rw [hrow, hbytes, hplain.extract hraw]
  · have hle := (length_filter_le (fun e => satisfies ctx view.seen selection (storedRow ctx.table e.2))
      (view.seen.scan ctx.table.mapName))
    have hfew := hs.few
    rw [hperm.length_eq, length_map, selectedEntries]
    omega

omit [Arithmetic] in
theorem eq_of_count {count : Int64} {vals : List Value} {p v : Value} (hcount : count = 0 ↔ vals = [])
    (hnil : vals = [] → v = .null) (hcons : vals ≠ [] → p.eq v = true) :
    (if count = 0 then Value.null else p).eq v = true := by
  by_cases hzero : count = 0
  · rw [if_pos hzero, hnil (hcount.mp hzero)]
    rfl
  · rw [if_neg hzero]
    exact hcons fun h => hzero (hcount.mpr h)

theorem Pushable.op_agrees (h : Pushable ctx view indexes ops selection)
    (hs : Snapshot view ctx.table indexes)
    (hscope : InScope ctx view indexes ops selection)
    (hexact : ∀ column, .sum column ∈ ops → ExactIntegers)
    (hwide : ∀ column, columnType ctx.table column = some .float → ExactWidening)
    (hstored : pushdownRows view.seen ctx.table indexes selection = some stored) {op : VectorAggregateOp}
    (hop : op ∈ ops) {call : FunctionCall} (hcall : parseAggregateOp ctx call = some op) :
    ∃ v, evaluateAggregateExpr ctx view.seen (selectedRows ctx view.seen selection) call = .ok v ∧
      (pushdownValue ctx.table op (stored.foldl (Accumulator.add op) {})).eq v = true := by
  rcases parseAggregateOp_cases hcall with ⟨rfl, hname, hargs⟩ | ⟨column, i, hargs, hcolumn, hopcolumn,
    hcases⟩
  · have hlength : stored.length = (selectedRows ctx view.seen selection).length := by
      rw [(h.rows_perm hs hstored).length_eq, hs.selectedRows, length_map, length_map]
    refine ⟨.bigInt (Int64.ofNat (selectedRows ctx view.seen selection).length), ?_, ?_⟩
    · unfold evaluateAggregateExpr
      rcases hargs with hargs | hargs <;> rw [hname, hargs] <;> rfl
    · rw [pushdownValue, count_countStar, hlength, Int64.zero_add]
      exact beq_self_eq_true _
  · have hreads := h.readsAll hs hstored hop hopcolumn
    have hlt : i < ctx.table.columns.length := TableDef.columnIndex_lt hcolumn
    obtain ⟨type, htype⟩ : ∃ type, columnType ctx.table i = some type :=
      ⟨_, by rw [columnType, List.getElem?_eq_getElem hlt]; rfl⟩
    have hvals := h.values op hop i type hopcolumn htype
    have hcount := hreads.count hopcolumn
    have hwidetype : type = .float → ExactWidening := fun hfloat => hwide i (hfloat ▸ htype)
    rcases hcases with ⟨rfl, hname⟩ | ⟨rfl, hname⟩ | ⟨rfl, hname⟩ | ⟨rfl, hname⟩ | ⟨rfl, hname⟩
    · refine ⟨.bigInt (stored.foldl (Accumulator.add (.count i)) {}).count, ?_, beq_self_eq_true _⟩
      unfold evaluateAggregateExpr
      rw [hname, hargs]
      exact congrArg (Except.map Value.bigInt) (count_agrees hreads hcolumn)
    · obtain ⟨v, hv, hnil, hcons⟩ := sum_agrees (hexact i hop) (hscope.integer i hop type htype) hreads
        hcolumn hvals (hscope.storedSums i hop stored hstored) (hscope.sums i hop) fun hinteger =>
          h.fits i hop (hinteger ▸ htype)
      refine ⟨v, ?_, ?_⟩
      · unfold evaluateAggregateExpr
        rw [hname, hargs]
        exact hv
      · rw [pushdownValue, sum_column]
        exact eq_of_count hcount hnil hcons
    · exact absurd hop (hscope.avg i)
    · obtain ⟨v, hv, hnil, hcons⟩ := extreme_agrees extreme_min hwidetype hreads hcolumn hvals
      refine ⟨v, ?_, ?_⟩
      · unfold evaluateAggregateExpr
        rw [hname, hargs]
        exact hv
      · rw [pushdownValue, extremeValue, (min_column i stored _).1, (min_column i stored _).2]
        rw [columnType] at htype
        rw [htype, Option.any_some]
        exact eq_of_count hcount hnil hcons
    · obtain ⟨v, hv, hnil, hcons⟩ := extreme_agrees extreme_max hwidetype hreads hcolumn hvals
      refine ⟨v, ?_, ?_⟩
      · unfold evaluateAggregateExpr
        rw [hname, hargs]
        exact hv
      · rw [pushdownValue, extremeValue, (max_column i stored _).1, (max_column i stored _).2]
        rw [columnType] at htype
        rw [htype, Option.any_some]
        exact eq_of_count hcount hnil hcons

end

omit [Crates] [Arithmetic] in
theorem parseAggregateOps_calls {ctx : RowContext} {projection : List (FunctionCall × String)}
    {names : List String} {ops : List VectorAggregateOp}
    (h : parseAggregateOps ctx (projection.map fun p => .function p.1 p.2) = some (names, ops)) :
    List.Forall₂ (fun call op => parseAggregateOp ctx call = some op) (projection.map Prod.fst) ops := by
  induction projection generalizing names ops with
  | nil =>
    cases h
    exact .nil
  | cons p projection ih =>
    obtain ⟨op, hop, h⟩ := Option.bind_eq_some_iff.mp h
    obtain ⟨rest, hrest, h⟩ := Option.bind_eq_some_iff.mp h
    cases h
    exact .cons hop (ih hrest)

theorem evaluateAggregates_of_forall₂ {ctx : RowContext} {seen : Visible} {rows : List Row}
    {calls : List FunctionCall} {ops : List VectorAggregateOp} {answer : VectorAggregateOp → Value}
    (h : List.Forall₂ (fun call op => ∃ v, evaluateAggregateExpr ctx seen rows call = .ok v ∧
      (answer op).eq v = true) calls ops) :
    ∃ row, evaluateAggregates ctx seen rows calls = .ok row ∧ Value.eqAll (ops.map answer) row = true := by
  induction h with
  | nil => exact ⟨[], rfl, rfl⟩
  | cons hcall _ ih =>
    obtain ⟨v, hv, heq⟩ := hcall
    obtain ⟨row, hrow, heqs⟩ := ih
    refine ⟨v :: row, ?_, ?_⟩
    · unfold evaluateAggregates at hrow ⊢
      rw [mapM_cons, hv, hrow]
      rfl
    · rw [map_cons, Value.eqAll, heq, heqs]
      rfl

/-- The pushdown answers what the evaluation does wherever the rows and their columns bear it.  The
assumptions about floating-point numbers are those of `SUM` and of `FLOAT` columns. -/
theorem pushdown_transparent {ctx : RowContext} {kind : TableKind} {view : View} {indexes : List IndexDef}
    {projection : List (FunctionCall × String)} {selection : Option SqlExpr}
    (hs : Snapshot view ctx.table indexes)
    (hwide : ∀ column, columnType ctx.table column = some .float → ExactWidening)
    (h : ∀ names ops, parseAggregateOps ctx (projection.map fun p => .function p.1 p.2) = some (names, ops) →
      (∀ column, .sum column ∈ ops → ExactIntegers) ∧ InScope ctx view indexes ops selection ∧
        Pushable ctx view indexes ops selection) :
    PushdownTransparent ctx kind view indexes projection selection := by
  intro row hrow
  unfold pushdown at hrow
  obtain ⟨⟨names, ops⟩, hops, hrow⟩ := Option.bind_eq_some_iff.mp hrow
  obtain ⟨stored, hstored, hrow⟩ := Option.bind_eq_some_iff.mp hrow
  cases hrow
  have hparse : parseAggregateOps ctx (projection.map fun p => .function p.1 p.2) = some (names, ops) := by
    cases kind with
    | cache ttl => cases hops
    | plain => exact hops
    | queue => exact hops
  obtain ⟨hexact, hscope, hpushable⟩ := h names ops hparse
  rw [buildPushdownAggregateResult_eq]
  apply evaluateAggregates_of_forall₂
  apply forall₂_iff_get.mpr
  obtain ⟨hlength, hget⟩ := forall₂_iff_get.mp (parseAggregateOps_calls hparse)
  exact ⟨hlength, fun i hi hi' => hpushable.op_agrees hs hscope hexact hwide hstored (get_mem _ _)
    (hget i hi hi')⟩

end

/-! ## A column that moved -/

@[reducible] def plainArithmetic : Arithmetic where
  decimalCmp _ _ := .eq
  decimalAdd a _ := a
  decimalNeg a := a
  f64Add a _ := a
  f64Div a _ := a

attribute [local instance] plainCrates plainArithmetic

def twoColumns : TableDef := .new "t" [integerColumn "a", integerColumn "b"]

def oneDropped : TableDef := twoColumns.dropColumn 0

def oneStored (row : Row) : View := View.empty.write (.put twoColumns.mapName (rowKey 1) row.toBytes)

def columnsOf (t : TableDef) : RowContext :=
  ⟨t, none, false, fun name => .error (.execution s!"Column '{name}' not found"), fun _ _ => none⟩

def callOf (name column : String) : FunctionCall × String :=
  (⟨name, false, [.expr (.identifier column)], fun _ _ => .ok .null⟩, name)

theorem row_of_scanAll {view : View} {t : TableDef} {rows : List (UInt64 × Row)}
    (hscan : (view t.mapName).scanAll = rows.map fun p => ⟨rowKey p.1, p.2.toBytes⟩) {key : Key}
    {bytes : List UInt8} (h : (view t.mapName).get key = some bytes) :
    ∃ p ∈ rows, key = rowKey p.1 ∧ bytes = p.2.toBytes := by
  rw [← MVTree.mem_scanAll, hscan] at h
  obtain ⟨p, hp, heq⟩ := mem_map.mp h
  cases heq
  exact ⟨p, hp, rfl, rfl⟩

theorem snapshot_of_scanAll {view : View} {t : TableDef} {rows : List (UInt64 × Row)}
    {indexes : List IndexDef}
    (hscan : (view t.mapName).scanAll = rows.map fun p => ⟨rowKey p.1, p.2.toBytes⟩)
    (hrows : ∀ p ∈ rows, p.2.Storable) (hfew : rows.length < 2 ^ 63)
    (hmirror : ∀ idx ∈ indexes, Mirrors view t idx) : Snapshot view t indexes := by
  refine ⟨fun key bytes h => ?_, fun key h => ?_, hmirror, ?_⟩
  · obtain ⟨p, hp, -, rfl⟩ := row_of_scanAll hscan h
    exact ⟨p.2, hrows p hp, rfl⟩
  · obtain ⟨bytes, h⟩ := Option.isSome_iff_exists.mp h
    obtain ⟨p, -, rfl, -⟩ := row_of_scanAll hscan h
    exact rowKey_length p.1
  · change ((view t.mapName).scanAll.map fun e => (e.key, e.value)).length < 2 ^ 63
    rwa [hscan, length_map, length_map]

theorem snapshot_oneStored {row : Row} (hrow : row.Storable) {t : TableDef}
    (ht : t.mapName = twoColumns.mapName) : Snapshot (oneStored row) t [] := by
  apply @snapshot_of_scanAll _ t [(1, row)]
  · rw [ht, oneStored, View.write, Function.update_self, MVTree.scanAll_put]
    rfl
  · intro p hp
    rwa [mem_singleton.mp hp]
  · exact (by decide : 1 < 2 ^ 63)
  · intro idx h
    cases h

/-- `COUNT(b)` counts the value of the column that was dropped. -/
theorem count_reads_dropped_column :
    ¬∀ (ctx : RowContext) (kind : TableKind) (view : View) (indexes : List IndexDef)
      (projection : List (FunctionCall × String)) (selection : Option SqlExpr),
      Snapshot view ctx.table indexes →
      (∀ names ops, parseAggregateOps ctx (projection.map fun p => .function p.1 p.2) = some (names, ops) →
        InScope ctx view indexes ops selection) →
      PushdownTransparent ctx kind view indexes projection selection := by
  intro h
  have hstorable : Row.Storable [.integer 1, .null] := ⟨by decide, trivial, trivial, trivial⟩
  have htransparent :=
    h (columnsOf oneDropped) .plain (oneStored [.integer 1, .null]) [] [callOf "COUNT" "b"] none
    (snapshot_oneStored hstorable rfl) (by
      intro names ops hops
      obtain ⟨rfl, rfl⟩ := Prod.mk.inj (Option.some_inj.mp hops)
      constructor <;> intro column hin <;> cases hin <;> contradiction)
  obtain ⟨row', hrow', heq⟩ := htransparent [.bigInt 1] (by rfl)
  have hzero : evaluateAggregates (columnsOf oneDropped) (oneStored [.integer 1, .null]).seen
      (selectedRows (columnsOf oneDropped) (oneStored [.integer 1, .null]).seen none)
      ([callOf "COUNT" "b"].map Prod.fst) = .ok [.bigInt 0] := by rfl
  cases hzero.symm.trans hrow'
  revert heq
  decide

def indexA : IndexDef := ⟨"i", "t", ["a"], false⟩

def entryFor (p : UInt64 × Row) : Key := (entryOf twoColumns indexA (rowKey p.1) p.2).getD []

/-- The rows of a table with an entry for each in the index of `a`. -/
def indexed (rows : List (UInt64 × Row)) : View :=
  View.empty.writeAll (rows.flatMap fun p => [.put twoColumns.mapName (rowKey p.1) p.2.toBytes,
    .put (indexMapName "t" indexA) (entryFor p) []])

def threeRows : List (UInt64 × Row) :=
  [(1, [.integer 1, .integer 30]), (2, [.integer 2, .null]), (3, [.integer 3, .integer 10])]

theorem storable_threeRows : ∀ p ∈ threeRows, p.2.Storable := by
  have hpair : ∀ v w : Value, v.Storable → w.Storable → Row.Storable [v, w] :=
    fun _ _ hv hw => ⟨(by decide : 2 < 2 ^ 32), hv, hw, trivial⟩
  simp only [threeRows, forall_mem_cons]
  exact ⟨hpair _ _ trivial trivial, hpair _ _ trivial trivial, hpair _ _ trivial trivial,
    fun _ h => absurd h not_mem_nil⟩

theorem scanAll_threeRows : (indexed threeRows twoColumns.mapName).scanAll =
    threeRows.map fun p => ⟨rowKey p.1, p.2.toBytes⟩ := by rfl

theorem mirrors_threeRows : Mirrors (indexed threeRows) twoColumns indexA := by
  have hentry : ∀ p ∈ threeRows, entryAt (indexed threeRows) twoColumns indexA (rowKey p.1) =
    some (entryFor p) ∧
      ((indexed threeRows (indexMapName "t" indexA)).get (entryFor p)).isSome = true := by decide +kernel
  have hkeys : (indexed threeRows (indexMapName "t" indexA)).scanAll.map Entry.key =
      threeRows.map entryFor := by rfl
  intro k
  constructor
  · intro h
    obtain ⟨v, hv⟩ := Option.isSome_iff_exists.mp h
    have hin : k ∈ threeRows.map entryFor := hkeys ▸ mem_map_of_mem ((MVTree.mem_scanAll _ _ _).mpr hv)
    obtain ⟨p, hp, rfl⟩ := mem_map.mp hin
    exact ⟨rowKey p.1, (hentry p hp).1⟩
  · rintro ⟨key, h⟩
    obtain ⟨row, hrow, -⟩ := entryAt_eq_some h
    obtain ⟨bytes, hget, -⟩ := Option.bind_eq_some_iff.mp hrow
    obtain ⟨p, hp, rfl, -⟩ := row_of_scanAll scanAll_threeRows hget
    cases (hentry p hp).1.symm.trans h
    exact (hentry p hp).2

/-- `WHERE a >= 2` -/
def fromTwo : SqlExpr := .binary (.identifier "a") .gtEq (.value (.number "2"))

/-- Where no column was dropped the count and the least value of an index range are right. -/
theorem pushdown_transparent_indexRange :
    PushdownTransparent (columnsOf twoColumns) .plain (indexed threeRows) [indexA]
      [callOf "COUNT" "b", callOf "MIN" "a"] (some fromTwo) := by
  apply pushdown_transparent (snapshot_of_scanAll scanAll_threeRows storable_threeRows (by decide)
    fun idx hidx => mem_singleton.mp hidx ▸ mirrors_threeRows)
  · intro column hfloat
    rcases column with _ | _ | column <;> cases hfloat
  intro names ops hops
  obtain ⟨rfl, rfl⟩ := Prod.mk.inj (Option.some_inj.mp hops)
  refine ⟨fun column hin => ?_, ⟨fun column hin => ?_, fun column hin => ?_, fun column hin => ?_,
    fun column hin => ?_⟩, ⟨?_, ?_, ?_, fun column hin => ?_⟩⟩
  · simp at hin
  · simp at hin
  · simp at hin
  · simp at hin
  · simp at hin
  · intro sel idx bounds hsel hpath key row hrow
    cases hsel
    cases hpath
    have hselects : ∀ p ∈ threeRows, ∀ row ∈ rowAt (indexed threeRows) twoColumns (rowKey p.1),
        satisfies (columnsOf twoColumns) (indexed threeRows).seen (some fromTwo) row =
          (entryOf twoColumns indexA (rowKey p.1) row).any fun k =>
            Bound.admitsFrom (.included (encodeIndexPrefix [.integer 2])) k &&
              Bound.admitsTo .unbounded k := by decide +kernel
    obtain ⟨bytes, hget, -⟩ := Option.bind_eq_some_iff.mp hrow
    obtain ⟨p, hp, rfl, -⟩ := row_of_scanAll scanAll_threeRows hget
    exact hselects p hp row hrow
  · intro op hop column hcolumn key raw hraw hget _
    obtain ⟨p, hp, -, hbytes⟩ := row_of_scanAll scanAll_threeRows hget
    have hsame := congrArg Row.fromBytes hbytes
    rw [Row.fromBytes_toBytes hraw, Row.fromBytes_toBytes (storable_threeRows p hp)] at hsame
    cases hsame
    simp only [threeRows, mem_cons, not_mem_nil, or_false] at hp
    rcases mem_pair.mp hop with rfl | rfl <;> cases hcolumn
    · rcases hp with rfl | rfl | rfl <;> exact ⟨rfl, by simp [Value.isSkipped], by simp [Value.isRead]⟩
    · rcases hp with rfl | rfl | rfl <;> exact ⟨rfl, by simp, by simp [Value.isRead]⟩
  · intro op hop column type hcolumn htype row hin
    have hrows : selectedRows (columnsOf twoColumns) (indexed threeRows).seen (some fromTwo) =
        [[.integer 2, .null], [.integer 3, .integer 10]] := by rfl
    rw [hrows] at hin
    rcases mem_pair.mp hop with rfl | rfl <;> cases hcolumn
    · trivial
    · cases htype
      rcases mem_pair.mp hin with rfl | rfl <;> exact ⟨rfl, rfl⟩
  · simp at hin

end H2Database.Sql
