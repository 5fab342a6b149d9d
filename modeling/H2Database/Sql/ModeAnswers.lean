import H2Database.Sql.ExecutionModes

/-!
# Answers of the execution modes

The loop over the rows, the batch and the evaluation answer one value on every projection if its operations
stay where all three know the type: the loop adds no `TINYINT`, a batch knows no integers but `INTEGER` and
`BIGINT`, and the evaluation adds an `INTEGER` to an `INTEGER`.
-/

namespace H2Database.Sql

open Reasoning List Option

section

variable {rows : List Row} {column : Nat} {type : DataType}

theorem ofNat_count_ne_zero (hfew : rows.length < 2 ^ 63) (hvals : columnValues rows column ≠ []) :
    Int64.ofNat (columnValues rows column).length ≠ 0 := by
  have hle : (columnValues rows column).length ≤ rows.length :=
    le_trans (length_filter_le _ _) (le_of_eq (length_map _))
  rw [← Int64.zero_add (Int64.ofNat _)]
  exact fun hzero => hvals (length_eq_zero_iff.mp ((count_eq_zero_iff (by omega)).mp hzero))

variable [Crates]

theorem eqAll_cons (v w : Value) (vs ws : List Value) :
    Value.eqAll (v :: vs) (w :: ws) = true ↔ v.eq w = true ∧ Value.eqAll vs ws = true := by
  rw [Value.eqAll, Bool.and_eq_true]

theorem Value.eq_self_of_isCompared (hdecimal : ∀ p s, type = .decimal p s → DecimalsReadable)
    (htype : type.isCompared = true) {v : Value} (hv : type.holds v = true) : v.eq v = true := by
  cases type <;> cases htype <;> cases v <;> cases hv <;>
    first | rfl | exact beq_self_eq_true _ | exact (hdecimal _ _ rfl).eq_self _

theorem Value.eq_double (hnumber : ∀ i, f64IsNan (Crates.i64ToF64 i) = false)
    (htype : type = .integer ∨ type = .bigInt) {v : Value} (hv : type.holds v = true)
    (hnull : v.isNull = false) :
    v.eq (.double (Crates.i64ToF64 v.int64)) = true ∧
      (Value.double (Crates.i64ToF64 v.int64)).eq v = true := by
  have heq := (f64Eq_iff _ _).mpr ⟨hnumber v.int64, hnumber v.int64, rfl⟩
  rcases htype with rfl | rfl <;> cases v <;> cases hv <;> cases hnull <;>
    simp only [Value.eq, Value.isNumeric, Value.compareNumericEq, Value.isDecimal, Value.isFloating,
      Value.toF64,
      Bool.or_self, Bool.false_eq_true, if_false, Bool.false_or, Bool.or_false, if_true, Bool.true_and] <;>
    exact ⟨heq, heq⟩

theorem isNull_of_sumOf (htype : type.isInteger = true) {n : Int} {v : Value} (hsum : SumOf type n v) :
    v.isNull = false := by
  cases type <;> cases htype
  case tinyInt => obtain ⟨-, hnull, -⟩ | ⟨i, rfl, -⟩ := hsum <;> first | exact hnull | rfl
  case smallInt => obtain ⟨-, hnull, -⟩ | ⟨i, rfl, -⟩ := hsum <;> first | exact hnull | rfl
  case integer =>
    obtain ⟨i, rfl, -⟩ := hsum
    rfl
  case bigInt =>
    obtain ⟨i, rfl, -⟩ := hsum
    rfl

variable [Arithmetic]

theorem fastValue_sum (htype : type.isInteger = true) (hwide : type ≠ .tinyInt)
    (hrows : ∀ row ∈ rows, type.holds (columnValue column row) = true) (hfew : rows.length < 2 ^ 63)
    (hsums : SmallSums 0 (columnInts rows column)) (hvals : columnValues rows column ≠ []) :
    ∃ k : Int64, fastValue (.sum column) rows = .bigInt k ∧ k.toInt = (columnInts rows column).sum := by
  obtain ⟨hsum, hcount, hintegral⟩ := fast_sum htype hwide hrows {} hsums
  have hsome : (rows.foldl (FastAccumulator.add (.sum column)) {}).count ≠ 0 := by
    rw [hcount]
    exact (Int64.zero_add _).symm ▸ ofNat_count_ne_zero hfew hvals
  refine ⟨_, ?_, hsum.trans (zero_add _)⟩
  rw [fastValue, FastAccumulator.value, if_neg hsome, hintegral, if_pos rfl]

theorem fastValue_sum_of_skipped (h : ∀ row ∈ rows, ∀ acc : FastAccumulator,
    acc.addNumber (columnValue column row) = acc) : fastValue (.sum column) rows = .null := by
  have hsame : ∀ acc : FastAccumulator, rows.foldl (FastAccumulator.add (.sum column)) acc = acc := by
    induction rows with
    | nil => exact fun _ => rfl
    | cons row rows ih =>
      obtain ⟨hrow, hrows⟩ := forall_mem_cons.mp h
      intro acc
      rw [foldl_cons, show FastAccumulator.add (.sum column) acc row = acc from hrow acc]
      exact ih hrows acc
  rw [fastValue, hsame]
  rfl

theorem f64Add_zero (hexact : ExactIntegers) {k : Int64} (hk : Small k.toInt) :
    Arithmetic.f64Add 0 (Crates.i64ToF64 k) = Crates.i64ToF64 k := by
  have hzero : Small (0 : Int64).toInt := ⟨by decide, by decide⟩
  have hadd := hexact.add 0 k hzero (hexact.exact k hk) (by rw [Int64.toInt_zero, zero_add]; exact hk)
  rw [hexact.zero, Int64.zero_add] at hadd
  exact hadd

end

section

variable [Crates] [Arithmetic] [Arrow]

/-- Of the operations that may answer NULL, that there is no value to answer from. -/
def VectorAggregateOp.NoInput (rows : List Row) : VectorAggregateOp → Prop
  | .countStar | .count _ => False
  | .sum column | .avg column | .min column | .max column => columnValues rows column = []

def NullsFit (rows : List Row) (ops : List VectorAggregateOp) (row : Row) : Prop :=
  List.Forall₂ (fun op v => v.isNull = true ↔ op.NoInput rows) ops row

/-- The three answer equal rows; where the rows make no batch it is the evaluation that answers for it. -/
def ModesAgree (ctx : RowContext) (schema : List VectorColumn) (seen : Visible) (rows : List Row)
    (calls : List FunctionCall) (ops : List VectorAggregateOp) : Prop :=
  ∃ row, evaluateAggregates ctx seen rows calls = .ok row ∧ NullsFit rows ops row ∧
    Value.eqAll (executeFastRowAggregate ops rows) row = true ∧
    NullsFit rows ops (executeFastRowAggregate ops rows) ∧
    ∀ batch, rowsToRecordBatch schema rows = .ok batch →
      Value.eqAll (executeAggregate batch ops) row = true ∧
      Value.eqAll (executeFastRowAggregate ops rows) (executeAggregate batch ops) = true ∧
      NullsFit rows ops (executeAggregate batch ops)

/-- The columns are of the types to compare and of those of the schema, there is no `AVG`, and `SUM` is
over integer columns whose partial sums stay below 2^53. -/
structure Comparable (ctx : RowContext) (schema : List VectorColumn) (rows : List Row)
    (ops : List VectorAggregateOp) : Prop where
  types : schema.map VectorColumn.dataType = ctx.table.columns.map ColumnDef.dataType
  few : rows.length < 2 ^ 63
  avg : ∀ column, .avg column ∉ ops
  typed : ∀ op ∈ ops, ∀ column, op.column = some column → ∃ type, columnType ctx.table column = some type ∧
    type.isCompared = true ∧ ∀ row ∈ rows, type.holds (columnValue column row) = true
  sums : ∀ column, .sum column ∈ ops →
    (∀ type, columnType ctx.table column = some type → type.isInteger = true) ∧
      SmallSums 0 (columnInts rows column)

def MakesBatch (schema : List VectorColumn) (rows : List Row) : Prop :=
  ∃ batch, rowsToRecordBatch schema rows = .ok batch

/-- Where the modes know the type of the column.  `AVG` is not compared. -/
def VectorAggregateOp.Known (t : TableDef) (schema : List VectorColumn) (rows : List Row) :
    VectorAggregateOp → Prop
  | .countStar | .count _ => True
  | .avg _ => False
  | .min column | .max column => columnValues rows column = [] ∨ columnType t column = some .integer ∨
      columnType t column = some .bigInt ∨ ¬MakesBatch schema rows
  | .sum column => columnValues rows column = [] ∨ columnType t column = some .bigInt ∨
      (columnType t column = some .integer ∧ -2 ^ 31 ≤ (columnInts rows column).sum ∧
        (columnInts rows column).sum < 2 ^ 31) ∨
      (columnType t column = some .smallInt ∧ ¬MakesBatch schema rows)

/-! ## One operation at a time -/

def OpAgrees (ctx : RowContext) (schema : List VectorColumn) (seen : Visible) (rows : List Row)
    (call : FunctionCall)
    (op : VectorAggregateOp) : Prop :=
  ∃ v, evaluateAggregateExpr ctx seen rows call = .ok v ∧ (v.isNull = true ↔ op.NoInput rows) ∧
    (fastValue op rows).eq v = true ∧ ((fastValue op rows).isNull = true ↔ op.NoInput rows) ∧
    ∀ batch, rowsToRecordBatch schema rows = .ok batch →
      (vectorValue batch op).eq v = true ∧ (fastValue op rows).eq (vectorValue batch op) = true ∧
      ((vectorValue batch op).isNull = true ↔ op.NoInput rows)

variable {ctx : RowContext} {schema : List VectorColumn} {seen : Visible} {rows : List Row}
  {calls : List FunctionCall} {ops : List VectorAggregateOp} {call : FunctionCall} {op : VectorAggregateOp}
  {column : Nat} {type : DataType}

theorem modesAgree_nil : ModesAgree ctx schema seen rows [] [] := by
  have hfast : executeFastRowAggregate [] rows = [] := executeFastRowAggregate_eq [] rows
  unfold ModesAgree
  rw [hfast]
  exact ⟨[], rfl, .nil, rfl, .nil, fun _ _ => ⟨rfl, rfl, .nil⟩⟩

theorem modesAgree_cons : ModesAgree ctx schema seen rows (call :: calls) (op :: ops) ↔
    OpAgrees ctx schema seen rows call op ∧ ModesAgree ctx schema seen rows calls ops := by
  have hfast : executeFastRowAggregate (op :: ops) rows =
      fastValue op rows :: executeFastRowAggregate ops rows := by
    rw [executeFastRowAggregate_eq, executeFastRowAggregate_eq, map_cons]
  have hvector : ∀ batch,
      executeAggregate batch (op :: ops) = vectorValue batch op :: executeAggregate batch ops :=
    fun _ => rfl
  constructor
  · rintro ⟨row, hrow, hnulls, heq, hfastNulls, hbatch⟩
    rw [evaluateAggregates, mapM_cons] at hrow
    obtain ⟨v, hv, hrow⟩ := H2Result.bind_eq_ok.mp hrow
    obtain ⟨rest, hrest, hrow⟩ := H2Result.bind_eq_ok.mp hrow
    obtain rfl : v :: rest = row := Except.ok.inj hrow
    rw [hfast] at heq hfastNulls hbatch
    obtain ⟨hnull, hnulls⟩ := forall₂_cons.mp hnulls
    obtain ⟨hfastNull, hfastNulls⟩ := forall₂_cons.mp hfastNulls
    obtain ⟨heq, heqs⟩ := (eqAll_cons _ _ _ _).mp heq
    refine ⟨⟨v, hv, hnull, heq, hfastNull, fun batch hmade => ?_⟩,
      ⟨rest, hrest, hnulls, heqs, hfastNulls, fun batch hmade => ?_⟩⟩
    · obtain ⟨hvectorEq, hmodesEq, hvectorNulls⟩ := hbatch batch hmade
      rw [hvector] at hvectorEq hmodesEq hvectorNulls
      exact ⟨((eqAll_cons _ _ _ _).mp hvectorEq).1, ((eqAll_cons _ _ _ _).mp hmodesEq).1,
        (forall₂_cons.mp hvectorNulls).1⟩
    · obtain ⟨hvectorEq, hmodesEq, hvectorNulls⟩ := hbatch batch hmade
      rw [hvector] at hvectorEq hmodesEq hvectorNulls
      exact ⟨((eqAll_cons _ _ _ _).mp hvectorEq).2, ((eqAll_cons _ _ _ _).mp hmodesEq).2,
        (forall₂_cons.mp hvectorNulls).2⟩
  · rintro ⟨⟨v, hv, hnull, heq, hfastNull, hop⟩, ⟨rest, hrest, hnulls, heqs, hfastNulls, hbatch⟩⟩
    refine ⟨v :: rest, ?_, .cons hnull hnulls, ?_, ?_, fun batch hmade => ?_⟩
    · rw [evaluateAggregates] at hrest ⊢
      rw [mapM_cons, hv, hrest]
      rfl
    · rw [hfast]
      exact (eqAll_cons _ _ _ _).mpr ⟨heq, heqs⟩
    · rw [hfast]
      exact .cons hfastNull hfastNulls
    · obtain ⟨hvectorEq, hmodesEq, hvectorNull⟩ := hop batch hmade
      obtain ⟨hvectorEqs, hmodesEqs, hvectorNulls⟩ := hbatch batch hmade
      rw [hfast, hvector]
      exact ⟨(eqAll_cons _ _ _ _).mpr ⟨hvectorEq, hvectorEqs⟩, (eqAll_cons _ _ _ _).mpr ⟨hmodesEq, hmodesEqs⟩,
        .cons hvectorNull hvectorNulls⟩

theorem modesAgree_iff {R : VectorAggregateOp → Prop}
    (h : List.Forall₂ (fun call op => OpAgrees ctx schema seen rows call op ↔ R op) calls ops) :
    ModesAgree ctx schema seen rows calls ops ↔ ∀ op ∈ ops, R op := by
  induction h with
  | nil =>
    refine ⟨fun _ op hop => ?_, fun _ => modesAgree_nil⟩
    cases hop
  | cons hop _ ih => rw [modesAgree_cons, ih, hop, forall_mem_cons]

/-- The rows have values of a type that is compared, and so does the array of a batch. -/
structure TypedColumn (t : TableDef) (schema : List VectorColumn) (rows : List Row) (column : Nat)
    (type : DataType) : Prop where
  ofType : columnType t column = some type
  compared : type.isCompared = true
  holds : ∀ row ∈ rows, type.holds (columnValue column row) = true
  array : ∀ batch, rowsToRecordBatch schema rows = .ok batch →
    batch.columns[column]?.getD (.other []) = typedArray type (rows.map (columnValue column))

omit [Arithmetic] in
theorem Comparable.typedColumn (h : Comparable ctx schema rows ops)
    (hdecimal : ∀ column p s, columnType ctx.table column = some (.decimal p s) → DecimalsReadable)
    (hop : op ∈ ops)
    (hcolumn : op.column = some column) : ∃ type, TypedColumn ctx.table schema rows column type := by
  obtain ⟨type, htype, hcompared, hrows⟩ := h.typed op hop column hcolumn
  refine ⟨type, htype, hcompared, hrows, fun batch hbatch => ?_⟩
  obtain ⟨c, hc, rfl⟩ : ∃ c, schema[column]? = some c ∧ c.dataType = type := by
    have hschema := congrArg (·[column]?) h.types
    simp only [List.getElem?_map] at hschema
    exact map_eq_some_iff.mp (hschema.trans htype)
  rw [rowsToRecordBatch_column hbatch hc (fun p s hps => hdecimal column p s (hps ▸ htype)) hcompared hrows]
  rfl

omit [Arithmetic] in
theorem TypedColumn.mem (h : TypedColumn ctx.table schema rows column type) {v : Value}
    (hv : v ∈ columnValues rows column) : type.holds v = true ∧ v.isNull = false :=
  mem_columnValues h.holds hv

omit [Arithmetic] in
theorem TypedColumn.vals (h : TypedColumn ctx.table schema rows column type) :
    ∀ v ∈ rows.map (columnValue column), type.holds v = true := forall_mem_map.mpr h.holds

theorem opAgrees_of_bigInt {n : Int64} (heval : evaluateAggregateExpr ctx seen rows call = .ok (.bigInt n))
    (hfast : fastValue op rows = .bigInt n) (hinput : ¬op.NoInput rows)
    (hvector : ∀ batch, rowsToRecordBatch schema rows = .ok batch → vectorValue batch op = .bigInt n) :
    OpAgrees ctx schema seen rows call op := by
  have heq : (Value.bigInt n).eq (.bigInt n) = true := beq_self_eq_true n
  have hnull : (Value.bigInt n).isNull = true ↔ op.NoInput rows := iff_of_false Bool.false_ne_true hinput
  refine ⟨.bigInt n, heval, hnull, ?_, ?_, fun batch hbatch => ?_⟩
  · rw [hfast]
    exact heq
  · rw [hfast]
    exact hnull
  · rw [hfast, hvector batch hbatch]
    exact ⟨heq, heq, hnull⟩

theorem countStar_agrees (hcall : parseAggregateOp ctx call = some .countStar) :
    OpAgrees ctx schema seen rows call .countStar := by
  refine opAgrees_of_bigInt (evaluate_countStar hcall) rfl id fun batch hbatch => ?_
  rw [vectorValue, numRows_rowsToRecordBatch hbatch]

theorem count_agrees_modes (h : TypedColumn ctx.table schema rows column type)
    (hcall : parseAggregateOp ctx call = some (.count column)) :
    OpAgrees ctx schema seen rows call (.count column) := by
  refine opAgrees_of_bigInt (evaluate_count hcall) ?_ id fun batch hbatch => ?_
  · rw [fastValue, FastAccumulator.value, fast_count]
    exact congrArg Value.bigInt (Int64.zero_add _)
  · change Value.bigInt (validCount (batch.columns[column]?.getD (.other []))) = _
    rw [h.array batch hbatch, validCount_typedArray h.vals]
    rfl

/-! ## The best value -/

theorem extreme_agrees_iff {sign : Int} {betterInt : Int64 → Int64 → Bool} {worstInt : Int64}
    {betterF64 : UInt64 → UInt64 → Bool} {worstF64 : UInt64} {better : Value → Value → Bool}
    {ofFloats : List UInt64 → UInt64} (hextreme : Extreme sign betterInt worstInt betterF64 worstF64 better)
    (hnumber : ∀ i, f64IsNan (Crates.i64ToF64 i) = false)
    (hdecimal : ∀ p s, type = .decimal p s → DecimalsReadable)
    (h : TypedColumn ctx.table schema rows column type)
    (hinput : op.NoInput rows ↔ columnValues rows column = [])
    (heval : evaluateAggregateExpr ctx seen rows call = .ok (bestValue better (columnValues rows column)))
    (hfast : fastValue op rows = bestValue better (columnValues rows column))
    (hvector : ∀ batch, vectorValue batch op =
      ((vectorExtreme betterInt ofFloats (batch.columns[column]?.getD (.other []))).map
        Value.double).getD .null) :
    OpAgrees ctx schema seen rows call op ↔ columnValues rows column = [] ∨
      columnType ctx.table column = some .integer ∨ columnType ctx.table column = some .bigInt ∨
      ¬MakesBatch schema rows := by
  have hother : type ≠ .integer → type ≠ .bigInt → ∀ batch, rowsToRecordBatch schema rows = .ok batch →
      vectorValue batch op = .null := by
    intro hinteger hbigInt batch hbatch
    rw [hvector, h.array batch hbatch]
    cases type <;> first | rfl | exact absurd rfl hinteger | exact absurd rfl hbigInt
  cases hvals : columnValues rows column with
  | nil =>
    rw [hvals] at heval hfast hinput
    have hnull : Value.null.isNull = true ↔ op.NoInput rows := iff_of_true rfl (hinput.mpr rfl)
    refine iff_of_true ⟨.null, heval, hnull, ?_, ?_, fun batch hbatch => ?_⟩ (.inl rfl)
    · rw [hfast]
      rfl
    · rw [hfast]
      exact hnull
    · have hnone : vectorValue batch op = .null := by
        by_cases htype : type = .integer ∨ type = .bigInt
        · rw [hvector, h.array batch hbatch, vectorExtreme_typedArray htype h.vals,
            show present (rows.map (columnValue column)) = [] from hvals]
          rfl
        · exact hother (fun heq => htype (.inl heq)) (fun heq => htype (.inr heq)) batch hbatch
      rw [hfast, hnone]
      exact ⟨rfl, rfl, hnull⟩
  | cons v rest =>
    rw [hvals] at heval hfast hinput
    have hmem : ∀ w ∈ v :: rest, type.holds w = true ∧ w.isNull = false := by
      intro w hw
      rw [← hvals] at hw
      exact h.mem hw
    obtain ⟨hholds, hnull⟩ := hmem _ (bestOf_mem better rest v)
    have hinput : ¬op.NoInput rows := fun hno => cons_ne_nil _ _ (hinput.mp hno)
    have hvalue : ∀ w : Value, w.isNull = false → (w.isNull = true ↔ op.NoInput rows) := fun w hw =>
      iff_of_false (by rw [hw]; exact Bool.false_ne_true) hinput
    have hself := Value.eq_self_of_isCompared hdecimal h.compared hholds
    rw [h.ofType, some_inj, some_inj]
    constructor
    · rintro ⟨_, -, -, -, -, hbatch⟩
      refine .inr ?_
      by_cases hinteger : type = .integer
      · exact .inl hinteger
      by_cases hbigInt : type = .bigInt
      · exact .inr (.inl hbigInt)
      refine .inr (.inr ?_)
      rintro ⟨batch, hmade⟩
      have hno := (hbatch batch hmade).2.2
      rw [hother hinteger hbigInt batch hmade] at hno
      exact hinput (hno.mp rfl)
    · intro hcases
      refine ⟨bestOf better v rest, heval, hvalue _ hnull, ?_, ?_, fun batch hmade => ?_⟩
      · rw [hfast]
        exact hself
      · rw [hfast]
        exact hvalue _ hnull
      · have htype : type = .integer ∨ type = .bigInt := by
          rcases hcases with hnil | htype | htype | hunmade
          · cases hnil
          · exact .inl htype
          · exact .inr htype
          · exact absurd ⟨batch, hmade⟩ hunmade
        have hint : type.isInteger = true := by
          rcases htype with rfl | rfl <;> rfl
        have hbest : (bestOf better v rest).int64 = bestOf betterInt v.int64 (rest.map Value.int64) := by
          refine map_bestOf rest v fun x hx y hy => Bool.eq_iff_iff.mpr ?_
          rw [hextreme.int, Value.toInt_int64 htype (hmem x hx).1, Value.toInt_int64 htype (hmem y hy).1]
          exact hextreme.value x y _ _
            (Value.partialCmp_of_isInteger hint (hmem x hx).1 (hmem y hy).1 (hmem x hx).2
            (hmem y hy).2)
        have hanswer : vectorValue batch op = .double (Crates.i64ToF64 (bestOf better v rest).int64) := by
          rw [hvector, h.array batch hmade, vectorExtreme_typedArray htype h.vals,
            show present (rows.map (columnValue column)) = v :: rest from hvals, hbest]
          rfl
        obtain ⟨heq, heq'⟩ := Value.eq_double hnumber htype hholds hnull
        rw [hfast, hanswer]
        exact ⟨heq', heq, hvalue _ rfl⟩

theorem vectorValue_sum (hexact : ExactIntegers) (h : TypedColumn ctx.table schema rows column type)
    (hfew : rows.length < 2 ^ 63) {k : Int64} (hk : Small k.toInt) (hvals : columnValues rows column ≠ [])
    (hsum : vectorSum (typedArray type (rows.map (columnValue column))) = some (Crates.i64ToF64 k))
    {batch : RecordBatch} (hbatch : rowsToRecordBatch schema rows = .ok batch) :
    vectorValue batch (.sum column) = .double (Crates.i64ToF64 k) := by
  have hcount : validCount (typedArray type (rows.map (columnValue column))) ≠ 0 := by
    rw [validCount_typedArray h.vals]
    exact ofNat_count_ne_zero hfew hvals
  rw [vectorValue]
  simp only [h.array batch hbatch, hsum]
  rw [if_neg hcount, f64Add_zero hexact hk]

theorem sum_agrees_of_nil (h : TypedColumn ctx.table schema rows column type)
    (heval : evaluateAggregateExpr ctx seen rows call = .ok .null) (hvals : columnValues rows column = []) :
    OpAgrees ctx schema seen rows call (.sum column) := by
  have hnull : Value.null.isNull = true ↔ VectorAggregateOp.NoInput rows (.sum column) :=
    iff_of_true rfl hvals
  have hfast : fastValue (.sum column) rows = .null := by
    refine fastValue_sum_of_skipped fun row hrow acc => ?_
    have hrow : (columnValue column row).isNull = true := by
      by_contra hne
      exact filter_eq_nil_iff.mp hvals _ (mem_map_of_mem hrow) (by simpa using hne)
    cases hvalue : columnValue column row <;> rw [hvalue] at hrow <;> cases hrow
    rfl
  refine ⟨.null, heval, hnull, ?_, ?_, fun batch hbatch => ?_⟩
  · rw [hfast]
    rfl
  · rw [hfast]
    exact hnull
  · have hcount : validCount (typedArray type (rows.map (columnValue column))) = 0 := by
      rw [validCount_typedArray h.vals, show present (rows.map (columnValue column)) = [] from hvals]
      rfl
    have hvector : vectorValue batch (.sum column) = .null := by
      rw [vectorValue]
      simp only [h.array batch hbatch, hcount, if_true]
      cases vectorSum (typedArray type (rows.map (columnValue column))) <;> rfl
    rw [hfast, hvector]
    exact ⟨rfl, rfl, hnull⟩

theorem sum_agrees_of_number (hnumber : ∀ i, f64IsNan (Crates.i64ToF64 i) = false)
    (htype : type = .integer ∨ type = .bigInt) {s : Value} {k : Int64} (hs : type.holds s = true)
    (hnull : s.isNull = false) (hk : k.toInt = s.int)
    (heval : evaluateAggregateExpr ctx seen rows call = .ok s) (hvals : columnValues rows column ≠ [])
    (hfast : fastValue (.sum column) rows = .bigInt k)
    (hvector : ∀ batch, rowsToRecordBatch schema rows = .ok batch →
      vectorValue batch (.sum column) = .double (Crates.i64ToF64 k)) :
    OpAgrees ctx schema seen rows call (.sum column) := by
  have hint : type.isInteger = true := by
    rcases htype with rfl | rfl <;> rfl
  have hsame : s.int64 = k := Int64.toInt_inj.mp ((Value.toInt_int64 htype hs).trans hk.symm)
  have hvalue : ∀ w : Value, w.isNull = false →
      (w.isNull = true ↔ VectorAggregateOp.NoInput rows (.sum column)) :=
    fun w hw => iff_of_false (by rw [hw]; exact Bool.false_ne_true) hvals
  refine ⟨s, heval, hvalue s hnull, ?_, ?_, fun batch hbatch => ?_⟩
  · rw [hfast]
    exact Value.bigInt_eq hint hs hnull hk
  · rw [hfast]
    exact hvalue _ rfl
  · have heq := (Value.eq_double hnumber htype hs hnull).2
    have heq' := (@Value.eq_double .bigInt _ hnumber (.inr rfl) (.bigInt k) rfl rfl).1
    rw [hsame] at heq
    rw [hfast, hvector batch hbatch]
    exact ⟨heq, heq', hvalue _ rfl⟩

/-- The sum of an `INTEGER` column has to be an `INTEGER`; that of a `SMALLINT` column is none of a batch,
and that of a `TINYINT` column none of the loop. -/
theorem sum_agrees_iff_of_some (hexact : ExactIntegers) (hnumber : ∀ i, f64IsNan (Crates.i64ToF64 i) = false)
    (h : TypedColumn ctx.table schema rows column type) (htype : type.isInteger = true)
    (hfew : rows.length < 2 ^ 63)
    (hsums : SmallSums 0 (columnInts rows column)) (hvals : columnValues rows column ≠ []) {s : Value}
    (heval : evaluateAggregateExpr ctx seen rows call = .ok s)
    (hsum : SumOf type (columnInts rows column).sum s) :
    OpAgrees ctx schema seen rows call (.sum column) ↔
      VectorAggregateOp.Known ctx.table schema rows (.sum column) := by
  have hsmall : Small (columnInts rows column).sum := zero_add (columnInts rows column).sum ▸ hsums.total
  have hnull : ¬(Value.null.isNull = true ↔ VectorAggregateOp.NoInput rows (.sum column)) :=
    fun hiff => hvals (hiff.mp rfl)
  have hvalue : ∀ w : Value, w.isNull = false →
      (w.isNull = true ↔ VectorAggregateOp.NoInput rows (.sum column)) :=
    fun w hw => iff_of_false (by rw [hw]; exact Bool.false_ne_true) hvals
  simp only [VectorAggregateOp.Known, h.ofType, hvals, false_or, some_inj]
  cases type <;> cases htype
  case tinyInt =>
    have hfast : fastValue (.sum column) rows = .null := by
      refine fastValue_sum_of_skipped fun row hrow acc => ?_
      have hholds := h.holds row hrow
      cases hvalue : columnValue column row <;> rw [hvalue] at hholds <;> cases hholds <;> rfl
    refine iff_of_false ?_ (by simp)
    rintro ⟨_, -, -, -, hfastNull, -⟩
    rw [hfast] at hfastNull
    exact hnull hfastNull
  case smallInt =>
    obtain ⟨k, hfast, hk⟩ := fastValue_sum rfl (by simp) h.holds hfew hsums hvals
    constructor
    · rintro ⟨_, -, -, -, -, hbatch⟩
      refine .inr (.inr ⟨rfl, ?_⟩)
      rintro ⟨batch, hmade⟩
      have hvector : vectorValue batch (.sum column) = .null := by
        rw [vectorValue]
        simp only [h.array batch hmade]
        rfl
      have hno := (hbatch batch hmade).2.2
      rw [hvector] at hno
      exact hnull hno
    · intro hcases
      have hunmade : ¬MakesBatch schema rows := by simpa using hcases
      refine ⟨s, heval, hvalue s (isNull_of_sumOf rfl hsum), ?_, ?_,
        fun batch hmade => absurd ⟨batch, hmade⟩ hunmade⟩
      · rw [hfast]
        exact bigInt_eq_of_sumOf hexact rfl hsum hsmall (fun heq => by cases heq) hk
      · rw [hfast]
        exact hvalue _ rfl
  case integer =>
    obtain ⟨k, hfast, hk⟩ := fastValue_sum rfl (by simp) h.holds hfew hsums hvals
    obtain ⟨i, rfl, hi⟩ := hsum
    constructor
    · rintro ⟨v, hv, -, heq, -, -⟩
      obtain rfl := Except.ok.inj (heval.symm.trans hv)
      rw [hfast] at heq
      have hsame : k = i.toInt64 := eq_of_beq heq
      have hint : (columnInts rows column).sum = i.toInt := by
        rw [← hk, hsame, Int32.toInt_toInt64]
      refine .inr (.inl ⟨rfl, ?_, ?_⟩)
      · rw [hint]
        exact Int32.le_toInt i
      · rw [hint]
        exact Int32.toInt_lt i
    · intro hcases
      obtain ⟨hlow, hhigh⟩ :
          -2 ^ 31 ≤ (columnInts rows column).sum ∧ (columnInts rows column).sum < 2 ^ 31 := by
        simpa using hcases
      have hbmod : (columnInts rows column).sum.bmod (2 ^ 32) = (columnInts rows column).sum := by
        rw [Int.bmod_eq_of_le] <;> norm_num at * <;> omega
      rw [hbmod] at hi
      have hs : k.toInt = (Value.integer i).int := hk.trans hi.symm
      refine sum_agrees_of_number hnumber (.inl rfl) rfl rfl hs heval hvals hfast fun batch hbatch => ?_
      obtain ⟨j, hj, hjint⟩ := vectorSum_integer h.vals hvals
      have hsame : j.toInt64 = k := Int64.toInt_inj.mp (by
        rw [Int32.toInt_toInt64, hjint, hk]
        exact hbmod)
      rw [hsame] at hj
      exact vectorValue_sum hexact h hfew (hk ▸ hsmall) hvals hj hbatch
  case bigInt =>
    obtain ⟨k, hfast, hk⟩ := fastValue_sum rfl (by simp) h.holds hfew hsums hvals
    obtain ⟨i, rfl, hi⟩ := hsum
    refine iff_of_true ?_ (.inl rfl)
    have hs : k.toInt = (Value.bigInt i).int := hk.trans hi.symm
    refine sum_agrees_of_number hnumber (.inr rfl) rfl rfl hs heval hvals hfast fun batch hbatch => ?_
    obtain ⟨j, hj, hjint⟩ := vectorSum_bigInt h.vals hvals hsmall
    obtain rfl : j = k := Int64.toInt_inj.mp (hjint.trans hk.symm)
    exact vectorValue_sum hexact h hfew (hk ▸ hsmall) hvals hj hbatch

theorem sum_agrees_iff (hexact : ExactIntegers) (hnumber : ∀ i, f64IsNan (Crates.i64ToF64 i) = false)
    (h : TypedColumn ctx.table schema rows column type) (htype : type.isInteger = true)
    (hfew : rows.length < 2 ^ 63)
    (hsums : SmallSums 0 (columnInts rows column)) (hcall : parseAggregateOp ctx call = some (.sum column)) :
    OpAgrees ctx schema seen rows call (.sum column) ↔
      VectorAggregateOp.Known ctx.table schema rows (.sum column) := by
  obtain ⟨s, heval, hnil, hcons⟩ := evaluate_sum hexact hcall htype h.holds hsums
  by_cases hvals : columnValues rows column = []
  · rw [hnil hvals] at heval
    exact iff_of_true (sum_agrees_of_nil h heval hvals) (.inl hvals)
  · exact sum_agrees_iff_of_some hexact hnumber h htype hfew hsums hvals heval (hcons hvals)

/-- The modes agree on a projection if they know the types of its columns. -/
theorem modesAgree_iff_known {projection : List (FunctionCall × String)} {names : List String}
    (hnumber : ∀ i, f64IsNan (Crates.i64ToF64 i) = false)
    (hexact : ∀ column, .sum column ∈ ops → ExactIntegers)
    (hdecimal : ∀ column p s, columnType ctx.table column = some (.decimal p s) → DecimalsReadable)
    (hops : parseAggregateOps ctx (projection.map fun p => .function p.1 p.2) = some (names, ops))
    (h : Comparable ctx schema rows ops) :
    ModesAgree ctx schema seen rows (projection.map Prod.fst) ops ↔
      ∀ op ∈ ops, op.Known ctx.table schema rows := by
  refine modesAgree_iff (forall₂_iff_get.mpr ?_)
  obtain ⟨hlength, hget⟩ := forall₂_iff_get.mp (parseAggregateOps_calls hops)
  refine ⟨hlength, fun i hi hi' => ?_⟩
  have hcall := hget i hi hi'
  have hop : ops.get ⟨i, hi'⟩ ∈ ops := get_mem _ _
  generalize ops.get ⟨i, hi'⟩ = op at hcall hop ⊢
  cases op with
  | countStar => exact iff_of_true (countStar_agrees hcall) trivial
  | count column =>
    obtain ⟨type, htype⟩ := h.typedColumn hdecimal hop rfl
    exact iff_of_true (count_agrees_modes htype hcall) trivial
  | avg column => exact absurd hop (h.avg column)
  | sum column =>
    obtain ⟨type, htype⟩ := h.typedColumn hdecimal hop rfl
    obtain ⟨hinteger, hsums⟩ := h.sums column hop
    exact sum_agrees_iff (hexact column hop) hnumber htype (hinteger type htype.ofType) h.few hsums hcall
  | min column =>
    obtain ⟨type, htype⟩ := h.typedColumn hdecimal hop rfl
    exact extreme_agrees_iff extreme_min hnumber
      (fun p s hps => hdecimal column p s (hps ▸ htype.ofType)) htype Iff.rfl
      (evaluate_min hcall) fastValue_min fun _ => rfl
  | max column =>
    obtain ⟨type, htype⟩ := h.typedColumn hdecimal hop rfl
    exact extreme_agrees_iff extreme_max hnumber
      (fun p s hps => hdecimal column p s (hps ▸ htype.ofType)) htype Iff.rfl
      (evaluate_max hcall) fastValue_max fun _ => rfl

end

/-! ## A column of small integers -/

@[reducible] def plainArrow : Arrow where
  decimalError _ _ := none
  typesError := ""
  nullError _ := ""
  sum _ := 0
  min _ := 0
  max _ := 0

attribute [local instance] plainCrates plainArithmetic plainArrow

def oneColumn (type : DataType) : TableDef := .new "t" [⟨"a", type, none, none⟩]

/-- The sum of one `TINYINT` is NULL along the rows. -/
theorem sum_of_tinyInt_lost :
    ¬∀ (ctx : RowContext) (schema : List VectorColumn) (seen : Visible) (rows : List Row)
      (projection : List (FunctionCall × String)) (names : List String) (ops : List VectorAggregateOp),
      parseAggregateOps ctx (projection.map fun p => .function p.1 p.2) = some (names, ops) →
      Comparable ctx schema rows ops → ModesAgree ctx schema seen rows (projection.map Prod.fst) ops := by
  intro h
  obtain ⟨row, hrow, -, heq, -⟩ := h (columnsOf (oneColumn .tinyInt)) [⟨"a", .tinyInt, true⟩] View.empty.seen
    [[.tinyInt 1]] [callOf "SUM" "a"] ["SUM"] [.sum 0] (by rfl) {
      types := rfl
      few := by decide
      avg := by simp
      typed := by
        intro op hop column hcolumn
        obtain rfl := mem_singleton.mp hop
        obtain rfl := Option.some.inj hcolumn
        refine ⟨.tinyInt, rfl, rfl, fun row hrow => ?_⟩
        obtain rfl := mem_singleton.mp hrow
        rfl
      sums := by
        intro column hcolumn
        obtain rfl : column = 0 := by simpa using hcolumn
        refine ⟨fun type htype => ?_, ⟨by decide, by decide⟩, by decide, by decide⟩
        obtain rfl := Option.some.inj htype
        rfl }
  obtain rfl := Except.ok.inj ((show evaluateAggregates (columnsOf (oneColumn .tinyInt)) View.empty.seen
    [[.tinyInt 1]] [(callOf "SUM" "a").1] = .ok [.tinyInt 1] from rfl).symm.trans hrow)
  revert heq
  decide

/-- The least and the number of the values of an `INTEGER` column do not depend on the mode. -/
theorem modesAgree_integers :
    ModesAgree (columnsOf (oneColumn .integer))
      [⟨"a", .integer, true⟩] View.empty.seen [[.integer 0], [.null]]
      [(callOf "COUNT" "a").1, (callOf "MIN" "a").1] [.count 0, .min 0] := by
  refine (@modesAgree_iff_known _ _ _ _ _ _ _ _ [callOf "COUNT" "a", callOf "MIN" "a"] ["COUNT", "MIN"]
    (fun i => by rfl) (fun column hsum => ?_) (fun column p s htype => ?_) (by rfl) {
      types := rfl
      few := by decide
      avg := by simp
      typed := by
        intro op hop column hcolumn
        have hzero : column = 0 := by
          rcases mem_pair.mp hop with rfl | rfl <;> exact (Option.some.inj hcolumn).symm
        obtain rfl := hzero
        refine ⟨.integer, rfl, rfl, fun row hrow => ?_⟩
        rcases mem_pair.mp hrow with rfl | rfl <;> rfl
      sums := by simp }).mpr ?_
  · simp at hsum
  · rcases column with _ | column <;> cases htype
  · intro op hop
    rcases mem_pair.mp hop with rfl | rfl
    · exact trivial
    · exact Or.inr (Or.inl rfl)

end H2Database.Sql
