import H2Database.Sql.Pushdown

/-!
# Execution modes (`h2-sql/src/executor/mod.rs`, `h2-sql/src/vectorized/`)

Aggregates without groups are computed along the rows, or in the mode `vectorized` on an Arrow batch of
them.  Both stand in for `evaluate_aggregate_expr`.  Arrow is another crate: what it refuses, and what it
computes of floating-point numbers, are parameters.
-/

namespace H2Database.Sql

open Reasoning List

/-- Of a precision and a scale of decimals, of the types of a batch and of a NULL in a column, what Arrow
objects; and the sum, the least and the greatest of floating-point numbers. -/
class Arrow where
  decimalError : UInt8 → UInt8 → Option String
  typesError : String
  nullError : String → String
  sum : List UInt64 → UInt64
  min : List UInt64 → UInt64
  max : List UInt64 → UInt64

def saturatingAddI64 (a b : Int64) : Int64 :=
  if a.toInt + b.toInt < -2 ^ 63 then Int64.minValue
  else if 2 ^ 63 ≤ a.toInt + b.toInt then Int64.maxValue
  else a + b

section

variable [Crates] [Arithmetic]

structure FastAccumulator where
  sum : UInt64 := 0
  count : Int64 := 0
  min : Option Value := none
  max : Option Value := none
  isIntegral : Bool := true
  intSum : Int64 := 0

namespace FastAccumulator

def addInteger (acc : FastAccumulator) (i : Int64) : FastAccumulator :=
  { acc with
    intSum := saturatingAddI64 acc.intSum i
    sum := Arithmetic.f64Add acc.sum (Crates.i64ToF64 i)
    count := acc.count + 1 }

def addFloat (acc : FastAccumulator) (f : UInt64) : FastAccumulator :=
  { acc with isIntegral := false, sum := Arithmetic.f64Add acc.sum f, count := acc.count + 1 }

/-- There is no branch for a `TINYINT`. -/
def addNumber (acc : FastAccumulator) : Value → FastAccumulator
  | .smallInt i => acc.addInteger i.toInt64
  | .integer i => acc.addInteger i.toInt64
  | .bigInt i => acc.addInteger i
  | .float f => acc.addFloat (Crates.f32ToF64 f)
  | .double d => acc.addFloat d
  | .decimal d => match Crates.decimalToF64 d with
    | some n => acc.addFloat n
    | none => { acc with isIntegral := false }
  | _ => acc

def add (op : VectorAggregateOp) (acc : FastAccumulator) (row : Row) : FastAccumulator :=
  match op with
  | .countStar => acc
  | .count column => if (columnValue column row).isNull then acc else { acc with count := acc.count + 1 }
  | .sum column | .avg column => acc.addNumber (columnValue column row)
  | .min column =>
    let v := columnValue column row
    if v.isNull then acc
    else { acc with min := some ((acc.min.map fun curr => if v.lt curr then v else curr).getD v) }
  | .max column =>
    let v := columnValue column row
    if v.isNull then acc
    else { acc with max := some ((acc.max.map fun curr => if v.gt curr then v else curr).getD v) }

def value (op : VectorAggregateOp) (acc : FastAccumulator) (countStar : Int64) : Value :=
  match op with
  | .countStar => .bigInt countStar
  | .count _ => .bigInt acc.count
  | .sum _ => if acc.count = 0 then .null else if acc.isIntegral then .bigInt acc.intSum else .double acc.sum
  | .avg _ =>
    if acc.count = 0 then .null else .double (Arithmetic.f64Div acc.sum (Crates.i64ToF64 acc.count))
  | .min _ => acc.min.getD .null
  | .max _ => acc.max.getD .null

end FastAccumulator

def fastRow (accs : List (VectorAggregateOp × FastAccumulator)) (row : Row) :
    List (VectorAggregateOp × FastAccumulator) :=
  accs.map fun p => (p.1, p.2.add p.1 row)

def executeFastRowAggregate (ops : List VectorAggregateOp) (filteredRows : List Row) : Row :=
  (filteredRows.foldl fastRow (ops.map fun op => (op, {}))).map fun p =>
    p.2.value p.1 (Int64.ofNat filteredRows.length)

/-! ## Batches -/

/-- The arrays that the aggregates know; of another one they ask which values there are. -/
inductive ArrowArray where
  | int32 (values : List (Option Int32))
  | int64 (values : List (Option Int64))
  | float64 (values : List (Option UInt64))
  | other (valid : List Bool)

structure RecordBatch where
  numRows : Nat
  columns : List ArrowArray

structure VectorColumn where
  name : String
  dataType : DataType
  isNullable : Bool

def appendValues {α : Type} (take : Value → Option α) (expected : String) (vals : List Value) :
    H2Result (List (Option α)) :=
  vals.mapM fun v =>
    if v.isNull then .ok none
    else match take v with
      | some a => .ok (some a)
      | none => .error (.typeError s!"Expected {expected}, got {Crates.debug v}")

def appendValid (take : Value → Bool) (expected : String) (vals : List Value) : H2Result ArrowArray :=
  (appendValues (fun v => if take v then some () else none) expected vals).map fun a =>
    .other (a.map Option.isSome)

variable [Arrow]

/-- The array of a column.  Of decimals the texts are read as floating-point numbers; a `TIME` is written
to an array of texts, which is not that of its type. -/
def columnArray (type : DataType) (vals : List Value) : H2Result ArrowArray :=
  match type with
  | .boolean => appendValid (fun v => DataType.boolean.holds v) "bool" vals
  | .tinyInt => appendValid (fun v => DataType.tinyInt.holds v) "i8" vals
  | .smallInt => appendValid (fun v => DataType.smallInt.holds v) "i16" vals
  | .integer => (appendValues (fun v => match v with | .integer i => some i | _ => none) "i32" vals).map
      .int32
  | .bigInt => (appendValues (fun v => match v with | .bigInt i => some i | _ => none) "i64" vals).map .int64
  | .float => appendValid (fun v => DataType.float.holds v) "f32" vals
  | .double => (appendValues (fun v => match v with | .double d => some d | _ => none) "f64" vals).map
      .float64
  | .decimal p s => match Arrow.decimalError p s with
    | some e => .error (.execution s!"Decimal128Builder error: {e}")
    | none =>
      (appendValues (fun v => match v with
        | .decimal d => some (Crates.parseF64 (Crates.display (.decimal d))).isSome
        | _ => none) "Decimal" vals).map fun a => .other (a.map fun valid => valid.getD false)
  | .binary _ | .blob => appendValid (fun v => match v with | .bytes _ => true | _ => false) "bytes" vals
  | .date => appendValid (fun v => DataType.date.holds v) "Date" vals
  | .timestamp | .timestampTz => appendValid (fun v => DataType.timestamp.holds v) "Timestamp" vals
  | .time => .error (.execution s!"Failed to build RecordBatch: {Arrow.typesError}")
  | .char _ | .varChar _ | .uuid | .json | .interval | .array _ => .ok (.other (vals.map fun v => !v.isNull))

def ArrowArray.valid : ArrowArray → List Bool
  | .int32 values => values.map Option.isSome
  | .int64 values => values.map Option.isSome
  | .float64 values => values.map Option.isSome
  | .other valid => valid

def emptyArray : DataType → ArrowArray
  | .integer => .int32 []
  | .bigInt => .int64 []
  | .double => .float64 []
  | _ => .other []

/-- The arrays of the columns from the number `i` on; where a column may not be NULL no value may be
missing. -/
def columnArrays (rows : List Row) : Nat → List VectorColumn → H2Result (List ArrowArray)
  | _, [] => .ok []
  | i, c :: cs => do
    let array ← columnArray c.dataType (rows.map (columnValue i))
    let arrays ← columnArrays rows (i + 1) cs
    if !c.isNullable && array.valid.any (!·) then
      .error (.execution s!"Failed to build RecordBatch: {Arrow.nullError c.name}")
    else .ok (array :: arrays)

def rowsToRecordBatch (schema : List VectorColumn) (rows : List Row) : H2Result RecordBatch :=
  if rows.isEmpty then .ok ⟨0, schema.map fun c => emptyArray c.dataType⟩
  else (columnArrays rows 0 schema).map fun arrays => ⟨rows.length, arrays⟩

/-! ## Aggregates of a batch -/

def validCount (array : ArrowArray) : Int64 := Int64.ofNat (array.valid.countP id)

/-- Integers are added as they wrap around.  A `DOUBLE` of the sum, unless there is nothing to add; nor is
there in an array of another type. -/
def vectorSum (array : ArrowArray) : Option UInt64 :=
  match array with
  | .int32 values =>
    if values.any Option.isSome then some
      (Crates.i64ToF64 ((values.reduceOption.foldl (· + ·) 0).toInt64)) else none
  | .int64 values =>
    if values.any Option.isSome then some (Crates.i64ToF64 (values.reduceOption.foldl (· + ·) 0)) else none
  | .float64 values => if values.any Option.isSome then some (Arrow.sum values.reduceOption) else none
  | .other _ => none

/-- The best integer, as a `DOUBLE`. -/
def vectorExtreme (better : Int64 → Int64 → Bool) (ofFloats : List UInt64 → UInt64) (array : ArrowArray) :
    Option UInt64 :=
  let best (is : List Int64) : Option Int64 := match is with
    | [] => none
    | i :: is => some (bestOf better i is)
  match array with
  | .int32 values => (best (values.reduceOption.map Int32.toInt64)).map Crates.i64ToF64
  | .int64 values => (best values.reduceOption).map Crates.i64ToF64
  | .float64 values => if values.any Option.isSome then some (ofFloats values.reduceOption) else none
  | .other _ => none

/-- One operation on the only batch of the operator.  The column of an operation is one of the batch. -/
def vectorValue (batch : RecordBatch) (op : VectorAggregateOp) : Value :=
  let array column := batch.columns[column]?.getD (.other [])
  match op with
  | .countStar => .bigInt (Int64.ofNat batch.numRows)
  | .count column => .bigInt (validCount (array column))
  | .sum column => match vectorSum (array column) with
    | some s => if validCount (array column) = 0 then .null else .double (Arithmetic.f64Add 0 s)
    | none => .null
  | .avg column => match vectorSum (array column) with
    | some s =>
      if validCount (array column) = 0 then .null
      else .double (Arithmetic.f64Div (Arithmetic.f64Add 0 s) (Crates.i64ToF64 (validCount (array column))))
    | none => .null
  | .min column =>
    ((vectorExtreme (fun a b => decide (a < b)) Arrow.min (array column)).map Value.double).getD .null
  | .max column =>
    ((vectorExtreme (fun a b => decide (b < a)) Arrow.max (array column)).map Value.double).getD .null

/-- `VectorizedAggregate::execute_aggregate`. -/
def executeAggregate (batch : RecordBatch) (ops : List VectorAggregateOp) : Row := ops.map (vectorValue batch)

end

/-! ## What the loop over the rows computes -/

section

variable {rows : List Row} {column : Nat} {type : DataType}

def columnValues (rows : List Row) (column : Nat) : List Value := present (rows.map (columnValue column))

theorem columnValues_cons_of_null {row : Row} (h : (columnValue column row).isNull = true) :
    columnValues (row :: rows) column = columnValues rows column := present_cons_of_null h _

theorem columnValues_cons_of_value {row : Row} (h : (columnValue column row).isNull = false) :
    columnValues (row :: rows) column = columnValue column row :: columnValues rows column :=
  present_cons_of_value h _

theorem isNull_of_mem_columnValues {v : Value} (h : v ∈ columnValues rows column) : v.isNull = false := by
  simpa using (mem_filter.mp h).2

theorem toInt_saturatingAddI64 {i j : Int64} (h : Small (i.toInt + j.toInt)) :
    (saturatingAddI64 i j).toInt = i.toInt + j.toInt := by
  have hlow := h.1
  have hhigh := h.2
  norm_num at hlow hhigh
  rw [saturatingAddI64, if_neg (by omega), if_neg (by omega)]
  exact toInt_add_of_small h

theorem mem_columnValues (hrows : ∀ row ∈ rows, type.holds (columnValue column row) = true) {v : Value}
    (hv : v ∈ columnValues rows column) : type.holds v = true ∧ v.isNull = false := by
  refine ⟨?_, isNull_of_mem_columnValues hv⟩
  obtain ⟨row, hrow, rfl⟩ := mem_map.mp (mem_filter.mp hv).1
  exact hrows row hrow

variable [Crates] [Arithmetic]

def fastValue (op : VectorAggregateOp) (rows : List Row) : Value :=
  (rows.foldl (FastAccumulator.add op) {}).value op (Int64.ofNat rows.length)

theorem foldl_fastRow (rows : List Row) (accs : List (VectorAggregateOp × FastAccumulator)) :
    rows.foldl fastRow accs = accs.map fun p => (p.1, rows.foldl (FastAccumulator.add p.1) p.2) := by
  induction rows generalizing accs with
  | nil => exact (map_id _).symm
  | cons row rows ih =>
    rw [foldl_cons, ih, fastRow, map_map]
    rfl

theorem executeFastRowAggregate_eq (ops : List VectorAggregateOp) (rows : List Row) :
    executeFastRowAggregate ops rows = ops.map fun op => fastValue op rows := by
  rw [executeFastRowAggregate, foldl_fastRow, map_map, map_map]
  rfl

theorem fast_count (acc : FastAccumulator) : (rows.foldl (FastAccumulator.add (.count column)) acc).count =
    acc.count + Int64.ofNat (columnValues rows column).length := by
  induction rows generalizing acc with
  | nil => exact (Int64.add_zero _).symm
  | cons row rows ih =>
    rw [foldl_cons, ih, FastAccumulator.add]
    cases hv : (columnValue column row).isNull with
    | true => rw [columnValues_cons_of_null hv, if_pos rfl]
    | false =>
      rw [columnValues_cons_of_value hv, if_neg Bool.false_ne_true, length_cons, Int64.ofNat_add,
        Int64.add_assoc, Int64.add_comm 1]
      rfl

theorem fast_extreme {better : Value → Value → Bool} {op : VectorAggregateOp}
    {get : FastAccumulator → Option Value}
    (hadd : ∀ acc row, get (FastAccumulator.add op acc row) = if (columnValue column row).isNull then get acc
      else some (((get acc).map fun curr =>
        if better (columnValue column row) curr then columnValue column row
        else curr).getD (columnValue column row)))
    (acc : FastAccumulator) : (rows.map (columnValue column)).foldlM (extremeStep better) (get acc) =
      .ok (get (rows.foldl (FastAccumulator.add op) acc)) := by
  induction rows generalizing acc with
  | nil => rfl
  | cons row rows ih =>
    rw [map_cons, foldlM_cons, foldl_cons, ← ih, hadd]
    unfold extremeStep
    cases get acc with
    | none => rfl
    | some curr =>
      rw [Option.map_some, Option.getD_some, apply_ite some]
      rfl

def bestValue (better : Value → Value → Bool) (vals : List Value) : Value :=
  match vals with
  | [] => .null
  | v :: rest => bestOf better v rest

theorem fastValue_min : fastValue (.min column) rows = bestValue Value.lt (columnValues rows column) := by
  have hfold := @fast_extreme rows column _ _ Value.lt (.min column) FastAccumulator.min
    (fun acc row => apply_ite FastAccumulator.min _ _ _) {}
  rw [foldlM_extremeStep] at hfold
  rw [fastValue, FastAccumulator.value, ← Except.ok.inj hfold, columnValues]
  cases present (rows.map (columnValue column)) <;> rfl

theorem fastValue_max : fastValue (.max column) rows = bestValue Value.gt (columnValues rows column) := by
  have hfold := @fast_extreme rows column _ _ Value.gt (.max column) FastAccumulator.max
    (fun acc row => apply_ite FastAccumulator.max _ _ _) {}
  rw [foldlM_extremeStep] at hfold
  rw [fastValue, FastAccumulator.value, ← Except.ok.inj hfold, columnValues]
  cases present (rows.map (columnValue column)) <;> rfl

theorem fast_sum (htype : type.isInteger = true) (hwide : type ≠ .tinyInt)
    (hrows : ∀ row ∈ rows, type.holds (columnValue column row) = true) (acc : FastAccumulator)
    (hsums : SmallSums acc.intSum.toInt ((columnValues rows column).map Value.int)) :
    ((rows.foldl (FastAccumulator.add (.sum column)) acc).intSum).toInt =
        acc.intSum.toInt + ((columnValues rows column).map Value.int).sum ∧
      (rows.foldl (FastAccumulator.add (.sum column)) acc).count =
        acc.count + Int64.ofNat (columnValues rows column).length ∧
      (rows.foldl (FastAccumulator.add (.sum column)) acc).isIntegral = acc.isIntegral := by
  induction rows generalizing acc with
  | nil => exact ⟨(add_zero _).symm, (Int64.add_zero _).symm, rfl⟩
  | cons row rows ih =>
    obtain ⟨hrow, hrows⟩ := forall_mem_cons.mp hrows
    rw [foldl_cons]
    cases hv : (columnValue column row).isNull with
    | true =>
      rw [columnValues_cons_of_null hv] at hsums ⊢
      have hsame : FastAccumulator.add (.sum column) acc row = acc := by
        rw [FastAccumulator.add]
        cases hvalue : columnValue column row <;> rw [hvalue] at hv <;> cases hv
        rfl
      rw [hsame]
      exact ih hrows acc hsums
    | false =>
      rw [columnValues_cons_of_value hv, map_cons] at hsums
      rw [columnValues_cons_of_value hv, map_cons, sum_cons, length_cons]
      obtain ⟨i, hi, hadd⟩ : ∃ i : Int64, i.toInt = (columnValue column row).int ∧
          FastAccumulator.add (.sum column) acc row = acc.addInteger i := by
        rw [FastAccumulator.add]
        cases type <;> cases htype <;> cases hvalue : columnValue column row <;> rw [hvalue] at hrow hv <;>
          cases hrow <;> cases hv
        · exact absurd rfl hwide
        · exact ⟨_, Int16.toInt_toInt64 _, rfl⟩
        · exact ⟨_, Int32.toInt_toInt64 _, rfl⟩
        · exact ⟨_, rfl, rfl⟩
      have hsmall : Small (acc.intSum.toInt + i.toInt) := by
        rw [hi]
        exact hsums.2.start
      have hint : (acc.addInteger i).intSum.toInt = acc.intSum.toInt + i.toInt :=
        toInt_saturatingAddI64 hsmall
      obtain ⟨hsum, hcount, hintegral⟩ := ih hrows (acc.addInteger i) (by
        rw [hint, hi]
        exact hsums.2)
      rw [hadd]
      refine ⟨?_, ?_, hintegral⟩
      · rw [hsum, hint, hi, add_assoc]
      · rw [hcount, Int64.ofNat_add, Int64.add_comm (Int64.ofNat _), ← Int64.add_assoc]
        rfl

end

/-! ## What the evaluation computes -/

section

variable {ctx : RowContext} {seen : Visible} {rows : List Row} {call : FunctionCall}
  {column : Nat} {type : DataType}

def VectorAggregateOp.callName : VectorAggregateOp → String
  | .countStar | .count _ => "COUNT"
  | .sum _ => "SUM"
  | .avg _ => "AVG"
  | .min _ => "MIN"
  | .max _ => "MAX"

theorem parseAggregateOp_column {op : VectorAggregateOp} (h : parseAggregateOp ctx call = some op)
    (hop : op.column = some column) : ∃ name, call.args = [.expr (.identifier name)] ∧
      ctx.resolveColumn none name = some column ∧ call.name = op.callName := by
  rcases parseAggregateOp_cases h with ⟨rfl, -, -⟩ | ⟨name, i, hargs, hcolumn, hopcolumn, hcases⟩
  · cases hop
  · obtain rfl : i = column := Option.some.inj (hopcolumn.symm.trans hop)
    refine ⟨name, hargs, hcolumn, ?_⟩
    rcases hcases with ⟨rfl, hname⟩ | ⟨rfl, hname⟩ | ⟨rfl, hname⟩ | ⟨rfl, hname⟩ |
      ⟨rfl, hname⟩ <;> exact hname

variable [Crates] [Arithmetic]

theorem evaluate_countStar (h : parseAggregateOp ctx call = some .countStar) :
    evaluateAggregateExpr ctx seen rows call = .ok (.bigInt (Int64.ofNat rows.length)) := by
  rcases parseAggregateOp_cases h with ⟨-, hname, hargs⟩ | ⟨name, i, hargs, hcolumn, hopcolumn, hcases⟩
  · unfold evaluateAggregateExpr
    rcases hargs with hargs | hargs <;> rw [hname, hargs] <;> rfl
  · cases hopcolumn

theorem evaluate_count (h : parseAggregateOp ctx call = some (.count column)) :
    evaluateAggregateExpr ctx seen rows call =
      .ok (.bigInt (Int64.ofNat (columnValues rows column).length)) := by
  obtain ⟨name, hargs, hcolumn, hname⟩ := parseAggregateOp_column h rfl
  unfold evaluateAggregateExpr
  rw [hname, hargs]
  change (foldValues ctx seen rows (.identifier name) 0 countStep).map Value.bigInt = _
  rw [foldValues_identifier hcolumn, foldlM_countStep, Int64.zero_add]
  rfl

theorem evaluate_min (h : parseAggregateOp ctx call = some (.min column)) :
    evaluateAggregateExpr ctx seen rows call = .ok (bestValue Value.lt (columnValues rows column)) := by
  obtain ⟨name, hargs, hcolumn, hname⟩ := parseAggregateOp_column h rfl
  unfold evaluateAggregateExpr
  rw [hname, hargs]
  change (foldValues ctx seen rows (.identifier name) none (extremeStep Value.lt)).map _ = _
  rw [foldValues_identifier hcolumn, foldlM_extremeStep, columnValues]
  cases present (rows.map (columnValue column)) <;> rfl

theorem evaluate_max (h : parseAggregateOp ctx call = some (.max column)) :
    evaluateAggregateExpr ctx seen rows call = .ok (bestValue Value.gt (columnValues rows column)) := by
  obtain ⟨name, hargs, hcolumn, hname⟩ := parseAggregateOp_column h rfl
  unfold evaluateAggregateExpr
  rw [hname, hargs]
  change (foldValues ctx seen rows (.identifier name) none (extremeStep Value.gt)).map _ = _
  rw [foldValues_identifier hcolumn, foldlM_extremeStep, columnValues]
  cases present (rows.map (columnValue column)) <;> rfl

theorem evaluate_sum (hexact : ExactIntegers) (h : parseAggregateOp ctx call = some (.sum column))
    (htype : type.isInteger = true) (hrows : ∀ row ∈ rows, type.holds (columnValue column row) = true)
    (hsums : SmallSums 0 ((columnValues rows column).map Value.int)) :
    ∃ s, evaluateAggregateExpr ctx seen rows call = .ok s ∧
      (columnValues rows column = [] → s = .null) ∧
      (columnValues rows column ≠ [] → SumOf type ((columnValues rows column).map Value.int).sum s) := by
  obtain ⟨name, hargs, hcolumn, hname⟩ := parseAggregateOp_column h rfl
  have heval : evaluateAggregateExpr ctx seen rows call =
      (foldValues ctx seen rows (.identifier name) none sumStep).map fun v => v.getD .null := by
    unfold evaluateAggregateExpr
    rw [hname, hargs]
    rfl
  rw [heval, foldValues_identifier hcolumn, foldlM_sumStep]
  have hmem := fun v => @mem_columnValues rows column type hrows v
  change ∃ s, Except.map (fun v => Option.getD v .null) (match columnValues rows column with
    | [] => Except.ok none
    | v :: rest => (rest.foldlM addValues v).map some) = .ok s ∧ _
  cases hvals : columnValues rows column with
  | nil => exact ⟨.null, rfl, fun _ => rfl, fun hne => absurd rfl hne⟩
  | cons v rest =>
    rw [hvals] at hsums hmem
    have hfirst := hmem v mem_cons_self
    obtain ⟨s, hs, hsum⟩ := @foldlM_addValues _ _ (SumOf type) rest
      (fun n acc hacc hn w hw hnext => sumOf_add hexact htype hacc hn (hmem w (mem_cons_of_mem _ hw)).1
        (hmem w (mem_cons_of_mem _ hw)).2 hnext)
      (0 + v.int) v hsums.2 ((zero_add v.int).symm ▸ sumOf_self htype hfirst.1 hfirst.2)
    refine ⟨s, ?_, fun hnil => absurd hnil (cons_ne_nil _ _), fun _ => ?_⟩
    · simp only [hs]
      rfl
    · rw [map_cons, sum_cons, ← zero_add v.int]
      exact hsum

end

/-! ## What a batch holds -/

section

variable {rows : List Row} {column : Nat} {type : DataType} {vals : List Value}

def DataType.isCompared : DataType → Bool
  | .tinyInt | .smallInt | .integer | .bigInt | .decimal _ _ | .varChar _ | .date => true
  | _ => false

def integerOf : Value → Option Int32
  | .integer i => some i
  | _ => none

def bigIntOf : Value → Option Int64
  | .bigInt i => some i
  | _ => none

def typedArray (type : DataType) (vals : List Value) : ArrowArray :=
  match type with
  | .integer => .int32 (vals.map integerOf)
  | .bigInt => .int64 (vals.map bigIntOf)
  | _ => .other (vals.map fun v => !v.isNull)

theorem valid_typedArray (hvals : ∀ v ∈ vals, type.holds v = true) :
    (typedArray type vals).valid = vals.map fun v => !v.isNull := by
  cases type
  case integer =>
    refine (map_map ..).trans (map_congr_left fun v hv => ?_)
    have hholds := hvals v hv
    cases v <;> cases hholds <;> rfl
  case bigInt =>
    refine (map_map ..).trans (map_congr_left fun v hv => ?_)
    have hholds := hvals v hv
    cases v <;> cases hholds <;> rfl
  all_goals rfl

theorem validCount_typedArray (hvals : ∀ v ∈ vals, type.holds v = true) :
    validCount (typedArray type vals) = Int64.ofNat (present vals).length := by
  rw [validCount, valid_typedArray hvals, countP_map, present, ← countP_eq_length_filter]
  rfl

variable [Crates]

theorem appendValues_eq {α : Type} {take : Value → Option α} (expected : String)
    (h : ∀ v ∈ vals, v.isNull = false → (take v).isSome = true) :
    appendValues take expected vals = .ok (vals.map fun v => if v.isNull then none else take v) := by
  induction vals with
  | nil => rfl
  | cons v vals ih =>
    obtain ⟨hv, hvals⟩ := forall_mem_cons.mp h
    rw [appendValues, mapM_cons]
    have hrest : vals.mapM (fun v => if v.isNull then (.ok none : H2Result (Option α))
        else match take v with
          | some a => .ok (some a)
          | none => .error (.typeError s!"Expected {expected}, got {Crates.debug v}")) = _ := ih hvals
    rw [hrest, map_cons]
    cases hnull : v.isNull with
    | true => rfl
    | false =>
      obtain ⟨a, ha⟩ := Option.isSome_iff_exists.mp (hv hnull)
      rw [ha]
      rfl

theorem appendValid_eq {take : Value → Bool} (expected : String)
    (h : ∀ v ∈ vals, v.isNull = false → take v = true) :
    appendValid take expected vals = .ok (.other (vals.map fun v => !v.isNull)) := by
  rw [appendValid, appendValues_eq expected fun v hv hnull => by rw [h v hv hnull]; rfl]
  refine congrArg (fun valid => Except.ok (ArrowArray.other valid)) ?_
  rw [map_map]
  refine map_congr_left fun v hv => ?_
  simp only [Function.comp_apply]
  cases hnull : v.isNull with
  | true => rfl
  | false =>
    rw [h v hv hnull]
    rfl

variable [Arrow]

structure DecimalsReadable : Prop where
  eq_self : ∀ d, Crates.decimalEq d d = true
  parsed : ∀ d, (Crates.parseF64 (Crates.display (.decimal d))).isSome = true

theorem columnArray_eq (hdecimal : ∀ p s, type = .decimal p s → DecimalsReadable)
    (htype : type.isCompared = true)
    (hvals : ∀ v ∈ vals, type.holds v = true) {array : ArrowArray} (h : columnArray type vals = .ok array) :
    array = typedArray type vals := by
  cases type <;> cases htype
  case tinyInt =>
    rw [columnArray, appendValid_eq _ fun v hv _ => hvals v hv] at h
    exact (Except.ok.inj h).symm
  case smallInt =>
    rw [columnArray, appendValid_eq _ fun v hv _ => hvals v hv] at h
    exact (Except.ok.inj h).symm
  case date =>
    rw [columnArray, appendValid_eq _ fun v hv _ => hvals v hv] at h
    exact (Except.ok.inj h).symm
  case varChar len => exact (Except.ok.inj h).symm
  case integer =>
    rw [columnArray, appendValues_eq] at h
    · rw [← Except.ok.inj h, typedArray]
      refine congrArg ArrowArray.int32 (map_congr_left fun v _ => ?_)
      cases v <;> rfl
    · intro v hv hnull
      have hholds := hvals v hv
      cases v <;> cases hholds <;> first | rfl | cases hnull
  case bigInt =>
    rw [columnArray, appendValues_eq] at h
    · rw [← Except.ok.inj h, typedArray]
      refine congrArg ArrowArray.int64 (map_congr_left fun v _ => ?_)
      cases v <;> rfl
    · intro v hv hnull
      have hholds := hvals v hv
      cases v <;> cases hholds <;> first | rfl | cases hnull
  case decimal p s =>
    rw [columnArray] at h
    cases herror : Arrow.decimalError p s with
    | some e =>
      rw [herror] at h
      cases h
    | none =>
      rw [herror] at h
      simp only at h
      rw [appendValues_eq] at h
      · refine (Except.ok.inj h).symm.trans (congrArg ArrowArray.other ?_)
        rw [map_map]
        refine map_congr_left fun v hv => ?_
        have hholds := hvals v hv
        cases v <;> cases hholds
        · rfl
        · exact (hdecimal p s rfl).parsed _
      · intro v hv hnull
        have hholds := hvals v hv
        cases v <;> cases hholds <;> first | rfl | cases hnull

variable {schema : List VectorColumn}

theorem columnArrays_getElem? {i : Nat} {arrays : List ArrowArray}
    (h : columnArrays rows i schema = .ok arrays) {k : Nat} {c : VectorColumn} (hc : schema[k]? = some c) :
    ∃ array, arrays[k]? = some array ∧ columnArray c.dataType (rows.map (columnValue (i + k))) =
      .ok array := by
  induction schema generalizing i k arrays with
  | nil => cases hc
  | cons first schema ih =>
    rw [columnArrays] at h
    obtain ⟨array, harray, h⟩ := H2Result.bind_eq_ok.mp h
    obtain ⟨rest, hrest, h⟩ := H2Result.bind_eq_ok.mp h
    split_ifs at h
    obtain rfl : array :: rest = arrays := Except.ok.inj h
    cases k with
    | zero =>
      obtain rfl := Option.some.inj hc
      exact ⟨array, rfl, harray⟩
    | succ k =>
      obtain ⟨array', harray', hcolumn⟩ := ih hrest hc
      rw [Nat.add_assoc, Nat.add_comm 1] at hcolumn
      exact ⟨array', harray', hcolumn⟩

theorem rowsToRecordBatch_column {batch : RecordBatch}
    (h : rowsToRecordBatch schema rows = .ok batch) {c : VectorColumn} (hc : schema[column]? = some c)
    (hdecimal : ∀ p s, c.dataType = .decimal p s → DecimalsReadable) (htype : c.dataType.isCompared = true)
    (hrows : ∀ row ∈ rows, c.dataType.holds (columnValue column row) = true) :
    batch.columns[column]? = some (typedArray c.dataType (rows.map (columnValue column))) := by
  rw [rowsToRecordBatch] at h
  cases rows with
  | nil =>
    rw [← Except.ok.inj h, List.getElem?_map, hc, Option.map_some]
    refine congrArg some ?_
    cases hdata : c.dataType <;> rw [hdata] at htype <;> first | rfl | cases htype
  | cons row rest =>
    rw [isEmpty_cons, if_neg Bool.false_ne_true] at h
    obtain ⟨arrays, harrays, rfl⟩ := H2Result.map_eq_ok.mp h
    obtain ⟨array, harray, hcolumn⟩ := columnArrays_getElem? harrays hc
    rw [Nat.zero_add] at hcolumn
    rw [← columnArray_eq hdecimal htype (forall_mem_map.mpr hrows) hcolumn]
    exact harray

theorem numRows_rowsToRecordBatch {batch : RecordBatch}
    (h : rowsToRecordBatch schema rows = .ok batch) : batch.numRows = rows.length := by
  rw [rowsToRecordBatch] at h
  cases rows with
  | nil => rw [← Except.ok.inj h, length_nil]
  | cons row rest =>
    rw [isEmpty_cons, if_neg Bool.false_ne_true] at h
    obtain ⟨arrays, -, rfl⟩ := H2Result.map_eq_ok.mp h
    rfl

end

/-! ## Integers of a batch -/

section

variable {type : DataType} {vals : List Value}

/-- An `INTEGER` or a `BIGINT` in 64 bits. -/
def Value.int64 : Value → Int64
  | .integer i => i.toInt64
  | .bigInt i => i
  | _ => 0

theorem Value.toInt_int64 (htype : type = .integer ∨ type = .bigInt) {v : Value} (hv : type.holds v = true) :
    v.int64.toInt = v.int := by
  rcases htype with rfl | rfl <;> cases v <;> cases hv
  · rfl
  · exact Int32.toInt_toInt64 _
  · rfl
  · rfl

theorem map_reduceOption_integerOf (hvals : ∀ v ∈ vals, DataType.integer.holds v = true) :
    (vals.map integerOf).reduceOption.map Int32.toInt64 = (present vals).map Value.int64 := by
  induction vals with
  | nil => rfl
  | cons v vals ih =>
    obtain ⟨hv, hrest⟩ := forall_mem_cons.mp hvals
    rw [map_cons]
    cases v <;> cases hv
    · rw [present_cons_of_null rfl, ← ih hrest]
      rfl
    · rw [present_cons_of_value rfl, map_cons, ← ih hrest]
      rfl

theorem reduceOption_bigIntOf (hvals : ∀ v ∈ vals, DataType.bigInt.holds v = true) :
    (vals.map bigIntOf).reduceOption = (present vals).map Value.int64 := by
  induction vals with
  | nil => rfl
  | cons v vals ih =>
    obtain ⟨hv, hrest⟩ := forall_mem_cons.mp hvals
    rw [map_cons]
    cases v <;> cases hv
    · rw [present_cons_of_null rfl, ← ih hrest]
      rfl
    · rw [present_cons_of_value rfl, map_cons, ← ih hrest]
      rfl

theorem any_isSome_map {α : Type} {f : Value → Option α} (hf : ∀ v ∈ vals, (f v).isSome = !v.isNull) :
    (vals.map f).any Option.isSome = !(present vals).isEmpty := by
  induction vals with
  | nil => rfl
  | cons v vals ih =>
    obtain ⟨hv, hvals⟩ := forall_mem_cons.mp hf
    rw [map_cons, any_cons, hv, ih hvals]
    cases hnull : v.isNull with
    | true =>
      rw [present_cons_of_null hnull]
      rfl
    | false =>
      rw [present_cons_of_value hnull]
      rfl

theorem toInt_foldl_add_int32 (is : List Int32) (s : Int32) :
    (is.foldl (· + ·) s).toInt = (s.toInt + (is.map Int32.toInt).sum).bmod (2 ^ 32) := by
  induction is generalizing s with
  | nil =>
    rw [foldl_nil, map_nil, sum_nil, add_zero]
    exact (Int.bmod_eq_of_le (Int32.le_toInt s) (Int32.toInt_lt s)).symm
  | cons i is ih => rw [foldl_cons, ih, Int32.toInt_add, Int.bmod_add_bmod, map_cons, sum_cons, add_assoc]

theorem toInt_foldl_add_int64 (is : List Int64) (s : Int64) :
    (is.foldl (· + ·) s).toInt = (s.toInt + (is.map Int64.toInt).sum).bmod (2 ^ 64) := by
  induction is generalizing s with
  | nil =>
    rw [foldl_nil, map_nil, sum_nil, add_zero]
    exact (Int.bmod_eq_of_le (Int64.le_toInt s) (Int64.toInt_lt s)).symm
  | cons i is ih => rw [foldl_cons, ih, Int64.toInt_add, Int.bmod_add_bmod, map_cons, sum_cons, add_assoc]

variable [Crates]

theorem vectorExtreme_typedArray (htype : type = .integer ∨ type = .bigInt)
    (hvals : ∀ v ∈ vals, type.holds v = true) (better : Int64 → Int64 → Bool)
    (ofFloats : List UInt64 → UInt64) :
    vectorExtreme better ofFloats (typedArray type vals) = match present vals with
      | [] => none
      | v :: rest => some (Crates.i64ToF64 (bestOf better v.int64 (rest.map Value.int64))) := by
  rcases htype with rfl | rfl
  · rw [typedArray, vectorExtreme, map_reduceOption_integerOf hvals]
    cases present vals <;> rfl
  · rw [typedArray, vectorExtreme, reduceOption_bigIntOf hvals]
    cases present vals <;> rfl

variable [Arrow]

theorem vectorSum_integer (hvals : ∀ v ∈ vals, DataType.integer.holds v = true) (hsome : present vals ≠ []) :
    ∃ k : Int32, vectorSum (typedArray .integer vals) = some (Crates.i64ToF64 k.toInt64) ∧
      k.toInt = ((present vals).map Value.int).sum.bmod (2 ^ 32) := by
  have hany : (vals.map integerOf).any Option.isSome = true := by
    rw [any_isSome_map, Bool.not_eq_true', isEmpty_eq_false_iff]
    · exact hsome
    · intro v hv
      have hholds := hvals v hv
      cases v <;> cases hholds <;> rfl
  refine ⟨(vals.map integerOf).reduceOption.foldl (· + ·) 0, ?_, ?_⟩
  · rw [typedArray, vectorSum, if_pos hany]
  · have hints : (vals.map integerOf).reduceOption.map Int32.toInt = (present vals).map Value.int := by
      have hmap := congrArg (List.map Int64.toInt) (map_reduceOption_integerOf hvals)
      rw [map_map, map_map] at hmap
      refine Eq.trans (map_congr_left fun i _ => (Int32.toInt_toInt64 i).symm) (hmap.trans ?_)
      refine map_congr_left fun v hv => ?_
      exact Value.toInt_int64 (.inl rfl) (hvals v (mem_filter.mp hv).1)
    rw [toInt_foldl_add_int32, hints]
    exact congrArg (Int.bmod · (2 ^ 32)) (zero_add _)

theorem vectorSum_bigInt (hvals : ∀ v ∈ vals, DataType.bigInt.holds v = true) (hsome : present vals ≠ [])
    (hsmall : Small ((present vals).map Value.int).sum) :
    ∃ k : Int64, vectorSum (typedArray .bigInt vals) = some (Crates.i64ToF64 k) ∧
      k.toInt = ((present vals).map Value.int).sum := by
  have hany : (vals.map bigIntOf).any Option.isSome = true := by
    rw [any_isSome_map, Bool.not_eq_true', isEmpty_eq_false_iff]
    · exact hsome
    · intro v hv
      have hholds := hvals v hv
      cases v <;> cases hholds <;> rfl
  refine ⟨(vals.map bigIntOf).reduceOption.foldl (· + ·) 0, ?_, ?_⟩
  · rw [typedArray, vectorSum, if_pos hany]
  · have hints : (vals.map bigIntOf).reduceOption.map Int64.toInt = (present vals).map Value.int := by
      rw [reduceOption_bigIntOf hvals, map_map]
      refine map_congr_left fun v hv => ?_
      exact Value.toInt_int64 (.inr rfl) (hvals v (mem_filter.mp hv).1)
    have hzero : (0 : Int64).toInt + ((present vals).map Value.int).sum =
        ((present vals).map Value.int).sum :=
      zero_add _
    have hlow := hsmall.1
    have hhigh := hsmall.2
    norm_num at hlow hhigh
    rw [toInt_foldl_add_int64, hints, hzero, Int.bmod_eq_of_le]
    · norm_num
      omega
    · norm_num
      omega

end

end H2Database.Sql
