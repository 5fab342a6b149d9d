import H2Database.Sql.AccessPath
import H2Database.Sql.InstantDdl

/-!
# Aggregates (`h2-sql/src/executor/query.rs`, `h2-sql/src/row.rs`)

A `SELECT` of aggregates over one table, without groups, is computed on the stored bytes where it can be:
the pushdown reads one column as a number, and folds the numbers of all rows or of a range of an index.
Elsewhere `evaluate_aggregate_expr` folds the values of the rows that `WHERE` selects.
-/

namespace H2Database.Sql

open Reasoning Mvstore

/-! ## Syntax -/

inductive FunctionArg where
  | wildcard
  | expr (e : SqlExpr)
  | other

/-- Nothing reads `distinct`; `scalar` is the function of a name that is not an aggregate's. -/
structure FunctionCall where
  name : String
  distinct : Bool
  args : List FunctionArg
  scalar : Expr

/-- An expression of the projection comes with the name of its column. -/
inductive SelectItem where
  | function (call : FunctionCall) (name : String)
  | expr (e : SqlExpr) (name : String)
  | wildcard
  | other

inductive VectorAggregateOp where
  | countStar
  | count (column : Nat)
  | sum (column : Nat)
  | avg (column : Nat)
  | min (column : Nat)
  | max (column : Nat)
  deriving DecidableEq

def parseAggregateOp (ctx : RowContext) (call : FunctionCall) : Option VectorAggregateOp :=
  match call.args with
  | [] => if call.name = "COUNT" then some .countStar else none
  | [.wildcard] => if call.name = "COUNT" then some .countStar else none
  | [.expr (.identifier column)] => (ctx.resolveColumn none column).bind fun i =>
    match call.name with
    | "COUNT" => some (.count i)
    | "SUM" => some (.sum i)
    | "AVG" => some (.avg i)
    | "MIN" => some (.min i)
    | "MAX" => some (.max i)
    | _ => none
  | _ => none

def parseAggregateOps (ctx : RowContext) : List SelectItem → Option (List String × List VectorAggregateOp)
  | [] => some ([], [])
  | .function call name :: items => do
    let op ← parseAggregateOp ctx call
    let (names, ops) ← parseAggregateOps ctx items
    some (name :: names, op :: ops)
  | _ :: _ => none

/-- `pushdown_ops`; a cache has none. -/
def pushdownOps (ctx : RowContext) (kind : TableKind) (projection : List SelectItem) :
    Option (List String × List VectorAggregateOp) :=
  match kind with
  | .cache _ => none
  | _ => parseAggregateOps ctx projection

variable [Crates]

/-- The number of a value as an integer and as a floating-point number, and the bytes it takes. -/
def numericField : List UInt8 → Option ((Int64 × UInt64) × Nat)
  | [] => none
  | tag :: rest =>
    match tag with
    | 0 => some ((0, 0), 1)
    | 1 => (takeLe 1 rest).map fun p => (if p.1 ≠ 0 then (1, 0x3FF0000000000000) else (0, 0), 2)
    | 2 => (takeLe 1 rest).map fun p => exactInteger (UInt8.ofNat p.1).toInt8.toInt64 2
    | 3 => (takeLe 2 rest).map fun p => exactInteger (UInt16.ofNat p.1).toInt16.toInt64 3
    | 4 => (takeLe 4 rest).map fun p => exactInteger (UInt32.ofNat p.1).toInt32.toInt64 5
    | 5 => (takeLe 8 rest).map fun p => exactInteger (UInt64.ofNat p.1).toInt64 9
    | 6 => (takeLe 4 rest).map fun p =>
      ((Crates.f32ToI64 (UInt32.ofNat p.1), Crates.f32ToF64 (UInt32.ofNat p.1)), 5)
    | 7 => (takeLe 8 rest).map fun p => ((Crates.f64ToI64 (UInt64.ofNat p.1), UInt64.ofNat p.1), 9)
    | 9 | 10 | 14 | 15 => (takeLe 4 rest).map fun p => ((0, 0), 5 + p.1)
    | 8 => some ((0, 0), 17)
    | 11 => some ((0, 0), 5)
    | 12 => some ((0, 0), 9)
    | 13 => some ((0, 0), 13)
    | _ => none
where
  exactInteger (i : Int64) (size : Nat) : (Int64 × UInt64) × Nat := ((i, Crates.i64ToF64 i), size)

def extractFrom : Nat → List UInt8 → Option (Int64 × UInt64)
  | 0, bytes => (numericField bytes).bind fun p => if bytes.head? = some 0 then none else some p.1
  | column + 1, bytes => (numericField bytes).bind fun p => extractFrom column (bytes.drop p.2)

def extractNumericColumn (bytes : List UInt8) (targetCol : Nat) : Option (Int64 × UInt64) :=
  match bytes with
  | [] => none
  | magic :: rest =>
    if magic ≠ 0xAA then none
    else match takeLe 4 rest with
      | none => none
      | some (count, rest) => if count ≤ targetCol then none else extractFrom targetCol rest

variable [Arithmetic]

/-! ## The pushdown -/

structure Accumulator where
  sum : UInt64 := 0
  count : Int64 := 0
  min : UInt64 := f64Max
  max : UInt64 := f64Min
  minInt : Int64 := Int64.maxValue
  maxInt : Int64 := Int64.minValue

def Accumulator.add (op : VectorAggregateOp) (acc : Accumulator) (bytes : List UInt8) : Accumulator :=
  match op with
  | .countStar => { acc with count := acc.count + 1 }
  | .count column =>
    if (extractNumericColumn bytes column).isSome then { acc with count := acc.count + 1 } else acc
  | .sum column | .avg column =>
    match extractNumericColumn bytes column with
    | some (_, vf) => { acc with sum := Arithmetic.f64Add acc.sum vf, count := acc.count + 1 }
    | none => acc
  | .min column =>
    match extractNumericColumn bytes column with
    | some (vi, vf) =>
      { acc with
        min := if f64Lt vf acc.min then vf else acc.min
        minInt := if vi < acc.minInt then vi else acc.minInt
        count := acc.count + 1 }
    | none => acc
  | .max column =>
    match extractNumericColumn bytes column with
    | some (vi, vf) =>
      { acc with
        max := if f64Lt acc.max vf then vf else acc.max
        maxInt := if acc.maxInt < vi then vi else acc.maxInt
        count := acc.count + 1 }
    | none => acc

def DataType.isInteger : DataType → Bool
  | .tinyInt | .smallInt | .integer | .bigInt => true
  | _ => false

/-- `MIN` and `MAX` of an integer column are integers, of every other column a `DOUBLE`. -/
def extremeValue (t : TableDef) (column : Nat) (int : Int64) (float : UInt64) : Value :=
  if (t.columns[column]?.map ColumnDef.dataType).any DataType.isInteger then .bigInt int else .double float

/-- `build_pushdown_aggregate_result` for one operation. -/
def pushdownValue (t : TableDef) (op : VectorAggregateOp) (acc : Accumulator) : Value :=
  match op with
  | .countStar | .count _ => .bigInt acc.count
  | .sum _ => if acc.count = 0 then .null else .bigInt (Crates.f64ToI64 acc.sum)
  | .avg _ =>
    if acc.count = 0 then .null else .double (Arithmetic.f64Div acc.sum (Crates.i64ToF64 acc.count))
  | .min column => if acc.count = 0 then .null else extremeValue t column acc.minInt acc.min
  | .max column => if acc.count = 0 then .null else extremeValue t column acc.maxInt acc.max

def addRow (accs : List (VectorAggregateOp × Accumulator)) (bytes : List UInt8) :
    List (VectorAggregateOp × Accumulator) :=
  accs.map fun p => (p.1, p.2.add p.1 bytes)

def buildPushdownAggregateResult (t : TableDef) (ops : List VectorAggregateOp)
    (stored : List (List UInt8)) : Row :=
  (stored.foldl addRow (ops.map fun op => (op, {}))).map fun p => pushdownValue t p.1 p.2

def rowOfEntry (seen : Visible) (t : TableDef) (k : Key) : Option (List UInt8) :=
  if 8 ≤ k.length then seen.get t.mapName (rowKey (UInt64.ofNat (fromBe (k.drop (k.length - 8))))) else none

/-- The bytes that the pushdown of all rows, or of a range, goes through. -/
def pushdownRows (seen : Visible) (t : TableDef) (indexes : List IndexDef) :
    Option SqlExpr → Option (List (List UInt8))
  | none => some ((seen.scan t.mapName).map Prod.snd)
  | some sel => match accessPath t indexes sel with
    | .range idx bounds =>
      some ((seen.scanRange (indexMapName t.name idx) bounds.1 bounds.2).filterMap fun e =>
        rowOfEntry seen t e.1)
    | _ => none

def pushdown (ctx : RowContext) (kind : TableKind) (seen : Visible) (indexes : List IndexDef)
    (projection : List SelectItem) (selection : Option SqlExpr) : Option Row := do
  let parsed ← pushdownOps ctx kind projection
  let stored ← pushdownRows seen ctx.table indexes selection
  some (buildPushdownAggregateResult ctx.table parsed.2 stored)

/-! ## The evaluation of rows -/

def addValues (left right : Value) : H2Result Value :=
  match left, right with
  | .integer a, .integer b => .ok (.integer (a + b))
  | .bigInt a, .bigInt b => .ok (.bigInt (a + b))
  | .decimal a, .decimal b => .ok (.decimal (Arithmetic.decimalAdd a b))
  | .double a, .double b => .ok (.double (Arithmetic.f64Add a b))
  | a, b => match a.toF64, b.toF64 with
    | some x, some y => .ok (.double (Arithmetic.f64Add x y))
    | _, _ => .error (.typeError s!"Cannot add {Crates.debug left} and {Crates.debug right}")

def foldValues {α : Type} (ctx : RowContext) (seen : Visible) (rows : List Row) (e : SqlExpr)
    (init : α) (step : α → Value → H2Result α) : H2Result α :=
  rows.foldlM (fun acc row => do
    let v ← evaluateExprContext ctx seen row e
    step acc v) init

def countStep (count : Int64) (v : Value) : H2Result Int64 := .ok (if v.isNull then count else count + 1)

def sumStep (sum : Option Value) (v : Value) : H2Result (Option Value) :=
  if v.isNull then .ok sum
  else match sum with
    | none => .ok (some v)
    | some curr => (addValues curr v).map some

def avgStep (acc : UInt64 × Int64) (v : Value) : H2Result (UInt64 × Int64) :=
  .ok (match v.toF64 with
    | some f => (Arithmetic.f64Add acc.1 f, acc.2 + 1)
    | none => acc)

/-- `MIN` and `MAX`: a value that is better than the one so far takes its place. -/
def extremeStep (better : Value → Value → Bool) (best : Option Value) (v : Value) : H2Result (Option Value) :=
  .ok (if v.isNull then best
    else match best with
      | none => some v
      | some curr => if better v curr then some v else some curr)

/-- `evaluate_aggregate_expr` on a call. -/
def evaluateAggregateExpr (ctx : RowContext) (seen : Visible) (rows : List Row) (call : FunctionCall) :
    H2Result Value :=
  match call.name, call.args.head? with
  | "COUNT", some (.expr e) => (foldValues ctx seen rows e 0 countStep).map .bigInt
  | "COUNT", _ => .ok (.bigInt (Int64.ofNat rows.length))
  | "SUM", some (.expr e) => (foldValues ctx seen rows e none sumStep).map fun v => v.getD .null
  | "AVG", some (.expr e) => (foldValues ctx seen rows e (0, 0) avgStep).map fun acc =>
    if acc.2 = 0 then .null else .double (Arithmetic.f64Div acc.1 (Crates.i64ToF64 acc.2))
  | "MIN", some (.expr e) => (foldValues ctx seen rows e none (extremeStep Value.lt)).map fun v =>
      v.getD .null
  | "MAX", some (.expr e) => (foldValues ctx seen rows e none (extremeStep Value.gt)).map fun v =>
      v.getD .null
  | "SUM", arg | "AVG", arg | "MIN", arg | "MAX", arg =>
    if arg.isSome then .error (.execution s!"Invalid {call.name} argument")
    else .error (.execution s!"{call.name} requires 1 argument")
  | _, _ => match rows.head? with
    | none => .ok .null
    | some row => call.scalar seen row

def evaluateAggregates (ctx : RowContext) (seen : Visible) (rows : List Row) (calls : List FunctionCall) :
    H2Result Row :=
  calls.mapM (evaluateAggregateExpr ctx seen rows)

end H2Database.Sql
