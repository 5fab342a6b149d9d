import H2Database.Sql.Order
import H2Database.Sql.Statement

/-!
# Expressions of queries (`h2-sql/src/expression.rs`)

`evaluate_expr_context` evaluates an expression on a row, and `evaluate_literal_or_unary` one without
columns.  Expressions that the access paths do not look into are the function that evaluates them.
-/

namespace H2Database.Sql

inductive Literal where
  | null
  | boolean (b : Bool)
  | number (text : String)
  | text (s : String)
  | unsupported

inductive UnaryOperator where
  | minus
  | plus
  | not
  | unsupported
  deriving DecidableEq

inductive BinaryOperator where
  | eq
  | notEq
  | lt
  | ltEq
  | gt
  | gtEq
  | and
  | or
  | other (evaluate : Value → Value → H2Result Value)

/-- `constant` is what `evaluate_literal_or_unary` makes of a tuple or an interval. -/
inductive SqlExpr where
  | value (l : Literal)
  | unary (op : UnaryOperator) (e : SqlExpr)
  | typedString (type : DataType) (text : String)
  | nested (e : SqlExpr)
  | identifier (name : String)
  | compoundIdentifier (table name : String)
  | binary (left : SqlExpr) (op : BinaryOperator) (right : SqlExpr)
  | between (e : SqlExpr) (negated : Bool) (low high : SqlExpr)
  | other (constant : Option Value) (e : Expr)

/-- `keyword` is what a name without a column answers, `sequence` what `NEXTVAL` and `CURRVAL` do. -/
structure RowContext where
  table : TableDef
  tableAlias : Option String
  emptyStringsAreNull : Bool
  keyword : String → H2Result Value
  sequence : String → String → Option (H2Result Value)

def RowContext.resolveColumn (ctx : RowContext) (tableOrAlias : Option String) (name : String) :
    Option Nat :=
  match tableOrAlias with
  | none => ctx.table.columnIndex name
  | some t => if ctx.tableAlias = some t ∨ ctx.table.name = t then ctx.table.columnIndex name else none

variable [Crates] [Arithmetic]

/-- A number is an `INTEGER`, a `BIGINT`, a `DECIMAL` or a `DOUBLE`, the first that holds it. -/
def evaluateSqlValue : Literal → H2Result Value
  | .null => .ok .null
  | .boolean b => .ok (.boolean b)
  | .number text =>
    match parseI64 text with
    | some i =>
      if -2147483648 ≤ i.toInt ∧ i.toInt ≤ 2147483647 then .ok (.integer i.toInt32) else .ok (.bigInt i)
    | none => match Crates.parseDecimal text with
      | some d => .ok (.decimal d)
      | none => match Crates.parseF64 text with
        | some f => .ok (.double f)
        | none => .error (.typeError s!"Invalid number literal: {text}")
  | .text s => .ok (.string s)
  | .unsupported => .error (.typeError "Unsupported literal value")

def applyUnary (op : UnaryOperator) (v : Value) : H2Result Value :=
  match op, v with
  | .minus, .tinyInt n => .ok (.tinyInt (-n))
  | .minus, .smallInt n => .ok (.smallInt (-n))
  | .minus, .integer n => .ok (.integer (-n))
  | .minus, .bigInt n => .ok (.bigInt (-n))
  | .minus, .float f => .ok (.float (f ^^^ 0x80000000))
  | .minus, .double d => .ok (.double (d ^^^ 0x8000000000000000))
  | .minus, .decimal d => .ok (.decimal (Arithmetic.decimalNeg d))
  | .minus, _ => .error (.typeError "Cannot negate non-numeric value")
  | .plus, v => .ok v
  | .not, .boolean b => .ok (.boolean !b)
  | .not, _ => .error (.typeError "NOT requires boolean operand")
  | .unsupported, _ => .error (.execution "Unsupported unary operator")

def evaluateLiteralOrUnary : SqlExpr → H2Result Value
  | .value l => evaluateSqlValue l
  | .unary op e => do
    let inner ← evaluateLiteralOrUnary e
    applyUnary op inner
  | .typedString type text => (Value.string text).castTo type
  | .other (some v) _ => .ok v
  | _ => .error (.execution "Unsupported literal or unary expression")

def evaluateBinaryOp (left : Value) (op : BinaryOperator) (right : Value) : H2Result Value :=
  match op with
  | .eq => .ok (.boolean (left.eq right))
  | .notEq => .ok (.boolean !(left.eq right))
  | .lt => .ok (.boolean (left.lt right))
  | .ltEq => .ok (.boolean (left.le right))
  | .gt => .ok (.boolean (left.gt right))
  | .gtEq => .ok (.boolean (left.ge right))
  | .and => match left, right with
    | .boolean l, .boolean r => .ok (.boolean (l && r))
    | _, _ => .error (.typeError "AND requires boolean operands")
  | .or => match left, right with
    | .boolean l, .boolean r => .ok (.boolean (l || r))
    | _, _ => .error (.typeError "OR requires boolean operands")
  | .other evaluate => evaluate left right

def evaluateExprContext (ctx : RowContext) (seen : Visible) (row : Row) : SqlExpr → H2Result Value
  | .value (.text s) =>
    if s.isEmpty && ctx.emptyStringsAreNull then .ok .null else evaluateSqlValue (.text s)
  | .value l => evaluateSqlValue l
  | .unary op e => do
    let inner ← evaluateExprContext ctx seen row e
    applyUnary op inner
  | .typedString type text => (Value.string text).castTo type
  | .nested e => evaluateExprContext ctx seen row e
  | .identifier name =>
    match ctx.resolveColumn none name with
    | some i => .ok (row[i]?.getD .null)
    | none => ctx.keyword name
  | .compoundIdentifier table name =>
    match ctx.sequence table name with
    | some answer => answer
    | none => match ctx.resolveColumn (some table) name with
      | some i => .ok (row[i]?.getD .null)
      | none => .error (.execution s!"Column '{table}.{name}' not found")
  | .binary left op right => do
    let l ← evaluateExprContext ctx seen row left
    let r ← evaluateExprContext ctx seen row right
    evaluateBinaryOp l op r
  | .between e negated low high => do
    let target ← evaluateExprContext ctx seen row e
    let lowVal ← evaluateExprContext ctx seen row low
    let highVal ← evaluateExprContext ctx seen row high
    let inRange := target.ge lowVal && target.le highVal
    .ok (.boolean (if negated then !inRange else inRange))
  | .other _ e => e seen row

/-- `WHERE` selects the row. -/
def satisfies (ctx : RowContext) (seen : Visible) (selection : Option SqlExpr) (row : Row) : Bool :=
  match selection with
  | none => true
  | some sel => match evaluateExprContext ctx seen row sel with
    | .ok (.boolean b) => b
    | _ => false

end H2Database.Sql
