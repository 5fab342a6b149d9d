import H2Database.Sql.Comparison
import H2Database.Sql.Like

/-!
# Conditions (`h2-sql/src/expression.rs`)

The expressions of WHERE over columns and literals, as `evaluate_expr_context` evaluates them and as the
standard does.
-/

namespace H2Database.Sql

open Reasoning

inductive Operand where
  | column (name : String)
  | qualified (table name : String)
  | literal (l : Literal)
  | negative (l : Literal)

def Operand.expr : Operand → SqlExpr
  | .column name => .identifier name
  | .qualified table name => .compoundIdentifier table name
  | .literal l => .value l
  | .negative l => .unary .minus (.value l)

inductive Condition where
  | operand (o : Operand)
  | nested (c : Condition)
  | compare (left : Condition) (op : Comparison) (right : Condition)
  | and (left right : Condition)
  | or (left right : Condition)
  | not (c : Condition)
  | isNull (negated : Bool) (c : Condition)
  | like (negated : Bool) (c pattern : Condition)
  | inList (c : Condition) (list : List Condition) (negated : Bool)
  | between (c : Condition) (negated : Bool) (low high : Condition)

/-- The value of an expression; `none` where the source panics. -/
abbrev Evaluation := ExceptT H2Error Option

def Evaluation.of {α : Type} (r : H2Result α) : Evaluation α := ExceptT.mk (some r)

/-- The values for which `IS NULL` holds. -/
def RowContext.isNull (ctx : RowContext) : Value → Bool
  | .null => true
  | .string s => s.isEmpty && ctx.emptyStringsAreNull
  | _ => false

variable [Crates] [Arithmetic]

namespace Condition

def likeMatches : Value → Value → Option Bool
  | .string s, .string p => likeMatched s.toList p.toList
  | _, _ => some false

def negate (negated b : Bool) : Bool := if negated then !b else b

mutual

def evaluate (ctx : RowContext) (seen : Visible) (row : Row) : Condition → Evaluation Value
  | .operand o => .of (evaluateExprContext ctx seen row o.expr)
  | .nested c => evaluate ctx seen row c
  | .compare left op right => do
    let l ← evaluate ctx seen row left
    let r ← evaluate ctx seen row right
    .of (evaluateBinaryOp l op.operator r)
  | .and left right => do
    let l ← evaluate ctx seen row left
    let r ← evaluate ctx seen row right
    .of (evaluateBinaryOp l .and r)
  | .or left right => do
    let l ← evaluate ctx seen row left
    let r ← evaluate ctx seen row right
    .of (evaluateBinaryOp l .or r)
  | .not c => do
    let v ← evaluate ctx seen row c
    .of (applyUnary .not v)
  | .isNull negated c => do
    let v ← evaluate ctx seen row c
    pure (.boolean (negate negated (ctx.isNull v)))
  | .like negated c pattern => do
    let v ← evaluate ctx seen row c
    let p ← evaluate ctx seen row pattern
    let matched ← (likeMatches v p).map Except.ok
    pure (.boolean (negate negated matched))
  | .inList c list negated => do
    let v ← evaluate ctx seen row c
    let found ← findIn ctx seen row v list
    pure (.boolean (negate negated found))
  | .between c negated low high => do
    let v ← evaluate ctx seen row c
    let l ← evaluate ctx seen row low
    let h ← evaluate ctx seen row high
    pure (.boolean (negate negated (v.ge l && v.le h)))

def findIn (ctx : RowContext) (seen : Visible) (row : Row) (v : Value) : List Condition → Evaluation Bool
  | [] => pure false
  | item :: items => do
    let w ← evaluate ctx seen row item
    if v.eq w then pure true else findIn ctx seen row v items

end

attribute [simp] evaluate findIn

end Condition

/-! ## The standard -/

def Value.truth : Value → Truth
  | .boolean b => some b
  | _ => none

def Value.ofTruth : Truth → Value
  | some b => .boolean b
  | none => .null

def RowContext.standardValue (ctx : RowContext) (v : Value) : Value := if ctx.isNull v then .null else v

def sqlLike : Value → Value → Truth
  | .string s, .string p => some (matchesPattern (standardPattern p.toList) s.toList)
  | _, _ => none

namespace Condition

mutual

def standard (ctx : RowContext) (seen : Visible) (row : Row) : Condition → Value
  | .operand o => match evaluateExprContext ctx seen row o.expr with
    | .ok v => ctx.standardValue v
    | .error _ => .null
  | .nested c => standard ctx seen row c
  | .compare left op right =>
    .ofTruth (sqlCompare op (standard ctx seen row left) (standard ctx seen row right))
  | .and left right => .ofTruth ((standard ctx seen row left).truth.and (standard ctx seen row right).truth)
  | .or left right => .ofTruth ((standard ctx seen row left).truth.or (standard ctx seen row right).truth)
  | .not c => .ofTruth (standard ctx seen row c).truth.not
  | .isNull negated c => .boolean (negate negated (standard ctx seen row c).isNull)
  | .like negated c pattern =>
    .ofTruth ((sqlLike (standard ctx seen row c) (standard ctx seen row pattern)).map (negate negated))
  | .inList c list negated =>
    .ofTruth ((Truth.any ((standards ctx seen row list).map (standard ctx seen row c).sqlEq)).map
      (negate negated))
  | .between c negated low high =>
    .ofTruth (((sqlCompare .gtEq (standard ctx seen row c) (standard ctx seen row low)).and
      (sqlCompare .ltEq (standard ctx seen row c) (standard ctx seen row high))).map (negate negated))

def standards (ctx : RowContext) (seen : Visible) (row : Row) : List Condition → List Value
  | [] => []
  | c :: cs => standard ctx seen row c :: standards ctx seen row cs

end

attribute [simp] standard standards

end Condition

end H2Database.Sql
