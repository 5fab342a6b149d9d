import H2Database.Sql.Expression
import H2Database.Sql.InstantDdl

/-!
# Queries with CTEs (`h2-sql/src/executor/query.rs`)

`execute_query_with_ctes` on the tree of a query: its WITH, the set operations of its body, and its ORDER BY,
LIMIT and OFFSET.  A body that is a UNION is first tried as a recursive one: the left side is evaluated, and
then the right side again and again.  The evaluation of a SELECT is a parameter, and reads those of the tables
in scope that the SELECT refers to.
-/

namespace H2Database.Sql

/-! ## The tree -/

/-- `ORDER BY`, with what is said of ascending, `LIMIT` and `OFFSET`. -/
structure Clauses where
  orderBy : List (SqlExpr × Option Bool)
  limit : Option SqlExpr
  offset : Option SqlExpr

def Clauses.none : Clauses := ⟨[], .none, .none⟩

structure Answer where
  columns : List String
  rows : List Row

abbrev Ctes := String → Option (TableDef × List Row)

class QueryEngine where
  Select : Type
  toLowercase : String → String
  orderKey : List String → SqlExpr → Row → Value
  select : Select → Clauses → Ctes → H2Result Answer
  refers : Select → String → Prop
  select_congr : ∀ s clauses (ctes ctes' : Ctes), (∀ name, refers s name → ctes name = ctes' name) →
    select s clauses ctes = select s clauses ctes'

inductive SetOperator where
  | union
  | intersect
  | except
  deriving DecidableEq

variable [QueryEngine]

/-- `other` is what the source refuses, a query in parentheses among them. -/
inductive SetExpr where
  | select (s : QueryEngine.Select)
  | setOperation (op : SetOperator) (all : Bool) (left right : SetExpr)
  | other

/-- The CTEs of a WITH, each with the WITH, the body and the clauses of its query. -/
inductive Withs where
  | nil
  | cons (name : String) (columns : List String) (withs : Withs) (body : SetExpr) (clauses : Clauses)
      (rest : Withs)

structure Query where
  withs : Withs
  body : SetExpr
  clauses : Clauses

/-! ## Set operations -/

variable [Crates] [Arithmetic]

/-- The rows that equal no row before them, nor one of those that have been seen. -/
def distinctRows : List Row → List Row → List Row
  | _, [] => []
  | seen, r :: rs =>
    if seen.any fun s => Value.eqAll s r then distinctRows seen rs else r :: distinctRows (seen ++ [r]) rs

def intersectDistinct (right : List Row) : List Row → List Row → List Row
  | _, [] => []
  | seen, r :: rs =>
    if !(seen.any fun s => Value.eqAll s r) && right.any fun s => Value.eqAll s r then
      r :: intersectDistinct right (seen ++ [r]) rs
    else intersectDistinct right seen rs

def intersectAll : List Row → List Row → List Row
  | _, [] => []
  | remaining, r :: rs =>
    match remaining.findIdx? fun s => Value.eqAll s r with
    | some i => r :: intersectAll (remaining.eraseIdx i) rs
    | none => intersectAll remaining rs

def exceptDistinct (right : List Row) : List Row → List Row → List Row
  | _, [] => []
  | seen, r :: rs =>
    if seen.any fun s => Value.eqAll s r then exceptDistinct right seen rs
    else if right.any fun s => Value.eqAll s r then exceptDistinct right (seen ++ [r]) rs
    else r :: exceptDistinct right (seen ++ [r]) rs

def exceptAll : List Row → List Row → List Row
  | _, [] => []
  | remaining, r :: rs =>
    match remaining.findIdx? fun s => Value.eqAll s r with
    | some i => exceptAll (remaining.eraseIdx i) rs
    | none => r :: exceptAll remaining rs

def combineRows : SetOperator → Bool → List Row → List Row → List Row
  | .union, true, l, r => l ++ r
  | .union, false, l, r => distinctRows [] (l ++ r)
  | .intersect, true, l, r => intersectAll r l
  | .intersect, false, l, r => intersectDistinct r [] l
  | .except, true, l, r => exceptAll r l
  | .except, false, l, r => exceptDistinct r [] l

def compareRows (columns : List String) : List (SqlExpr × Option Bool) → Row → Row → Ordering
  | [], _, _ => .eq
  | (e, asc) :: exprs, a, b =>
    let ord := ((QueryEngine.orderKey columns e a).partialCmp (QueryEngine.orderKey columns e b)).getD .eq
    let ord := if asc.getD true then ord else ord.swap
    if ord ≠ .eq then ord else compareRows columns exprs a b

def clauseNumber (clause : String) (e : SqlExpr) : H2Result Nat := do
  match ← evaluateLiteralOrUnary e with
  | .tinyInt n => .ok n.toInt.toNat
  | .smallInt n => .ok n.toInt.toNat
  | .integer n => .ok n.toInt.toNat
  | .bigInt n => .ok n.toInt.toNat
  | _ => .error (.execution s!"{clause} must be an integer")

/-- The rows of a set operation in their order, from the offset on and as far as the limit. -/
def applyClauses (columns : List String) (clauses : Clauses) (rows : List Row) : H2Result (List Row) := do
  let rows := if clauses.orderBy.isEmpty then rows
    else rows.mergeSort fun a b => compareRows columns clauses.orderBy a b != .gt
  let offset ← match clauses.offset with
    | none => .ok 0
    | some e => clauseNumber "OFFSET" e
  let limit ← match clauses.limit with
    | none => .ok none
    | some e => (clauseNumber "LIMIT" e).map some
  .ok (match limit with
    | none => rows.drop offset
    | some n => (rows.drop offset).take n)

/-! ## Evaluation -/

/-- The table that a CTE is: its columns are texts, named by the alias if it names as many. -/
def cteTable (name : String) (columns : List String) (answer : Answer) : TableDef :=
  let names := if !columns.isEmpty && columns.length = answer.columns.length then columns else answer.columns
  .new name (names.map fun c => ⟨c, .varChar none, none, none⟩)

def Ctes.insert (ctes : Ctes) (name : String) (table : TableDef) (rows : List Row) : Ctes :=
  Function.update ctes (QueryEngine.toLowercase name) (some (table, rows))

/-- The right side is evaluated with the rows that came last, as long as there are any.  `none` where it has
not been evaluated once. -/
def iterateRows (next : List Row → H2Result Answer) (all : Bool) :
    Nat → List Row → List Row → Bool → Option (List Row)
  | 0, rows, _, isRecursive => if isRecursive then some rows else none
  | n + 1, rows, working, isRecursive =>
    if working.isEmpty then if isRecursive then some rows else none
    else match next working with
      | .error _ => if isRecursive then some rows else none
      | .ok answer =>
        if answer.rows.isEmpty then some rows
        else if all then iterateRows next all n (rows ++ answer.rows) answer.rows true
        else
          let newUnique := distinctRows rows answer.rows
          if newUnique.isEmpty then some rows
          else iterateRows next all n (rows ++ newUnique) newUnique true

/-- A body under a WITH; each side of a set operation has the same WITH. -/
def executeBody (bind : Ctes → H2Result Ctes) : SetExpr → Clauses → Ctes → H2Result Answer
  | .select s, clauses, ctes => do
    let ctes ← bind ctes
    QueryEngine.select s clauses ctes
  | .setOperation op all left right, clauses, ctes => do
    let ctes ← bind ctes
    let l ← executeBody bind left .none ctes
    let r ← executeBody bind right .none ctes
    let rows ← applyClauses l.columns clauses (combineRows op all l.rows r.rows)
    .ok ⟨l.columns, rows⟩
  | .other, _, ctes => do
    let _ ← bind ctes
    .error (.execution "Only SELECT queries or UNION are supported")

def recursiveCte (bind : Ctes → H2Result Ctes) (name : String) (columns : List String) (body : SetExpr)
    (clauses : Clauses) (ctes : Ctes) : Option (TableDef × List Row) :=
  match body with
  | .setOperation .union all left right =>
    match executeBody bind left clauses ctes with
    | .error _ => none
    | .ok anchor =>
      let table := cteTable name columns anchor
      (iterateRows (fun working => executeBody bind right clauses (ctes.insert name table working)) all 1000
        anchor.rows anchor.rows false).map fun rows => (table, rows)
  | _ => none

def bindAll : Withs → Ctes → H2Result Ctes
  | .nil, ctes => .ok ctes
  | .cons name columns withs body clauses rest, ctes =>
    match recursiveCte (bindAll withs) name columns body clauses ctes with
    | some (table, rows) => bindAll rest (ctes.insert name table rows)
    | none => do
      let answer ← executeBody (bindAll withs) body clauses ctes
      bindAll rest (ctes.insert name (cteTable name columns answer) answer.rows)

def Query.execute (q : Query) (ctes : Ctes) : H2Result Answer :=
  executeBody (bindAll q.withs) q.body q.clauses ctes

end H2Database.Sql
