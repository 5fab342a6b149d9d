import H2Database.Sql.Expression

/-!
# Access paths (`h2-sql/src/executor/query.rs`)

A `SELECT` reads a row through an index when its `WHERE` clause has the form `column = literal`, or names
a range of a column.  The literals are cast to the type of the column and become a prefix, or bounds, of
the index's keys.
-/

namespace H2Database.Sql

open Mvstore

variable [Crates] [Arithmetic]

def columnOf : SqlExpr → Option String
  | .identifier name => some name
  | .compoundIdentifier _ name => some name
  | _ => none

def extractEqualityPredicate : SqlExpr → Option (String × Value)
  | .binary left .eq right =>
    match columnOf left with
    | some column => (evaluateLiteralOrUnary right).toOption.map fun v => (column, v)
    | none => match columnOf right with
      | some column => (evaluateLiteralOrUnary left).toOption.map fun v => (column, v)
      | none => none
  | _ => none

/-! ## Ranges -/

/-- `std::ops::Bound<Value>`. -/
inductive ValueBound where
  | included (v : Value)
  | excluded (v : Value)
  | unbounded

/-- The narrower of two bounds; `beats` and `beatsOrTies` compare their values. -/
def ValueBound.combine (beats beatsOrTies : Value → Value → Bool) : ValueBound → ValueBound → ValueBound
  | .unbounded, b => b
  | b, .unbounded => b
  | .included v, .included w => if beatsOrTies v w then .included v else .included w
  | .excluded v, .excluded w => if beatsOrTies v w then .excluded v else .excluded w
  | .included v, .excluded w => if beats v w then .included v else .excluded w
  | .excluded v, .included w => if beatsOrTies v w then .excluded v else .included w

def combineStarts : ValueBound → ValueBound → ValueBound := .combine Value.gt Value.ge

def combineEnds : ValueBound → ValueBound → ValueBound := .combine Value.lt Value.le

/-- The bounds of `column op literal`, and of `literal op column`. -/
def comparisonBounds (op : BinaryOperator) (v : Value) : Option (ValueBound × ValueBound) :=
  match op with
  | .gt => some (.excluded v, .unbounded)
  | .gtEq => some (.included v, .unbounded)
  | .lt => some (.unbounded, .excluded v)
  | .ltEq => some (.unbounded, .included v)
  | _ => none

def swappedBounds (op : BinaryOperator) (v : Value) : Option (ValueBound × ValueBound) :=
  match op with
  | .gt => some (.unbounded, .excluded v)
  | .gtEq => some (.unbounded, .included v)
  | .lt => some (.excluded v, .unbounded)
  | .ltEq => some (.included v, .unbounded)
  | _ => none

/-- Of a conjunction the conjuncts that name a range of the column count; the others are passed over. -/
def extractRangePredicate (target : String) : SqlExpr → Option (ValueBound × ValueBound)
  | .between e negated low high =>
    if negated || columnOf e != some target then none
    else match evaluateLiteralOrUnary low, evaluateLiteralOrUnary high with
      | .ok l, .ok h => some (.included l, .included h)
      | _, _ => none
  | .binary left .and right =>
    match extractRangePredicate target left, extractRangePredicate target right with
    | some l, some r => some (combineStarts l.1 r.1, combineEnds l.2 r.2)
    | some l, none => some l
    | none, r => r
  | .binary left op right =>
    match columnOf left with
    | some column =>
      if column = target then (evaluateLiteralOrUnary right).toOption.bind (comparisonBounds op) else none
    | none =>
      if columnOf right = some target then (evaluateLiteralOrUnary left).toOption.bind (swappedBounds op)
      else none
  | _ => none

def encodeIndexKeyMax (vals : List Value) : List UInt8 :=
  encodeIndexPrefix vals ++ List.replicate 8 0xFF

/-- A literal in the type of the column; one that cannot be cast stays as it is. -/
def castToColumn (t : TableDef) (column : String) (v : Value) : Value :=
  match t.columnIndex column with
  | none => v
  | some i => match t.columns[i]? with
    | none => v
    | some c => (v.castTo c.dataType).toOption.getD v

def convertValueBoundsToBytes (t : TableDef) (column : String) (range : ValueBound × ValueBound) :
    Bound × Bound :=
  let key (v : Value) := encodeIndexPrefix [castToColumn t column v]
  let keyMax (v : Value) := encodeIndexKeyMax [castToColumn t column v]
  (match range.1 with
    | .included v => .included (key v)
    | .excluded v => .excluded (keyMax v)
    | .unbounded => .unbounded,
   match range.2 with
    | .included v => .included (keyMax v)
    | .excluded v => .excluded (key v)
    | .unbounded => .unbounded)

/-- The test of an index's first column that `column op literal`, or `BETWEEN`, is. -/
def buildIndexFilter (target : String) : SqlExpr → Option (Value → Bool)
  | .binary (.identifier name) op right =>
    if name = target then
      (evaluateLiteralOrUnary right).toOption.map fun search v =>
        match op with
        | .eq => v.eq search
        | .gt => v.gt search
        | .gtEq => v.ge search
        | .lt => v.lt search
        | .ltEq => v.le search
        | _ => false
    else none
  | .between (.identifier name) false low high =>
    if name = target then
      match evaluateLiteralOrUnary low, evaluateLiteralOrUnary high with
      | .ok l, .ok h => some fun v => v.ge l && v.le h
      | _, _ => none
    else none
  | _ => none

/-! ## The path of a query -/

inductive AccessPath where
  | point (idx : IndexDef) (v : Value)
  | range (idx : IndexDef) (bounds : Bound × Bound)
  | filter (idx : IndexDef) (test : Value → Bool)
  | scan

def AccessPath.index : AccessPath → Option IndexDef
  | .point idx _ | .range idx _ | .filter idx _ => some idx
  | .scan => none

/-- The first index with a range of its only column, or with a test of its first one. -/
def rangePath (t : TableDef) (sel : SqlExpr) : List IndexDef → AccessPath
  | [] => .scan
  | idx :: indexes =>
    let range := match idx.columns with
      | [column] => (extractRangePredicate column sel).map (convertValueBoundsToBytes t column)
      | _ => none
    match range with
    | some bounds => .range idx bounds
    | none => match idx.columns.head?.bind fun column => buildIndexFilter column sel with
      | some test => .filter idx test
      | none => rangePath t sel indexes

def accessPath (t : TableDef) (indexes : List IndexDef) (sel : SqlExpr) : AccessPath :=
  let point := (extractEqualityPredicate sel).bind fun p =>
    (indexes.find? fun idx => idx.columns = [p.1]).map fun idx => (idx, castToColumn t p.1 p.2)
  match point with
  | some (idx, v) => .point idx v
  | none => rangePath t sel indexes

variable {indexes : List IndexDef}

theorem mem_of_rangePath {t : TableDef} {sel : SqlExpr} {idx : IndexDef}
    (h : (rangePath t sel indexes).index = some idx) : idx ∈ indexes := by
  induction indexes with
  | nil => cases h
  | cons first indexes ih =>
    rw [rangePath] at h
    split at h
    · cases h
      exact List.mem_cons_self
    · split at h
      · cases h
        exact List.mem_cons_self
      · exact List.mem_cons_of_mem _ (ih h)

theorem mem_of_accessPath {t : TableDef} {sel : SqlExpr} {idx : IndexDef}
    (h : (accessPath t indexes sel).index = some idx) : idx ∈ indexes := by
  rw [accessPath] at h
  split at h
  next found v hpoint =>
    cases h
    obtain ⟨p, -, hfound⟩ := Option.bind_eq_some_iff.mp hpoint
    obtain ⟨idx', hfind, heq⟩ := Option.map_eq_some_iff.mp hfound
    cases heq
    exact List.mem_of_find?_eq_some hfind
  next => exact mem_of_rangePath h

end H2Database.Sql
