import H2Database.Reasoning.OuterJoin
import H2Database.Sql.CteScope

/-!
# Joins (`h2-sql/src/executor/query.rs`)

The tables of a FROM are joined one after the other.  A row that has no partner is padded with NULLs, as
many as the definition of the other side has columns.  The condition of an ON is the function that
evaluates it.
-/

namespace H2Database.Sql

open Reasoning List

structure ColumnBinding where
  tableName : Option String
  tableAlias : Option String
  columnName : String
  index : Nat
  deriving DecidableEq

structure JoinContext where
  columns : List ColumnBinding

def sameColumn (a b : String) : Bool := a.toLower == b.toLower

def columnBindings (table : TableDef) (tableAlias : Option String) (baseIdx : Nat) : List ColumnBinding :=
  table.columns.mapIdx fun i c => ⟨some table.name, tableAlias, c.name, baseIdx + i⟩

def JoinContext.fromTableDef (table : TableDef) (tableAlias : Option String) : JoinContext :=
  ⟨columnBindings table tableAlias 0⟩

def JoinContext.appendTable (ctx : JoinContext) (table : TableDef) (tableAlias : Option String)
    (baseIdx : Nat) :
    JoinContext :=
  ⟨ctx.columns ++ columnBindings table tableAlias baseIdx⟩

def JoinContext.resolveColumn (ctx : JoinContext) (tableOrAlias : Option String) (name : String) :
    Option Nat :=
  (ctx.columns.find? fun b => sameColumn b.columnName name && tableOrAlias.all fun t =>
    b.tableAlias.any (sameColumn · t) || b.tableName.any (sameColumn · t)).map ColumnBinding.index

/-! ## One join -/

inductive JoinConstraint where
  | on (condition : JoinContext → Row → H2Result Value)
  | usingColumns (idents : List String)
  | natural
  | none

inductive JoinOperator where
  | inner (constraint : JoinConstraint)
  | leftOuter (constraint : JoinConstraint)
  | rightOuter (constraint : JoinConstraint)
  | fullOuter (constraint : JoinConstraint)
  | crossJoin
  | other (text : String)

section

variable [Crates]

def isTrue : Value → Bool
  | .boolean true => true
  | _ => false

def leftPosition (ctx : JoinContext) (baseIdx : Nat) (name : String) : Option Nat :=
  (ctx.columns.take baseIdx).findIdx? fun b => sameColumn b.columnName name

/-- `TableDef::column_index`. -/
def rightPosition (table : TableDef) (name : String) : Option Nat :=
  table.columns.findIdx? fun c => sameColumn c.name name

def sameValue (l r : Row) (i j : Nat) : Bool :=
  !(l[i]?.getD .null).isNull && !(r[j]?.getD .null).isNull && (l[i]?.getD .null).eq (r[j]?.getD .null)

section

variable (ctx : JoinContext) (baseIdx : Nat) (joinDef : TableDef) (l r : Row)

def usingMatch : List String → H2Result Bool
  | [] => .ok true
  | name :: names =>
    match leftPosition ctx baseIdx name with
    | none => .error (.execution s!"Column '{name}' in USING clause not found in left side")
    | some i => match rightPosition joinDef name with
      | none => .error (.execution s!"Column '{name}' in USING clause not found in right side")
      | some j => if sameValue l r i j then usingMatch names else .ok false

/-- A column is found in its own table, so that `unwrap` does not fail. -/
def naturalMatch : List ColumnDef → Bool
  | [] => true
  | c :: cs =>
    match leftPosition ctx baseIdx c.name with
    | none => naturalMatch cs
    | some i => sameValue l r i ((rightPosition joinDef c.name).getD 0) && naturalMatch cs

def isJoinMatch (constraint : JoinConstraint) : H2Result Bool :=
  match constraint with
  | .on condition => (condition ctx (l ++ r)).map isTrue
  | .usingColumns idents => usingMatch ctx baseIdx joinDef l r idents
  | .natural => .ok (naturalMatch ctx baseIdx joinDef l r joinDef.columns)
  | .none => .ok true

end

end

/-- The joined rows of a left row, and the flags of the right rows that have matched. -/
def joinRow (isMatch : Row → H2Result Bool) (l : Row) : List Row → List Bool → H2Result (List Row × List Bool)
  | r :: rs, m :: ms => do
    let found ← isMatch r
    let rest ← joinRow isMatch l rs ms
    .ok (if found then ((l ++ r) :: rest.1, true :: rest.2) else (rest.1, m :: rest.2))
  | _, ms => .ok ([], ms)

/-- The loop over the left rows.  Those without a match are padded, if there is a padding. -/
def joinLoop (isMatch : Row → Row → H2Result Bool) (rs : List Row) (padding : Option Row) :
    List Row → List Bool → H2Result (List Row × List Bool)
  | [], ms => .ok ([], ms)
  | l :: ls, ms => do
    let first ← joinRow (isMatch l) l rs ms
    let rest ← joinLoop isMatch rs padding ls first.2
    let rows := if first.1.isEmpty then padding.toList.map (l ++ ·) else first.1
    .ok (rows ++ rest.1, rest.2)

def paddedRight (padding : Row) (rs : List Row) (matched : List Bool) : List Row :=
  ((rs.zip matched).filter fun p => !p.2).map fun p => padding ++ p.1

section

variable [Crates]

def applyJoin (currentRows joinRows : List Row) (leftColCount rightColCount : Nat) (operator : JoinOperator)
    (ctx : JoinContext) (baseIdx : Nat) (joinDef : TableDef) : H2Result (List Row) :=
  let rightNullVals : Row := List.replicate rightColCount .null
  let leftNullVals : Row := List.replicate leftColCount .null
  let isMatch constraint l r := isJoinMatch ctx baseIdx joinDef l r constraint
  let unmatched := List.replicate joinRows.length false
  match operator with
  | .inner constraint => (joinLoop (isMatch constraint) joinRows none currentRows unmatched).map Prod.fst
  | .leftOuter constraint =>
    (joinLoop (isMatch constraint) joinRows (some rightNullVals) currentRows unmatched).map Prod.fst
  | .rightOuter constraint => do
    let joined ← joinLoop (isMatch constraint) joinRows none currentRows unmatched
    .ok (joined.1 ++ paddedRight leftNullVals joinRows joined.2)
  | .fullOuter constraint => do
    let joined ← joinLoop (isMatch constraint) joinRows (some rightNullVals) currentRows unmatched
    .ok (joined.1 ++ paddedRight leftNullVals joinRows joined.2)
  | .crossJoin => .ok (currentRows.flatMap fun l => joinRows.map fun r => l ++ r)
  | .other text => .error (.execution s!"Unsupported JOIN operator: {text}")

/-- What `resolve_table_factor` returns. -/
structure TableFactor where
  table : TableDef
  rows : List Row
  tableAlias : Option String

structure TableJoin where
  relation : TableFactor
  operator : JoinOperator

def joinTable (state : JoinContext × List Row) (join : TableJoin) : H2Result (JoinContext × List Row) := do
  let baseIdx := state.1.columns.length
  let ctx := state.1.appendTable join.relation.table join.relation.tableAlias baseIdx
  let rows ← applyJoin state.2 join.relation.rows baseIdx join.relation.table.columns.length
    join.operator ctx baseIdx
    join.relation.table
  .ok (ctx, rows)

def evaluateTableWithJoins (relation : TableFactor) (joins : List TableJoin) :
    H2Result (JoinContext × List Row) :=
  joins.foldlM joinTable (.fromTableDef relation.table relation.tableAlias, relation.rows)

def derivedTable (tableAlias : String) (answer : Answer) : TableFactor :=
  ⟨.new tableAlias (answer.columns.map fun c => ⟨c, .varChar none, none, none⟩), answer.rows, some tableAlias⟩

end

/-! ## What a join returns -/

section

variable {isMatch : Row → Row → H2Result Bool} {test : Row → Row → Bool} {rs ls : List Row}

theorem joinRow_eq {l : Row} {test : Row → Bool} {isMatch : Row → H2Result Bool}
    (h : ∀ r ∈ rs, isMatch r = .ok (test r)) (seen : Row → Bool) : joinRow isMatch l rs (rs.map seen) =
      .ok ((rs.filter test).map (l ++ ·), rs.map fun r => seen r || test r) := by
  induction rs with
  | nil => rfl
  | cons r rs ih =>
    obtain ⟨hr, hrs⟩ := forall_mem_cons.mp h
    rw [map_cons, joinRow, hr, ih hrs, map_cons]
    cases htest : test r with
    | true =>
      rw [filter_cons_of_pos htest, Bool.or_true]
      rfl
    | false =>
      rw [filter_cons_of_neg (by rw [htest]; decide), Bool.or_false]
      rfl

def leftRows (test : Row → Row → Bool) (rs : List Row) (padding : Option Row) (l : Row) : List Row :=
  if (rs.filter (test l)).isEmpty then padding.toList.map (l ++ ·) else (rs.filter (test l)).map (l ++ ·)

theorem joinLoop_eq (h : ∀ l ∈ ls, ∀ r ∈ rs, isMatch l r = .ok (test l r)) (padding : Option Row)
    (seen : Row → Bool) : joinLoop isMatch rs padding ls (rs.map seen) =
      .ok (ls.flatMap (leftRows test rs padding), rs.map fun r => seen r || ls.any fun l => test l r) := by
  induction ls generalizing seen with
  | nil =>
    simp only [any_nil, Bool.or_false]
    rfl
  | cons l ls ih =>
    obtain ⟨hl, hls⟩ := forall_mem_cons.mp h
    rw [joinLoop, joinRow_eq hl]
    change (joinLoop isMatch rs padding ls (rs.map fun r => seen r || test l r) >>= _) = _
    rw [ih hls]
    simp only [any_cons, flatMap_cons, Bool.or_assoc, leftRows, isEmpty_map]
    rfl

def pairRow (leftColCount rightColCount : Nat) (p : Option Row × Option Row) : Row :=
  p.1.getD (List.replicate leftColCount .null) ++ p.2.getD (List.replicate rightColCount .null)

theorem flatMap_leftRows_none (test : Row → Row → Bool) (rs ls : List Row) (m n : Nat) :
    ls.flatMap (leftRows test rs none) = (matchedPairs test ls rs).map (pairRow m n) := by
  rw [matchedPairs, map_flatMap]
  refine flatMap_congr fun l _ => ?_
  rw [leftRows, map_map]
  cases hfilter : rs.filter (test l) with
  | nil => rfl
  | cons r rs => rfl

theorem flatMap_leftRows_some (test : Row → Row → Bool) (rs ls : List Row) (m n : Nat) :
    (ls.flatMap (leftRows test rs (some (List.replicate n .null)))).Perm
      ((matchedPairs test ls rs ++ unmatchedLeft test ls rs).map (pairRow m n)) := by
  refine List.Perm.trans (List.Perm.of_eq ?_) ((leftJoin_perm test ls rs).map (pairRow m n))
  rw [map_flatMap]
  refine flatMap_congr fun l _ => ?_
  rw [leftRows]
  split_ifs
  · rfl
  · rw [map_map]
    rfl

theorem paddedRight_eq (test : Row → Row → Bool) (rs ls : List Row) (m n : Nat) :
    paddedRight (List.replicate m .null) rs (rs.map fun r => ls.any fun l => test l r) =
      (unmatchedRight test ls rs).map (pairRow m n) := by
  rw [paddedRight, unmatchedRight, map_map]
  induction rs with
  | nil => rfl
  | cons r rs ih =>
    rw [map_cons, zip_cons_cons]
    cases hany : ls.any fun l => test l r with
    | true => rw [filter_cons_of_neg Bool.false_ne_true, filter_cons_of_neg (by rw [hany]; decide), ih]
    | false =>
      rw [filter_cons_of_pos (by rfl), filter_cons_of_pos (by rw [hany]; rfl), map_cons,
        map_cons, ih]
      rfl

end

section

variable {ctx : JoinContext} {baseIdx : Nat} {joinDef : TableDef}

theorem rightPosition_isSome {c : ColumnDef} (hc : c ∈ joinDef.columns) :
    ∃ j, rightPosition joinDef c.name = some j :=
  Option.isSome_iff_exists.mp (List.findIdx?_isSome.trans (any_eq_true.mpr ⟨c, hc, beq_self_eq_true _⟩))

variable [Crates]

def JoinConstraint.Holds (ctx : JoinContext) (baseIdx : Nat) (joinDef : TableDef) (l r : Row) :
    JoinConstraint → Prop
  | .on condition => condition ctx (l ++ r) = .ok (.boolean true)
  | .usingColumns idents => ∀ name ∈ idents, ∃ i j, leftPosition ctx baseIdx name = some i ∧
      rightPosition joinDef name = some j ∧ sameValue l r i j = true
  | .natural => ∀ c ∈ joinDef.columns, ∀ i, leftPosition ctx baseIdx c.name = some i →
      ∃ j, rightPosition joinDef c.name = some j ∧ sameValue l r i j = true
  | .none => True

theorem usingMatch_iff {l r : Row} {idents : List String} {found : Bool}
    (h : usingMatch ctx baseIdx joinDef l r idents = .ok found) :
    found = true ↔ (JoinConstraint.usingColumns idents).Holds ctx baseIdx joinDef l r := by
  induction idents with
  | nil =>
    obtain rfl : true = found := Except.ok.inj h
    exact iff_of_true rfl (forall_mem_nil _)
  | cons name names ih =>
    rw [JoinConstraint.Holds, forall_mem_cons]
    cases hi : leftPosition ctx baseIdx name with
    | none =>
      rw [usingMatch, hi] at h
      cases h
    | some i =>
      cases hj : rightPosition joinDef name with
      | none =>
        simp only [usingMatch, hi, hj] at h
        cases h
      | some j =>
        simp only [usingMatch, hi, hj] at h
        by_cases hsame : sameValue l r i j = true
        · rw [if_pos hsame] at h
          rw [ih h]
          exact (and_iff_right ⟨i, j, rfl, rfl, hsame⟩).symm
        · rw [if_neg hsame] at h
          obtain rfl : false = found := Except.ok.inj h
          refine iff_of_false Bool.false_ne_true ?_
          rintro ⟨⟨i', j', hi', hj', hsame'⟩, -⟩
          obtain rfl := Option.some.inj hi'
          obtain rfl := Option.some.inj hj'
          exact hsame hsame'

theorem naturalMatch_iff {l r : Row} {columns : List ColumnDef}
    (hcolumns : ∀ c ∈ columns, c ∈ joinDef.columns) :
    naturalMatch ctx baseIdx joinDef l r columns = true ↔
      ∀ c ∈ columns, ∀ i, leftPosition ctx baseIdx c.name = some i →
        ∃ j, rightPosition joinDef c.name = some j ∧ sameValue l r i j = true := by
  induction columns with
  | nil => exact iff_of_true rfl (forall_mem_nil _)
  | cons c columns ih =>
    obtain ⟨hc, hcolumns⟩ := forall_mem_cons.mp hcolumns
    rw [forall_mem_cons, ← ih hcolumns, naturalMatch]
    cases hi : leftPosition ctx baseIdx c.name with
    | none =>
      refine (and_iff_right ?_).symm
      rintro i ⟨⟩
    | some i =>
      obtain ⟨j, hj⟩ := rightPosition_isSome hc
      rw [hj, Option.getD_some, Bool.and_eq_true]
      refine and_congr_left' ⟨fun hsame i' hi' => ?_, fun hall => ?_⟩
      · obtain rfl := Option.some.inj hi'
        exact ⟨j, rfl, hsame⟩
      · obtain ⟨j', hj', hsame⟩ := hall i rfl
        obtain rfl := Option.some.inj hj'
        exact hsame

theorem isJoinMatch_iff {l r : Row} {constraint : JoinConstraint} {found : Bool}
    (h : isJoinMatch ctx baseIdx joinDef l r constraint = .ok found) :
    found = true ↔ constraint.Holds ctx baseIdx joinDef l r := by
  cases constraint with
  | on condition =>
    obtain ⟨v, hv, rfl⟩ := H2Result.map_eq_ok.mp h
    rw [JoinConstraint.Holds, hv, Except.ok.injEq]
    cases v with
    | boolean b => cases b <;> simp [isTrue]
    | _ => simp [isTrue]
  | usingColumns idents => exact usingMatch_iff h
  | natural =>
    obtain rfl : naturalMatch ctx baseIdx joinDef l r joinDef.columns = found := Except.ok.inj h
    exact naturalMatch_iff fun _ => id
  | none =>
    obtain rfl : true = found := Except.ok.inj h
    exact iff_of_true rfl trivial

def JoinOperator.constraint? : JoinOperator → Option JoinConstraint
  | .inner constraint | .leftOuter constraint | .rightOuter constraint | .fullOuter constraint =>
    some constraint
  | .crossJoin | .other _ => none

/-- The pairs that a join is defined to have, where `test` tells which rows match. -/
def JoinOperator.pairs (test : Row → Row → Bool) (ls rs : List Row) :
    JoinOperator → List (Option Row × Option Row)
  | .inner _ => matchedPairs test ls rs
  | .leftOuter _ => matchedPairs test ls rs ++ unmatchedLeft test ls rs
  | .rightOuter _ => matchedPairs test ls rs ++ unmatchedRight test ls rs
  | .fullOuter _ => matchedPairs test ls rs ++ unmatchedLeft test ls rs ++ unmatchedRight test ls rs
  | .crossJoin => matchedPairs (fun _ _ => true) ls rs
  | .other _ => []

theorem applyJoin_perm {test : Row → Row → Bool} {ls rs : List Row} (m n : Nat) {operator : JoinOperator}
    (hoperator : ∀ text, operator ≠ .other text)
    (h : ∀ constraint, operator.constraint? = some constraint → ∀ l ∈ ls, ∀ r ∈ rs,
      isJoinMatch ctx baseIdx joinDef l r constraint = .ok (test l r)) :
    ∃ rows, applyJoin ls rs m n operator ctx baseIdx joinDef = .ok rows ∧
      rows.Perm ((operator.pairs test ls rs).map (pairRow m n)) := by
  have hflags : List.replicate rs.length false = rs.map fun _ => false := map_const'.symm
  cases operator with
  | inner constraint =>
    have hloop := joinLoop_eq (h constraint rfl) none fun _ => false
    refine ⟨_, ?_, List.Perm.of_eq (flatMap_leftRows_none test rs ls m n)⟩
    rw [applyJoin, hflags, hloop]
    rfl
  | leftOuter constraint =>
    have hloop := joinLoop_eq (h constraint rfl) (some (List.replicate n .null)) fun _ => false
    refine ⟨_, ?_, flatMap_leftRows_some test rs ls m n⟩
    rw [applyJoin, hflags, hloop]
    rfl
  | rightOuter constraint =>
    have hloop := joinLoop_eq (h constraint rfl) none fun _ => false
    simp only [Bool.false_or] at hloop
    refine ⟨ls.flatMap (leftRows test rs none) ++
      paddedRight (List.replicate m .null) rs (rs.map fun r => ls.any fun l => test l r), ?_, ?_⟩
    · rw [applyJoin, hflags, hloop]
      rfl
    · rw [JoinOperator.pairs, map_append, paddedRight_eq test rs ls m n, flatMap_leftRows_none test rs ls m n]
  | fullOuter constraint =>
    have hloop := joinLoop_eq (h constraint rfl) (some (List.replicate n .null)) fun _ => false
    simp only [Bool.false_or] at hloop
    refine ⟨ls.flatMap (leftRows test rs (some (List.replicate n .null))) ++
      paddedRight (List.replicate m .null) rs (rs.map fun r => ls.any fun l => test l r), ?_, ?_⟩
    · rw [applyJoin, hflags, hloop]
      rfl
    · rw [JoinOperator.pairs, map_append, paddedRight_eq test rs ls m n]
      exact (flatMap_leftRows_some test rs ls m n).append_right _
  | crossJoin =>
    refine ⟨_, rfl, List.Perm.of_eq ?_⟩
    rw [JoinOperator.pairs, matchedPairs, map_flatMap]
    refine flatMap_congr fun l _ => ?_
    rw [filter_true, map_map]
    rfl
  | other text => exact absurd rfl (hoperator text)

end

/-! ## Rows and columns of a chain -/

section

variable {x : Row}

variable {joined : List Row × List Bool}

theorem mem_joinRow {isMatch : Row → H2Result Bool} {l : Row} {rs : List Row} {ms : List Bool}
    (h : joinRow isMatch l rs ms = .ok joined) (hx : x ∈ joined.1) :
    ∃ r ∈ rs, x = l ++ r := by
  induction rs generalizing ms joined with
  | nil =>
    obtain rfl : ([], ms) = joined := Except.ok.inj h
    cases hx
  | cons r rs ih =>
    cases ms with
    | nil =>
      obtain rfl : ([], []) = joined := Except.ok.inj h
      cases hx
    | cons m ms =>
      obtain ⟨found, -, h⟩ := H2Result.bind_eq_ok.mp h
      obtain ⟨rest, hrest, h⟩ := H2Result.bind_eq_ok.mp h
      have hmem : x = l ++ r ∨ x ∈ rest.1 := by
        cases found with
        | true =>
          obtain rfl : ((l ++ r) :: rest.1, true :: rest.2) = joined := Except.ok.inj h
          exact mem_cons.mp hx
        | false =>
          obtain rfl : (rest.1, m :: rest.2) = joined := Except.ok.inj h
          exact .inr hx
      rcases hmem with rfl | hx
      · exact ⟨r, mem_cons_self, rfl⟩
      · obtain ⟨r', hr', rfl⟩ := ih hrest hx
        exact ⟨r', mem_cons_of_mem _ hr', rfl⟩

theorem mem_joinLoop {isMatch : Row → Row → H2Result Bool} {rs ls : List Row} {padding : Option Row}
    {ms : List Bool} (h : joinLoop isMatch rs padding ls ms = .ok joined)
    (hx : x ∈ joined.1) : ∃ l ∈ ls, ∃ back, x = l ++ back ∧ (back ∈ rs ∨ padding = some back) := by
  induction ls generalizing ms joined with
  | nil =>
    obtain rfl : ([], ms) = joined := Except.ok.inj h
    cases hx
  | cons l ls ih =>
    obtain ⟨first, hfirst, h⟩ := H2Result.bind_eq_ok.mp h
    obtain ⟨rest, hrest, h⟩ := H2Result.bind_eq_ok.mp h
    obtain rfl := Except.ok.inj h
    rcases mem_append.mp hx with hx | hx
    · refine ⟨l, mem_cons_self, ?_⟩
      split_ifs at hx
      · obtain ⟨back, hback, rfl⟩ := mem_map.mp hx
        exact ⟨back, rfl, Or.inr (Option.mem_toList.mp hback)⟩
      · obtain ⟨r, hr, rfl⟩ := mem_joinRow hfirst hx
        exact ⟨r, rfl, Or.inl hr⟩
    · obtain ⟨l', hl', hback⟩ := ih hrest hx
      exact ⟨l', mem_cons_of_mem _ hl', hback⟩

theorem mem_paddedRight {padding : Row} {rs : List Row} {matched : List Bool}
    (hx : x ∈ paddedRight padding rs matched) :
    ∃ r ∈ rs, x = padding ++ r := by
  obtain ⟨p, hp, rfl⟩ := mem_map.mp hx
  exact ⟨p.1, (of_mem_zip (mem_filter.mp hp).1).1, rfl⟩

variable [Crates]

theorem mem_applyJoin {ls rs rows : List Row} {m n : Nat} {operator : JoinOperator} {ctx : JoinContext}
    {baseIdx : Nat}
    {joinDef : TableDef} (h : applyJoin ls rs m n operator ctx baseIdx joinDef = .ok rows) (hx : x ∈ rows) :
    ∃ front back, x = front ++ back ∧ (front ∈ ls ∨ front = List.replicate m .null) ∧
      (back ∈ rs ∨ back = List.replicate n .null) := by
  cases operator with
  | inner constraint =>
    obtain ⟨joined, hjoined, rfl⟩ := H2Result.map_eq_ok.mp h
    obtain ⟨l, hl, back, rfl, hback | hback⟩ := mem_joinLoop hjoined hx
    · exact ⟨l, back, rfl, Or.inl hl, Or.inl hback⟩
    · cases hback
  | leftOuter constraint =>
    obtain ⟨joined, hjoined, rfl⟩ := H2Result.map_eq_ok.mp h
    obtain ⟨l, hl, back, rfl, hback⟩ := mem_joinLoop hjoined hx
    exact ⟨l, back, rfl, Or.inl hl, hback.imp_right fun hpad => (Option.some.inj hpad).symm⟩
  | rightOuter constraint =>
    obtain ⟨joined, hjoined, h⟩ := H2Result.bind_eq_ok.mp h
    obtain rfl := Except.ok.inj h
    rcases mem_append.mp hx with hx | hx
    · obtain ⟨l, hl, back, rfl, hback | hback⟩ := mem_joinLoop hjoined hx
      · exact ⟨l, back, rfl, Or.inl hl, Or.inl hback⟩
      · cases hback
    · obtain ⟨r, hr, rfl⟩ := mem_paddedRight hx
      exact ⟨_, r, rfl, Or.inr rfl, Or.inl hr⟩
  | fullOuter constraint =>
    obtain ⟨joined, hjoined, h⟩ := H2Result.bind_eq_ok.mp h
    obtain rfl := Except.ok.inj h
    rcases mem_append.mp hx with hx | hx
    · obtain ⟨l, hl, back, rfl, hback⟩ := mem_joinLoop hjoined hx
      exact ⟨l, back, rfl, Or.inl hl, hback.imp_right fun hpad => (Option.some.inj hpad).symm⟩
    · obtain ⟨r, hr, rfl⟩ := mem_paddedRight hx
      exact ⟨_, r, rfl, Or.inr rfl, Or.inl hr⟩
  | crossJoin =>
    obtain rfl := Except.ok.inj h
    obtain ⟨l, hl, hx⟩ := mem_flatMap.mp hx
    obtain ⟨r, hr, rfl⟩ := mem_map.mp hx
    exact ⟨l, r, rfl, Or.inl hl, Or.inl hr⟩
  | other text => cases h

end

namespace TableFactor

variable (t : TableFactor)

def width : Nat := t.table.columns.length

def Fits : Prop := ∀ row ∈ t.rows, row.length = t.width

end TableFactor

def totalWidth (tables : List TableFactor) : Nat := (tables.map TableFactor.width).sum

def bindingsFrom : Nat → List TableFactor → List ColumnBinding
  | _, [] => []
  | baseIdx, t :: tables => columnBindings t.table t.tableAlias baseIdx ++
    bindingsFrom (baseIdx + t.width) tables

/-- The values of a row are those of one row of each table, or NULLs, each at the places of the table's
columns. -/
def Aligned : List TableFactor → Row → Prop
  | [], row => row = []
  | t :: tables, row => ∃ front back, row = front ++ back ∧ front.length = t.width ∧
      (front ∈ t.rows ∨ front = List.replicate t.width .null) ∧ Aligned tables back

section

variable {tables : List TableFactor} {t : TableFactor} {row : Row}

@[simp] theorem length_columnBindings (table : TableDef) (tableAlias : Option String) (baseIdx : Nat) :
    (columnBindings table tableAlias baseIdx).length = table.columns.length := length_mapIdx

theorem length_bindingsFrom (baseIdx : Nat) (tables : List TableFactor) :
    (bindingsFrom baseIdx tables).length = totalWidth tables := by
  induction tables generalizing baseIdx with
  | nil => rfl
  | cons t tables ih =>
    rw [bindingsFrom, length_append, length_columnBindings, ih]
    rfl

theorem bindingsFrom_append (baseIdx : Nat) (tables : List TableFactor) (t : TableFactor) :
    bindingsFrom baseIdx (tables ++ [t]) =
      bindingsFrom baseIdx tables ++ columnBindings t.table t.tableAlias (baseIdx + totalWidth tables) := by
  induction tables generalizing baseIdx with
  | nil => exact append_nil _
  | cons t' tables ih =>
    rw [cons_append, bindingsFrom, ih, bindingsFrom, append_assoc, Nat.add_assoc]
    rfl

theorem Aligned.length (h : Aligned tables row) : row.length = totalWidth tables := by
  induction tables generalizing row with
  | nil =>
    obtain rfl : row = [] := h
    rfl
  | cons t tables ih =>
    obtain ⟨front, back, rfl, hfront, -, hback⟩ := h
    rw [length_append, hfront, ih hback]
    rfl

theorem aligned_nulls (tables : List TableFactor) :
    Aligned tables (List.replicate (totalWidth tables) .null) := by
  induction tables with
  | nil => rfl
  | cons t tables ih =>
    exact ⟨List.replicate t.width .null, _, replicate_append_replicate.symm, length_replicate, Or.inr rfl, ih⟩

theorem Aligned.append (h : Aligned tables row) {back : Row} (hlength : back.length = t.width)
    (hback : back ∈ t.rows ∨ back = List.replicate t.width .null) :
      Aligned (tables ++ [t]) (row ++ back) := by
  induction tables generalizing row with
  | nil =>
    obtain rfl : row = [] := h
    exact ⟨back, [], (append_nil _).symm, hlength, hback, rfl⟩
  | cons t' tables ih =>
    obtain ⟨front, rest, rfl, hfront, hin, hrest⟩ := h
    exact ⟨front, rest ++ back, append_assoc .., hfront, hin, ih hrest⟩

variable [Crates] {state state' : JoinContext × List Row} {join : TableJoin}

/-- The context of some tables, and rows that are aligned with them. -/
structure Joined (tables : List TableFactor) (state : JoinContext × List Row) : Prop where
  columns : state.1.columns = bindingsFrom 0 tables
  rows : ∀ row ∈ state.2, Aligned tables row

theorem Joined.step (h : Joined tables state) (hfits : join.relation.Fits)
    (hstep : joinTable state join = .ok state') :
    Joined (tables ++ [join.relation]) state' := by
  obtain ⟨rows, hrows, hstep⟩ := H2Result.bind_eq_ok.mp hstep
  obtain rfl := Except.ok.inj hstep
  have hwidth : state.1.columns.length = totalWidth tables := by rw [h.columns, length_bindingsFrom]
  refine ⟨?_, fun row hrow => ?_⟩
  · rw [bindingsFrom_append, Nat.zero_add, ← hwidth, ← h.columns]
    rfl
  · obtain ⟨front, back, rfl, hfront, hback⟩ := mem_applyJoin hrows hrow
    have hlength : back.length = join.relation.width := by
      rcases hback with hback | rfl
      · exact hfits back hback
      · exact length_replicate
    refine Aligned.append ?_ hlength hback
    rcases hfront with hfront | rfl
    · exact h.rows front hfront
    · rw [hwidth]
      exact aligned_nulls tables

theorem Joined.run (h : Joined tables state) {joins : List TableJoin}
    (hfits : ∀ join ∈ joins, join.relation.Fits)
    (hrun : joins.foldlM joinTable state = .ok state') :
    Joined (tables ++ joins.map TableJoin.relation) state' := by
  induction joins generalizing tables state with
  | nil =>
    obtain rfl : state = state' := Except.ok.inj hrun
    rwa [map_nil, append_nil]
  | cons join joins ih =>
    obtain ⟨hjoin, hfits⟩ := forall_mem_cons.mp hfits
    rw [foldlM_cons] at hrun
    obtain ⟨next, hnext, hrun⟩ := H2Result.bind_eq_ok.mp hrun
    have hrest := ih (h.step hjoin hnext) hfits hrun
    rwa [append_assoc] at hrest

end

/-! ## Joins that match nothing -/

section

variable [Crates]

/-- `FULL JOIN t ON FALSE`. -/
def neverJoin (t : TableFactor) : TableJoin := ⟨t, .fullOuter (.on fun _ _ => .ok (.boolean false))⟩

theorem joinTable_neverJoin (state : JoinContext × List Row) (t : TableFactor) :
    ∃ next, joinTable state (neverJoin t) = .ok next ∧
      next.1.columns.length = state.1.columns.length + t.width ∧
      (∀ row ∈ state.2, row ++ List.replicate t.width .null ∈ next.2) ∧
      ∀ row ∈ t.rows, List.replicate state.1.columns.length .null ++ row ∈ next.2 := by
  have hnever : ∀ constraint, (neverJoin t).operator.constraint? = some constraint →
    ∀ l ∈ state.2, ∀ r ∈ t.rows,
      isJoinMatch (state.1.appendTable t.table t.tableAlias state.1.columns.length)
        state.1.columns.length t.table l r
        constraint = .ok false := by
    rintro constraint hconstraint l - r -
    obtain rfl := Option.some.inj hconstraint
    rfl
  obtain ⟨rows, hrows, hperm⟩ :=
    @applyJoin_perm _ _ _ _ (fun _ _ => false) state.2 t.rows state.1.columns.length t.width
    (neverJoin t).operator (by rintro text ⟨⟩) hnever
  have hmem : ∀ p : Option Row × Option Row,
    p ∈ (neverJoin t).operator.pairs (fun _ _ => false) state.2 t.rows →
      pairRow state.1.columns.length t.width p ∈ rows := fun p hp => hperm.mem_iff.mpr (mem_map_of_mem hp)
  refine ⟨_, H2Result.bind_eq_ok.mpr ⟨rows, hrows, rfl⟩, ?_, fun row hrow => ?_, fun row hrow => ?_⟩
  · exact (length_append ..).trans (congrArg _ (length_columnBindings ..))
  · refine hmem (some row, none) (mem_append_left _ (mem_append_right _ ?_))
    refine mem_map_of_mem (mem_filter.mpr ⟨hrow, ?_⟩)
    simp
  · refine hmem (none, some row) (mem_append_right _ ?_)
    refine mem_map_of_mem (mem_filter.mpr ⟨hrow, ?_⟩)
    simp

theorem run_neverJoin (state : JoinContext × List Row) (tables : List TableFactor) :
    ∃ final, (tables.map neverJoin).foldlM joinTable state = .ok final ∧
      final.1.columns.length = state.1.columns.length + totalWidth tables ∧
      (∀ row ∈ state.2, ∃ row' ∈ final.2, row'.length = row.length + totalWidth tables) ∧
      ∀ t ∈ tables, ∀ row ∈ t.rows, ∃ row' ∈ final.2,
        row'.length + t.width = state.1.columns.length + totalWidth tables + row.length := by
  induction tables generalizing state with
  | nil => exact ⟨state, rfl, rfl, fun row hrow => ⟨row, hrow, rfl⟩, forall_mem_nil _⟩
  | cons t tables ih =>
    obtain ⟨next, hnext, hcolumns, hleft, hright⟩ := joinTable_neverJoin state t
    obtain ⟨final, hfinal, hwidth, hkept, hothers⟩ := ih next
    have htotal : totalWidth (t :: tables) = t.width + totalWidth tables := sum_cons
    rw [htotal]
    refine ⟨final, ?_, by omega, fun row hrow => ?_,
      forall_mem_cons.mpr ⟨fun row hrow => ?_, fun t' ht' row hrow => ?_⟩⟩
    · rw [map_cons, foldlM_cons, hnext]
      exact hfinal
    · obtain ⟨row', hrow', hlength⟩ := hkept _ (hleft row hrow)
      rw [length_append, length_replicate] at hlength
      exact ⟨row', hrow', by omega⟩
    · obtain ⟨row', hrow', hlength⟩ := hkept _ (hright row hrow)
      rw [length_append, length_replicate] at hlength
      exact ⟨row', hrow', by omega⟩
    · obtain ⟨row', hrow', hlength⟩ := hothers t' ht' row hrow
      exact ⟨row', hrow', by omega⟩

end

/-! ## Joins match their definition -/

section

variable [Crates]

/-- A join whose conditions can be evaluated returns the rows of its definition: the pairs for which the
constraint holds, and those that an outer join keeps.  A right join is a left join from the other side. -/
def JoinsAsDefined : Prop :=
  ∀ (ls rs : List Row) (m n : Nat) (operator : JoinOperator) (ctx : JoinContext) (baseIdx : Nat)
    (joinDef : TableDef)
    (test : Row → Row → Bool), (∀ text, operator ≠ .other text) →
    (∀ constraint, operator.constraint? = some constraint → ∀ l ∈ ls, ∀ r ∈ rs,
      isJoinMatch ctx baseIdx joinDef l r constraint = .ok (test l r)) →
    (∃ rows, applyJoin ls rs m n operator ctx baseIdx joinDef = .ok rows ∧
      rows.Perm ((operator.pairs test ls rs).map (pairRow m n))) ∧
    (∀ constraint, operator.constraint? = some constraint → ∀ l ∈ ls, ∀ r ∈ rs,
      (test l r = true ↔ constraint.Holds ctx baseIdx joinDef l r)) ∧
    ∀ constraint, (((JoinOperator.rightOuter constraint).pairs test ls rs).map Prod.swap).Perm
      ((JoinOperator.leftOuter constraint).pairs (fun r l => test l r) rs ls)

theorem joinsAsDefined : JoinsAsDefined := by
  intro ls rs m n operator ctx baseIdx joinDef test hoperator h
  exact ⟨applyJoin_perm m n hoperator h,
    fun constraint hconstraint l hl r hr => isJoinMatch_iff (h constraint hconstraint l hl r hr),
    fun _ => rightJoin_swap test ls rs⟩

/-- Along every chain of joins with some tables the columns of the context are those of the tables one
after the other, and each row has as many values, those of each table at its columns. -/
def KeepsColumns (relation : TableFactor) (tables : List TableFactor) : Prop :=
  ∀ joins : List TableJoin, joins.map TableJoin.relation = tables →
    ∀ ctx rows, evaluateTableWithJoins relation joins = .ok (ctx, rows) →
      ctx.columns = bindingsFrom 0 (relation :: tables) ∧
        ∀ row ∈ rows, row.length = ctx.columns.length ∧ Aligned (relation :: tables) row

/-- The joins are as defined, and keep the columns of tables exactly if each row of each table has as many
values as the table has columns. -/
theorem joins_iff_fits (relation : TableFactor) (tables : List TableFactor) :
    (JoinsAsDefined ∧ KeepsColumns relation tables) ↔ ∀ t ∈ relation :: tables, t.Fits := by
  rw [and_iff_right joinsAsDefined, forall_mem_cons]
  refine ⟨fun h => ?_, fun hfits joins hjoins ctx rows hrun => ?_⟩
  · obtain ⟨final, hfinal, hcolumns, hkept, hothers⟩ :=
      run_neverJoin (.fromTableDef relation.table relation.tableAlias, relation.rows) tables
    have hstart : (JoinContext.fromTableDef relation.table relation.tableAlias).columns.length =
        relation.width :=
      length_columnBindings ..
    simp only [hstart] at hcolumns hothers
    have hall := (h (tables.map neverJoin) (by rw [map_map]; exact map_id _) final.1 final.2 hfinal).2
    refine ⟨fun row hrow => ?_, fun t ht row hrow => ?_⟩
    · obtain ⟨row', hrow', hlength⟩ := hkept row hrow
      have := (hall row' hrow').1
      omega
    · obtain ⟨row', hrow', hlength⟩ := hothers t ht row hrow
      have := (hall row' hrow').1
      omega
  · have hstart : Joined [relation] (.fromTableDef relation.table relation.tableAlias, relation.rows) := by
      refine ⟨(append_nil _).symm, fun row hrow => ?_⟩
      exact ⟨row, [], (append_nil _).symm, hfits.1 row hrow, Or.inl hrow, rfl⟩
    have hjoined := hstart.run (fun join hjoin => hfits.2 _ (hjoins ▸ mem_map_of_mem hjoin)) hrun
    rw [hjoins] at hjoined
    refine ⟨hjoined.columns, fun row hrow => ⟨?_, hjoined.rows row hrow⟩⟩
    have hlength := (hjoined.rows row hrow).length
    rw [hlength, show ctx.columns = _ from hjoined.columns, length_bindingsFrom]

end

section

@[reducible] def answerEngine : QueryEngine where
  Select := Answer
  toLowercase := id
  orderKey _ _ _ := .null
  select answer _ _ := .ok answer
  refers _ _ := False
  select_congr _ _ _ _ _ := rfl

attribute [local instance] plainCrates plainArithmetic answerEngine

/-- `SELECT 1 AS a, 2 AS b UNION ALL SELECT 3`. -/
def unevenUnion : SetExpr := .setOperation .union true (.select ⟨["a", "b"], [[.integer 1, .integer 2]]⟩)
  (.select ⟨["3"], [[.integer 3]]⟩)

def unevenAnswer : Answer := ⟨["a", "b"], [[.integer 1, .integer 2], [.integer 3]]⟩

/-- `SELECT 7 AS x`. -/
def sevenAnswer : Answer := ⟨["x"], [[.integer 7]]⟩

/-- `(SELECT 1 AS a, 2 AS b UNION ALL SELECT 3) d CROSS JOIN (SELECT 7 AS x) t`: where there is no `d.b`,
the value of `t.x` is read for it. -/
theorem unevenUnion_misread :
    executeBody (fun ctes => .ok ctes) unevenUnion .none (fun _ => none) = .ok unevenAnswer ∧
      (∃ ctx, evaluateTableWithJoins (derivedTable "d" unevenAnswer)
        [⟨derivedTable "t" sevenAnswer, .crossJoin⟩] =
          .ok (ctx, [[.integer 1, .integer 2, .integer 7], [.integer 3, .integer 7]]) ∧
        ctx.resolveColumn (some "d") "b" = some 1) ∧
      ¬ (JoinsAsDefined ∧ KeepsColumns (derivedTable "d" unevenAnswer) [derivedTable "t" sevenAnswer]) := by
  refine ⟨rfl, ⟨_, rfl, by decide +kernel⟩, fun h => ?_⟩
  have hrow := (h.2 [⟨derivedTable "t" sevenAnswer, .crossJoin⟩] rfl _ _ rfl).2 [.integer 3, .integer 7]
    (mem_cons_of_mem _ mem_cons_self)
  exact absurd hrow.1 (by decide)

end

end H2Database.Sql
