import H2Database.Reasoning.Lists
import H2Database.Sql.CteScope
import H2Database.Sql.Window

/-!
# Set operations as multisets (`h2-sql/src/executor/query.rs`)

How often a row occurs in a UNION, INTERSECT or EXCEPT is told by how often it occurs on either side, and so
down to the SELECTs.  The clauses of the whole query are those of the outermost operation.
-/

namespace H2Database.Sql

open Reasoning List

/-- How often a row that occurs `m` times on the left and `n` times on the right is to occur. -/
def SetOperator.multiplicity : SetOperator → Bool → Nat → Nat → Nat
  | .union, true, m, n => m + n
  | .union, false, m, n => if 0 < m ∨ 0 < n then 1 else 0
  | .intersect, true, m, n => min m n
  | .intersect, false, m, n => if 0 < m ∧ 0 < n then 1 else 0
  | .except, true, m, n => m - n
  | .except, false, m, n => if 0 < m ∧ n = 0 then 1 else 0

section

variable [Crates] {P : Row → Prop} {x : Row}

theorem keepsFirst_distinctRows : KeepsFirst Value.eqAll (fun _ => true) distinctRows where
  nil _ := rfl
  kept seen r rows hold _ := by rw [distinctRows, if_neg hold]
  skipped seen r rows hskip := by
    have hold := hskip.resolve_right (not_not_intro rfl)
    exact .inl (by rw [distinctRows, if_pos hold])

theorem keepsFirst_intersectDistinct (right : List Row) :
    KeepsFirst Value.eqAll (fun r => right.any fun s => Value.eqAll s r) (intersectDistinct right) where
  nil _ := rfl
  kept seen r rows hold hin := by
    rw [intersectDistinct, if_pos]
    rw [Bool.and_eq_true, Bool.not_eq_true', ← Bool.not_eq_true]
    exact ⟨hold, hin⟩
  skipped seen r rows hskip := by
    refine .inl ?_
    rw [intersectDistinct, if_neg]
    rw [Bool.and_eq_true, Bool.not_eq_true', ← Bool.not_eq_true]
    exact fun hboth => hskip.elim hboth.1 fun hout => hout hboth.2

theorem keepsFirst_exceptDistinct (right : List Row) :
    KeepsFirst Value.eqAll (fun r => !right.any fun s => Value.eqAll s r) (exceptDistinct right) where
  nil _ := rfl
  kept seen r rows hold hout := by
    rw [exceptDistinct, if_neg hold, if_neg]
    exact fun hin => by rw [hin] at hout; cases hout
  skipped seen r rows hskip := by
    rw [exceptDistinct]
    split_ifs with hold hin
    · exact .inl rfl
    · exact .inr ⟨rfl, by rw [hin]; exact Bool.false_ne_true⟩
    · exact absurd (hskip.resolve_left hold) (by rw [Bool.not_eq_true _ |>.mp hin]; exact not_not_intro rfl)

theorem any_eqAll_iff (h : EquivOn Value.eqAll P) {rows : List Row} {r : Row} (hrows : ∀ s ∈ rows, P s)
    (hr : P r)
    (hx : P x) (hrx : Value.eqAll r x = true) :
    (rows.any fun s => Value.eqAll s r) = true ↔ 0 < multiplicity Value.eqAll rows x := by
  rw [any_iff_multiplicity, h.multiplicity_congr hrows hr hx hrx]

theorem multiplicity_intersectAll (h : EquivOn Value.eqAll P) {remaining rows : List Row}
    (hremaining : ∀ r ∈ remaining, P r) (hrows : ∀ r ∈ rows, P r) (hx : P x) :
    multiplicity Value.eqAll (intersectAll remaining rows) x =
      min (multiplicity Value.eqAll rows x) (multiplicity Value.eqAll remaining x) := by
  induction rows generalizing remaining with
  | nil => rw [intersectAll, multiplicity_nil, Nat.zero_min]
  | cons r rows ih =>
    obtain ⟨hr, hrows⟩ := forall_mem_cons.mp hrows
    rw [intersectAll, multiplicity_cons]
    cases hfound : remaining.findIdx? fun s => Value.eqAll s r with
    | none =>
      have hnone := multiplicity_of_findIdx?_none hfound
      dsimp only
      rw [ih hremaining hrows]
      split_ifs with hrx
      · rw [h.multiplicity_congr hremaining hr hx hrx] at hnone
        omega
      · rfl
    | some i =>
      have herase := h.multiplicity_eraseIdx hremaining hx hr hfound
      dsimp only
      rw [multiplicity_cons, ih (fun s hs => hremaining s (mem_of_mem_eraseIdx hs)) hrows]
      omega

theorem multiplicity_intersectAll_exceptAll (remaining rows : List Row) :
    multiplicity Value.eqAll (intersectAll remaining rows) x + multiplicity Value.eqAll
      (exceptAll remaining rows) x =
      multiplicity Value.eqAll rows x := by
  induction rows generalizing remaining with
  | nil => rfl
  | cons r rows ih =>
    rw [intersectAll, exceptAll, multiplicity_cons]
    cases remaining.findIdx? fun s => Value.eqAll s r with
    | none =>
      dsimp only
      rw [multiplicity_cons, ← ih remaining, Nat.add_assoc]
    | some i =>
      dsimp only
      rw [multiplicity_cons, ← ih (remaining.eraseIdx i), Nat.add_right_comm]

theorem intersectAll_sublist (remaining rows : List Row) :
    List.Sublist (intersectAll remaining rows) rows := by
  induction rows generalizing remaining with
  | nil => exact List.Sublist.slnil
  | cons r rows ih =>
    rw [intersectAll]
    split
    · exact (ih _).cons_cons r
    · exact (ih remaining).cons r

theorem exceptAll_sublist (remaining rows : List Row) : List.Sublist (exceptAll remaining rows) rows := by
  induction rows generalizing remaining with
  | nil => exact List.Sublist.slnil
  | cons r rows ih =>
    rw [exceptAll]
    split
    · exact (ih _).cons r
    · exact (ih remaining).cons_cons r

theorem mem_combineRows {op : SetOperator} {all : Bool} {l r : List Row} (h : x ∈ combineRows op all l r) :
    x ∈ l ∨ x ∈ r := by
  cases op with
  | union =>
    cases all with
    | true => exact mem_append.mp h
    | false => exact mem_append.mp ((distinctRows_sublist [] (l ++ r)).subset h)
  | intersect =>
    cases all with
    | true => exact .inl ((intersectAll_sublist r l).subset h)
    | false => exact .inl (((keepsFirst_intersectDistinct r).sublist [] l).subset h)
  | except =>
    cases all with
    | true => exact .inl ((exceptAll_sublist r l).subset h)
    | false => exact .inl (((keepsFirst_exceptDistinct r).sublist [] l).subset h)

theorem multiplicity_combineRows (h : EquivOn Value.eqAll P) (op : SetOperator) (all : Bool) {l r : List Row}
    (hl : ∀ s ∈ l, P s) (hr : ∀ s ∈ r, P s) (hx : P x) : multiplicity Value.eqAll (combineRows op all l r) x =
      op.multiplicity all (multiplicity Value.eqAll l x) (multiplicity Value.eqAll r x) := by
  have hseen : ∀ s ∈ ([] : List Row), P s := forall_mem_nil _
  cases op with
  | union =>
    cases all with
    | true => exact multiplicity_append l r x
    | false =>
      have hboth : ∀ s ∈ l ++ r, P s := fun s hs => (mem_append.mp hs).elim (hl s) (hr s)
      rw [combineRows, keepsFirst_distinctRows.multiplicity h hx (fun _ _ _ =>
        iff_of_true rfl trivial) hseen hboth,
        multiplicity_append, multiplicity_nil, SetOperator.multiplicity]
      refine if_congr ?_ rfl rfl
      rw [and_true]
      omega
  | intersect =>
    cases all with
    | true => exact multiplicity_intersectAll h hr hl hx
    | false =>
      rw [combineRows, (keepsFirst_intersectDistinct r).multiplicity h hx
        (fun s hs hsx => any_eqAll_iff h hr hs hx hsx) hseen hl, multiplicity_nil, SetOperator.multiplicity]
      exact if_congr (and_iff_right rfl) rfl rfl
  | except =>
    cases all with
    | true =>
      have hboth := @multiplicity_intersectAll_exceptAll _ x r l
      rw [multiplicity_intersectAll h hr hl hx] at hboth
      rw [combineRows, SetOperator.multiplicity]
      omega
    | false =>
      have hout : ∀ s, P s → Value.eqAll s x = true →
          ((!r.any fun t => Value.eqAll t s) = true ↔ multiplicity Value.eqAll r x = 0) := by
        intro s hs hsx
        rw [Bool.not_eq_true', ← Bool.not_eq_true, any_eqAll_iff h hr hs hx hsx, Nat.not_lt, Nat.le_zero]
      rw [combineRows, (keepsFirst_exceptDistinct r).multiplicity h hx hout hseen hl, multiplicity_nil,
        SetOperator.multiplicity]
      exact if_congr (and_iff_right rfl) rfl rfl

end

/-! ## The numbers of the clauses -/

section

variable [Crates] [Arithmetic]

/-- The number that LIMIT or OFFSET gives, and none where the clause is missing; a negative one is 0. -/
def ClauseGives (clause : Option SqlExpr) (number : Option Nat) : Prop :=
  clause = none ∧ number = none ∨ ∃ e v n, clause = some e ∧ evaluateLiteralOrUnary e = .ok v ∧
    v.heldInt = some n ∧ number = some n.toNat

theorem clauseNumber_eq_ok {clause : String} {e : SqlExpr} {number : Nat} :
    clauseNumber clause e = .ok number ↔
    ∃ v n, evaluateLiteralOrUnary e = .ok v ∧ v.heldInt = some n ∧ number = n.toNat := by
  rw [clauseNumber, H2Result.bind_eq_ok]
  refine exists_congr fun v => ?_
  rw [exists_and_left]
  refine and_congr_right fun _ => ?_
  cases v <;> simp [Value.heldInt, eq_comm]

theorem clauseGives_some {e : SqlExpr} {number : Option Nat} (clause : String) :
    ClauseGives (some e) number ↔ ∃ n, clauseNumber clause e = .ok n ∧ number = some n := by
  simp only [clauseNumber_eq_ok, ClauseGives, reduceCtorEq, false_and, false_or, Option.some.injEq]
  constructor
  · rintro ⟨_, v, n, rfl, hv, hn, rfl⟩
    exact ⟨_, ⟨v, n, hv, hn, rfl⟩, rfl⟩
  · rintro ⟨_, ⟨v, n, hv, hn, rfl⟩, rfl⟩
    exact ⟨e, v, n, rfl, hv, hn, rfl⟩

end

/-! ## A nesting of operations -/

section

variable [Crates] [Arithmetic] [QueryEngine]

inductive AnswerTree where
  | leaf (answer : Answer)
  | node (op : SetOperator) (all : Bool) (left right : AnswerTree)

namespace AnswerTree

def columns : AnswerTree → List String
  | leaf answer => answer.columns
  | node _ _ left _ => left.columns

def rows : AnswerTree → List Row
  | leaf answer => answer.rows
  | node op all left right => combineRows op all left.rows right.rows

def leafRows : AnswerTree → List Row
  | leaf answer => answer.rows
  | node _ _ left right => left.leafRows ++ right.leafRows

/-- How often a row is to occur, from its numbers in the answers of the SELECTs. -/
def multiplicity : AnswerTree → Row → Nat
  | leaf answer, x => Reasoning.multiplicity Value.eqAll answer.rows x
  | node op all left right, x => op.multiplicity all (left.multiplicity x) (right.multiplicity x)

end AnswerTree

/-- The answers of the SELECTs, each of which is evaluated without clauses. -/
def SetExpr.answers (bind : Ctes → H2Result Ctes) : SetExpr → Ctes → H2Result AnswerTree
  | .select s, ctes => do
    let ctes ← bind ctes
    let answer ← QueryEngine.select s .none ctes
    .ok (.leaf answer)
  | .setOperation op all left right, ctes => do
    let ctes ← bind ctes
    let l ← left.answers bind ctes
    let r ← right.answers bind ctes
    .ok (.node op all l r)
  | .other, ctes => do
    let _ ← bind ctes
    .error (.execution "Only SELECT queries or UNION are supported")

theorem executeBody_none (bind : Ctes → H2Result Ctes) (e : SetExpr) (ctes : Ctes) :
    executeBody bind e .none ctes = (e.answers bind ctes).map fun tree => ⟨tree.columns, tree.rows⟩ := by
  induction e generalizing ctes with
  | select s =>
    rw [executeBody, SetExpr.answers]
    cases bind ctes with
    | error e => rfl
    | ok ctes =>
      change QueryEngine.select s .none ctes = Except.map _ (QueryEngine.select s .none ctes >>= _)
      cases QueryEngine.select s .none ctes <;> rfl
  | setOperation op all left right ihl ihr =>
    rw [executeBody, SetExpr.answers]
    cases bind ctes with
    | error e => rfl
    | ok ctes =>
      change (executeBody bind left .none ctes >>= _) = Except.map _ (left.answers bind ctes >>= _)
      rw [ihl]
      cases left.answers bind ctes with
      | error e => rfl
      | ok l =>
        change (executeBody bind right .none ctes >>= _) = Except.map _ (right.answers bind ctes >>= _)
        rw [ihr]
        cases right.answers bind ctes <;> rfl
  | other =>
    rw [executeBody, SetExpr.answers]
    cases bind ctes <;> rfl

namespace AnswerTree

variable {P : Row → Prop}

omit [Arithmetic] [QueryEngine] in
theorem mem_leafRows {tree : AnswerTree} {x : Row} (h : x ∈ tree.rows) : x ∈ tree.leafRows := by
  induction tree with
  | leaf answer => exact h
  | node op all left right ihl ihr =>
    exact mem_append.mpr ((mem_combineRows h).imp ihl ihr)

omit [Arithmetic] [QueryEngine] in
theorem multiplicity_rows (h : EquivOn Value.eqAll P) (tree : AnswerTree) (hleaf : ∀ r ∈ tree.leafRows, P r)
    {x : Row} (hx : P x) : Reasoning.multiplicity Value.eqAll tree.rows x = tree.multiplicity x := by
  induction tree with
  | leaf answer => rfl
  | node op all left right ihl ihr =>
    have hl : ∀ r ∈ left.leafRows, P r := fun r hr => hleaf r (mem_append_left _ hr)
    have hr : ∀ r ∈ right.leafRows, P r := fun r hr => hleaf r (mem_append_right _ hr)
    rw [rows, multiplicity_combineRows h op all (fun s hs => hl s (mem_leafRows hs))
      (fun s hs => hr s (mem_leafRows hs)) hx, ihl hl, ihr hr, multiplicity]

end AnswerTree

/-! ## The clauses -/

/-- The keys of ORDER BY are evaluated on the columns of the answer. -/
def orderKeys (columns : List String) (e : SqlExpr) (row : Row) : H2Result Value :=
  .ok (QueryEngine.orderKey columns e row)

/-- The rows in an order that no two of them contradict, from the offset on and as many as the limit. -/
def Clauses.Applied (columns : List String) (clauses : Clauses) (rows out : List Row) : Prop :=
  ∃ sorted offset limit, sorted.Perm rows ∧ (clauses.orderBy = [] → sorted = rows) ∧
    ((∀ o ∈ clauses.orderBy, OrderedOn (orderKeys columns) rows o.1) →
      sorted.Pairwise fun a b => ¬ Precedes (orderKeys columns) clauses.orderBy b a) ∧
    ClauseGives clauses.offset offset ∧ ClauseGives clauses.limit limit ∧
    ∀ i, out[i]? = if limit.all fun n => i < n then sorted[offset.getD 0 + i]? else .none

theorem compareRows_eq_compareOver (columns : List String) (orderBy : List (SqlExpr × Option Bool)) :
    compareRows columns orderBy = WindowSpec.compareOver (orderKeys columns) orderBy := by
  funext a b
  induction orderBy with
  | nil => rfl
  | cons o orderBy ih =>
    rw [compareRows, WindowSpec.compareOver, ih]
    rfl

/-- The rows that the clauses leave, given their numbers. -/
def Clauses.slice (columns : List String) (clauses : Clauses) (offset : Nat) (limit : Option Nat)
    (rows : List Row) :
    List Row :=
  let sorted := if clauses.orderBy.isEmpty then rows
    else rows.mergeSort fun a b => compareRows columns clauses.orderBy a b != .gt
  match limit with
  | .none => sorted.drop offset
  | some n => (sorted.drop offset).take n

variable {columns : List String} {clauses : Clauses}

theorem applied_slice {rows : List Row} {offset limit : Option Nat}
    (hoffset : ClauseGives clauses.offset offset) (hlimit : ClauseGives clauses.limit limit) :
    clauses.Applied columns rows (clauses.slice columns (offset.getD 0) limit rows) := by
  unfold Clauses.slice
  have hsort : (rows.mergeSort fun a b => compareRows columns clauses.orderBy a b != .gt) =
      stableSort (compareRows columns clauses.orderBy) rows := by
    refine congrArg _ (funext fun a => funext fun b => ?_)
    cases compareRows columns clauses.orderBy a b <;> rfl
  rw [hsort]
  refine ⟨if clauses.orderBy.isEmpty then rows else stableSort (compareRows columns clauses.orderBy)
    rows, offset,
    limit, ?_, fun hnone => if_pos (isEmpty_iff.mpr hnone), fun hordered => ?_, hoffset, hlimit, fun i => ?_⟩
  · split_ifs
    · exact List.Perm.refl rows
    · exact stableSort_perm rows
  · split_ifs with hempty
    · -- without keys no row precedes another
      rw [isEmpty_iff.mp hempty]
      refine pairwise_of_forall fun a b => ?_
      rintro ⟨front, o, back, hkeys, -⟩
      cases front <;> cases hkeys
    · rw [compareRows_eq_compareOver]
      have hpre := WindowSpec.preorder_compareOver hordered
      have hin : ∀ {a}, a ∈ stableSort
          (WindowSpec.compareOver (orderKeys columns) clauses.orderBy) rows → a ∈ rows :=
        fun ha => (stableSort_perm rows).mem_iff.mp ha
      refine (ordered_stableSort_on hpre fun _ => id).imp_of_mem fun {a b} ha hb hle hlt => ?_
      rw [← WindowSpec.compareOver_lt_iff hordered (hin hb) (hin ha)] at hlt
      rw [hpre.swap (hin hb) (hin ha), hlt] at hle
      cases hle
  · cases limit with
    | none => exact getElem?_drop
    | some n =>
      change ((_ : List Row).take n)[i]? = _
      rw [getElem?_take, getElem?_drop, Option.all_some]
      exact if_congr decide_eq_true_iff.symm rfl rfl

theorem applyClauses_eq_bind (columns : List String) (clauses : Clauses) (rows : List Row) :
    applyClauses columns clauses rows = (clauses.offset.elim (.ok 0) (clauseNumber "OFFSET") >>= fun offset =>
      clauses.limit.elim (.ok .none) (fun e => (clauseNumber "LIMIT" e).map some) >>= fun limit =>
        .ok (clauses.slice columns offset limit rows)) := by
  obtain ⟨orderBy, limit, offset⟩ := clauses
  cases offset <;> cases limit <;> rfl

theorem applyClauses_eq_ok {rows out : List Row} :
    applyClauses columns clauses rows = .ok out ↔ ∃ offset limit, ClauseGives clauses.offset offset ∧
      ClauseGives clauses.limit limit ∧ clauses.slice columns (offset.getD 0) limit rows = out := by
  have hoffset : ∀ offset, clauses.offset.elim (.ok 0) (clauseNumber "OFFSET") = .ok offset ↔
      ∃ number, ClauseGives clauses.offset number ∧ number.getD 0 = offset := by
    intro offset
    cases clauses.offset with
    | none => simp [ClauseGives]
    | some e => simp [clauseGives_some "OFFSET"]
  have hlimit : ∀ limit, clauses.limit.elim (.ok none) (fun e => (clauseNumber "LIMIT" e).map some) =
    .ok limit ↔
      ClauseGives clauses.limit limit := by
    intro limit
    cases clauses.limit with
    | none => simp [ClauseGives, eq_comm]
    | some e =>
      rw [clauseGives_some "LIMIT", Option.elim_some, H2Result.map_eq_ok]
      exact exists_congr fun n => and_congr_right fun _ => eq_comm
  simp only [applyClauses_eq_bind, H2Result.bind_eq_ok, hoffset, hlimit, Except.ok.injEq]
  constructor
  · rintro ⟨_, ⟨offset, hgives, rfl⟩, limit, hgivesLimit, hout⟩
    exact ⟨offset, limit, hgives, hgivesLimit, hout⟩
  · rintro ⟨offset, limit, hgives, hgivesLimit, hout⟩
    exact ⟨_, ⟨offset, hgives, rfl⟩, limit, hgivesLimit, hout⟩

theorem applyClauses_applied {rows : List Row} :
    (∀ out, applyClauses columns clauses rows = .ok out → clauses.Applied columns rows out) ∧
      ((∃ out, applyClauses columns clauses rows = .ok out) ↔
        (∃ offset, ClauseGives clauses.offset offset) ∧ ∃ limit, ClauseGives clauses.limit limit) := by
  simp only [applyClauses_eq_ok]
  refine ⟨?_, ?_, ?_⟩
  · rintro _ ⟨offset, limit, hoffset, hlimit, rfl⟩
    exact applied_slice hoffset hlimit
  · rintro ⟨_, offset, limit, hoffset, hlimit, -⟩
    exact ⟨⟨offset, hoffset⟩, limit, hlimit⟩
  · rintro ⟨⟨offset, hoffset⟩, limit, hlimit⟩
    exact ⟨_, offset, limit, hoffset, hlimit, rfl⟩

theorem executeBody_combined (bind : Ctes → H2Result Ctes) (op : SetOperator) (all : Bool)
    (left right : SetExpr)
    (clauses : Clauses) (ctes : Ctes) : executeBody bind (.setOperation op all left right) clauses ctes = (do
      let tree ← (SetExpr.setOperation op all left right).answers bind ctes
      let rows ← applyClauses tree.columns clauses tree.rows
      .ok ⟨tree.columns, rows⟩) := by
  rw [executeBody, SetExpr.answers]
  cases bind ctes with
  | error e => rfl
  | ok ctes =>
    change (executeBody bind left .none ctes >>= _) = ((left.answers bind ctes >>= _) >>= _)
    rw [executeBody_none]
    cases left.answers bind ctes with
    | error e => rfl
    | ok l =>
      change (executeBody bind right .none ctes >>= _) = ((right.answers bind ctes >>= _) >>= _)
      rw [executeBody_none]
      cases right.answers bind ctes <;> rfl

/-- A nesting of set operations is combined from the answers of its SELECTs, which are evaluated without
clauses, and the clauses are applied to the rows of the outermost operation; before that every row occurs
as often as the operations say. -/
theorem executeBody_setOperation (bind : Ctes → H2Result Ctes) (op : SetOperator) (all : Bool)
    (left right : SetExpr) (clauses : Clauses) (ctes : Ctes) :
    executeBody bind (.setOperation op all left right) clauses ctes = (do
        let tree ← (SetExpr.setOperation op all left right).answers bind ctes
        let rows ← applyClauses tree.columns clauses tree.rows
        .ok ⟨tree.columns, rows⟩) ∧
      (∀ answer, executeBody bind (.setOperation op all left right) clauses ctes = .ok answer →
        ∃ tree, (SetExpr.setOperation op all left right).answers bind ctes = .ok tree ∧
          answer.columns = tree.columns ∧ clauses.Applied tree.columns tree.rows answer.rows) ∧
      ((∃ answer, executeBody bind (.setOperation op all left right) clauses ctes = .ok answer) ↔
        (∃ tree, (SetExpr.setOperation op all left right).answers bind ctes = .ok tree) ∧
          (∃ offset, ClauseGives clauses.offset offset) ∧ ∃ limit, ClauseGives clauses.limit limit) ∧
      ∀ tree, (SetExpr.setOperation op all left right).answers bind ctes = .ok tree →
        ∀ P : Row → Prop, EquivOn Value.eqAll P → (∀ r ∈ tree.leafRows, P r) →
        ∀ x, P x → multiplicity Value.eqAll tree.rows x = tree.multiplicity x := by
  have hcombined := executeBody_combined bind op all left right clauses ctes
  refine ⟨hcombined, fun answer hanswer => ?_, ?_, fun tree _ P h hleaf x hx =>
    tree.multiplicity_rows h hleaf hx⟩
  · rw [hcombined] at hanswer
    obtain ⟨tree, htree, hanswer⟩ := H2Result.bind_eq_ok.mp hanswer
    obtain ⟨rows, hrows, hanswer⟩ := H2Result.bind_eq_ok.mp hanswer
    obtain rfl := Except.ok.inj hanswer
    exact ⟨tree, htree, rfl, applyClauses_applied.1 rows hrows⟩
  · rw [hcombined]
    constructor
    · rintro ⟨answer, hanswer⟩
      obtain ⟨tree, htree, hanswer⟩ := H2Result.bind_eq_ok.mp hanswer
      obtain ⟨rows, hrows, -⟩ := H2Result.bind_eq_ok.mp hanswer
      exact ⟨⟨tree, htree⟩, applyClauses_applied.2.mp ⟨rows, hrows⟩⟩
    · rintro ⟨⟨tree, htree⟩, hnumbers⟩
      obtain ⟨rows, hrows⟩ := applyClauses_applied.2.mpr hnumbers
      exact ⟨_, H2Result.bind_eq_ok.mpr ⟨tree, htree, H2Result.bind_eq_ok.mpr ⟨rows, hrows, rfl⟩⟩⟩

end

attribute [local instance] plainCrates plainArithmetic plainEngine

theorem equivOn_numbers : EquivOn Value.eqAll fun r => r = numberRow 1 ∨ r = numberRow 9 := by
  refine ⟨?_, ?_, ?_⟩
  · rintro x (rfl | rfl) <;> rfl
  · rintro x y (rfl | rfl) (rfl | rfl) h <;> exact h
  · rintro x y z (rfl | rfl) (rfl | rfl) (rfl | rfl) h h' <;> first | rfl | exact h | exact h'

def onesAndNine : SetExpr := .setOperation .intersect true (.select [numberRow 1, numberRow 1, numberRow 9])
  (.select [numberRow 1, numberRow 9, numberRow 9])

def onesAndNineTree : AnswerTree :=
  .node .intersect true (.leaf ⟨["a"], [numberRow 1, numberRow 1, numberRow 9]⟩)
  (.leaf ⟨["a"], [numberRow 1, numberRow 9, numberRow 9]⟩)

/-- `ORDER BY a DESC LIMIT 1`. -/
def largestOne : Clauses := ⟨[(.identifier "a", some false)], some (.value (.number "1")), none⟩

/-- `(1, 1, 9) INTERSECT ALL (1, 9, 9)` has one 1, and the 9 is the largest of its rows. -/
theorem executeBody_onesAndNine : multiplicity Value.eqAll onesAndNineTree.rows (numberRow 1) = 1 ∧
    executeBody .ok onesAndNine largestOne (fun _ => none) = .ok ⟨["a"], [numberRow 9]⟩ ∧
      largestOne.Applied ["a"] onesAndNineTree.rows [numberRow 9] := by
  have hanswers : onesAndNine.answers .ok (fun _ => none) = .ok onesAndNineTree := rfl
  have h := executeBody_setOperation .ok .intersect true (.select [numberRow 1, numberRow 1, numberRow 9])
    (.select [numberRow 1, numberRow 9, numberRow 9]) largestOne (fun _ => none)
  have hrun : executeBody .ok onesAndNine largestOne (fun _ => none) = .ok ⟨["a"], [numberRow 9]⟩ := by
    have hsorted : ([numberRow 1, numberRow 9].mergeSort fun a b =>
        compareRows ["a"] largestOne.orderBy a b != .gt) = [numberRow 9, numberRow 1] := by
      have hgt : compareRows ["a"] largestOne.orderBy (numberRow 1) (numberRow 9) = .gt := rfl
      simp [List.mergeSort, List.MergeSort.Internal.splitInTwo, hgt]
    exact h.1.trans (congrArg (fun rows : List Row => Except.ok (Answer.mk ["a"] (rows.take 1))) hsorted)
  refine ⟨(h.2.2.2 _ hanswers _ equivOn_numbers ?_ _ (Or.inl rfl)).trans rfl, hrun, ?_⟩
  · intro r hr
    simp only [onesAndNineTree, AnswerTree.leafRows, cons_append, nil_append, mem_cons,
      not_mem_nil, or_false] at hr
    grind
  · obtain ⟨tree, htree, -, happlied⟩ := h.2.1 _ hrun
    obtain rfl := Except.ok.inj (hanswers.symm.trans htree)
    exact happlied

end H2Database.Sql
