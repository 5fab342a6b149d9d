import H2Database.Sql.CteScope

/-!
# Recursive CTEs (`h2-sql/src/executor/query.rs`)

A recursive CTE is to be its anchor, and then the rows of its step over the rows that came last, until
there are none.  The loop stops after a thousand evaluations, and where an evaluation fails.
-/

namespace H2Database.Sql

open List hiding isEmpty_iff

section

variable [Crates]

/-- From the rows so far and the working table to the rows at the end, with so many evaluations of the
step. -/
inductive SqlIteration (step : List Row → H2Result Answer) (all : Bool) :
    Nat → List Row → List Row → List Row → Prop
  | done (rows : List Row) : SqlIteration step all 0 rows [] rows
  | next {n : Nat} {rows working final : List Row} {answer : Answer} (hworking : working ≠ [])
      (hstep : step working = .ok answer)
      (hrest : SqlIteration step all n (rows ++ addedRows all answer.rows rows)
        (addedRows all answer.rows rows)
        final) : SqlIteration step all (n + 1) rows working final

variable {step : List Row → H2Result Answer} {all : Bool} {n : Nat} {rows working final : List Row}

theorem SqlIteration.prefix (h : SqlIteration step all n rows working final) : rows <+: final := by
  induction h with
  | done rows => exact prefix_refl rows
  | next hworking hstep hrest ih => exact (prefix_append _ _).trans ih

theorem SqlIteration.unique {n' : Nat} {final' : List Row} (h : SqlIteration step all n rows working final)
    (h' : SqlIteration step all n' rows working final') : n = n' ∧ final = final' := by
  induction h generalizing n' final' with
  | done rows =>
    cases h' with
    | done => exact ⟨rfl, rfl⟩
    | next hworking _ _ => exact absurd rfl hworking
  | next hworking hstep hrest ih =>
    cases h' with
    | done => exact absurd rfl hworking
    | next _ hstep' hrest' =>
      rw [hstep] at hstep'
      obtain rfl := Except.ok.inj hstep'
      obtain ⟨rfl, rfl⟩ := ih hrest'
      exact ⟨rfl, rfl⟩

/-! ## The loop -/

theorem addedRows_nil (all : Bool) (rows : List Row) : addedRows all [] rows = [] := by
  cases all <;> rfl

theorem iterateRows_nil (all : Bool) (k : Nat) (rows : List Row) :
    iterateRows step all k rows [] true = some rows := by
  cases k <;> rfl

theorem iterateRows_step (k : Nat) (isRecursive : Bool) {answer : Answer} (hworking : working ≠ [])
    (hstep : step working = .ok answer) : iterateRows step all (k + 1) rows working isRecursive =
      iterateRows step all k (rows ++ addedRows all answer.rows rows)
        (addedRows all answer.rows rows) true := by
  rw [iterateRows, if_neg (by rwa [List.isEmpty_iff]), hstep]
  dsimp only
  by_cases hempty : answer.rows = []
  · rw [hempty, addedRows_nil, append_nil, iterateRows_nil]
    rfl
  · rw [if_neg (by rwa [List.isEmpty_iff])]
    cases all with
    | true => rfl
    | false =>
      rw [if_neg Bool.false_ne_true, addedRows, if_neg Bool.false_ne_true]
      split_ifs with hnew
      · rw [List.isEmpty_iff.mp hnew, append_nil, iterateRows_nil]
      · rfl

theorem iterateRows_isSome (step : List Row → H2Result Answer) (all : Bool) (k : Nat)
    (rows working : List Row) :
    ∃ rows', iterateRows step all k rows working true = some rows' := by
  induction k generalizing rows working with
  | zero => exact ⟨rows, rfl⟩
  | succ k ih =>
    by_cases hworking : working = []
    · rw [hworking]
      exact ⟨rows, iterateRows_nil all (k + 1) rows⟩
    · cases hstep : step working with
      | error e => exact ⟨rows, by rw [iterateRows, if_neg (by rwa [List.isEmpty_iff]), hstep, if_pos rfl]⟩
      | ok answer =>
        rw [iterateRows_step k true hworking hstep]
        exact ih _ _

theorem SqlIteration.of_zero (h : SqlIteration step all 0 rows working final) :
    working = [] ∧ final = rows := by
  cases h
  exact ⟨rfl, rfl⟩

theorem SqlIteration.of_succ (h : SqlIteration step all (n + 1) rows working final) : working ≠ [] := by
  cases h
  assumption

theorem iterateRows_of_iteration (h : SqlIteration step all n rows working final) {k : Nat} (hk : n ≤ k + 1) :
    iterateRows step all k rows working true = some final := by
  induction h generalizing k with
  | done rows => exact iterateRows_nil all k rows
  | @next n rows working final answer hworking hstep hrest ih =>
    cases k with
    | zero =>
      obtain rfl : n = 0 := by omega
      obtain ⟨hadded, rfl⟩ := hrest.of_zero
      rw [iterateRows, if_pos rfl, hadded, append_nil]
    | succ k => rw [iterateRows_step k true hworking hstep, ih (by omega)]

variable {rows' : List Row}

theorem iterateRows_short (h : SqlIteration step all n rows working final) {k : Nat} (hk : k + 1 < n)
    (hloop : iterateRows step all k rows working true = some rows') : rows'.length < final.length := by
  induction h generalizing k with
  | done rows => omega
  | @next n rows working final answer hworking hstep hrest ih =>
    cases k with
    | zero =>
      rw [iterateRows, if_pos rfl, Option.some.injEq] at hloop
      rw [← hloop]
      have hlonger := hrest.prefix.length_le
      obtain ⟨m, rfl⟩ : ∃ m, n = m + 1 := ⟨n - 1, by omega⟩
      have := length_pos_of_ne_nil hrest.of_succ
      rw [length_append] at hlonger
      omega
    | succ k =>
      rw [iterateRows_step k true hworking hstep] at hloop
      exact ih (by omega) hloop

theorem iterateRows_extends {k : Nat} {isRecursive : Bool}
    (hloop : iterateRows step all k rows working isRecursive = some rows') : rows <+: rows' := by
  induction k generalizing rows working isRecursive with
  | zero =>
    rw [iterateRows] at hloop
    split_ifs at hloop
    exact (Option.some.inj hloop) ▸ prefix_refl rows
  | succ k ih =>
    by_cases hworking : working = []
    · rw [iterateRows, if_pos (List.isEmpty_iff.mpr hworking)] at hloop
      split_ifs at hloop
      exact (Option.some.inj hloop) ▸ prefix_refl rows
    · cases hstep : step working with
      | error e =>
        rw [iterateRows, if_neg (by rwa [List.isEmpty_iff]), hstep] at hloop
        dsimp only at hloop
        split_ifs at hloop
        exact (Option.some.inj hloop) ▸ prefix_refl rows
      | ok answer =>
        rw [iterateRows_step k isRecursive hworking hstep] at hloop
        exact (prefix_append _ _).trans (ih hloop)

theorem distinctRows_idem (seen rows : List Row) :
    distinctRows seen (distinctRows seen rows) = distinctRows seen rows := by
  induction rows generalizing seen with
  | nil => rfl
  | cons r rows ih =>
    rw [distinctRows]
    split_ifs with hseen
    · exact ih seen
    · rw [distinctRows, if_neg hseen, ih]

theorem SqlIteration.distinct (h : SqlIteration step false n rows working final)
    (hrows : distinctRows [] rows = rows) : distinctRows [] final = final := by
  induction h with
  | done rows => exact hrows
  | next hworking hstep hrest ih =>
    refine ih ?_
    rw [distinctRows_append, hrows, nil_append, addedRows, if_neg Bool.false_ne_true, distinctRows_idem]

theorem distinctRows_of_extends (hfront : rows <+: rows') (h : distinctRows [] rows' = rows') :
    distinctRows [] rows = rows := by
  obtain ⟨others, rfl⟩ := hfront
  rw [distinctRows_append] at h
  have hlength := congrArg List.length h
  rw [length_append, length_append] at hlength
  have hfirst := distinctRows_sublist [] rows
  have hothers := (distinctRows_sublist ([] ++ distinctRows [] rows) others).length_le
  exact hfirst.eq_of_length (Nat.le_antisymm hfirst.length_le (by omega))

end

/-! ## The CTE -/

section

variable [QueryEngine] [Crates] [Arithmetic] (name : String) (columns : List String) (all : Bool)
  (left right : SetExpr) (ctes : Ctes)

def stepOf (anchor : Answer) (working : List Row) : H2Result Answer :=
  executeBody (bindAll .nil) right .none (ctes.insert name (cteTable name columns anchor) working)

def bindRecursive : H2Result Ctes :=
  bindAll (.cons name columns .nil (.setOperation .union all left right) .none .nil) ctes

def IterationOf (final : List Row) : Prop :=
  ∃ anchor n, executeBody (bindAll .nil) left .none ctes = .ok anchor ∧
    SqlIteration (stepOf name columns right ctes anchor) all n (addedRows all anchor.rows [])
      (addedRows all anchor.rows []) final

/-- The CTE has the rows of a complete iteration, and if there is none its binding fails. -/
def ComputesIteration : Prop :=
  (∀ final, IterationOf name columns all left right ctes final →
      ∃ table, bindRecursive name columns all left right ctes = .ok (ctes.insert name table final)) ∧
    ((¬ ∃ final, IterationOf name columns all left right ctes final) →
      ∃ e, bindRecursive name columns all left right ctes = .error e)

/-- The anchor has rows, none of them twice under UNION, and the iteration is complete after at most 1001
evaluations of the step; or it has none, and the step without the CTE has none; or the step fails over the
anchor, and it fails without the CTE. -/
def Iterates : Prop :=
  ∀ anchor, executeBody (bindAll .nil) left .none ctes = .ok anchor →
    (anchor.rows = [] → ∃ answer, executeBody (bindAll .nil) right .none ctes = .ok answer ∧
      answer.rows = []) ∧
      (anchor.rows ≠ [] → addedRows all anchor.rows [] = anchor.rows ∧
        ((∃ e, stepOf name columns right ctes anchor anchor.rows = .error e) →
          ∃ e, executeBody (bindAll .nil) right .none ctes = .error e) ∧
        ((∃ answer, stepOf name columns right ctes anchor anchor.rows = .ok answer) →
          ∃ n final, n ≤ 1001 ∧
            SqlIteration (stepOf name columns right ctes anchor) all n anchor.rows anchor.rows final))

variable {name} {columns} {all} {left} {right} {ctes} {anchor : Answer}

theorem bindRecursive_error {e : H2Error} (h : executeBody (bindAll .nil) left .none ctes = .error e) :
    bindRecursive name columns all left right ctes = .error e := by
  rw [bindRecursive, bindAll, recursiveCte, h, executeBody]
  change (executeBody (bindAll .nil) left .none ctes >>= _) >>= _ = _
  rw [h]
  rfl

theorem bindRecursive_of_loop (h : executeBody (bindAll .nil) left .none ctes = .ok anchor) {rows : List Row}
    (hloop : iterateRows (stepOf name columns right ctes anchor) all 1000 anchor.rows anchor.rows false
      = some rows) :
    bindRecursive name columns all left right ctes =
      .ok (ctes.insert name (cteTable name columns anchor) rows) := by
  have hcte : recursiveCte (bindAll .nil) name columns (.setOperation .union all left right) .none ctes =
      some (cteTable name columns anchor, rows) := by
    rw [recursiveCte, h]
    exact congrArg (Option.map _) hloop
  rw [bindRecursive, bindAll, hcte]
  rfl

theorem bindRecursive_of_none (h : executeBody (bindAll .nil) left .none ctes = .ok anchor)
    (hloop : iterateRows (stepOf name columns right ctes anchor) all 1000 anchor.rows anchor.rows false
      = none) :
    bindRecursive name columns all left right ctes =
      (executeBody (bindAll .nil) right .none ctes).map fun r =>
        ctes.insert name (cteTable name columns ⟨anchor.columns, combineRows .union all anchor.rows r.rows⟩)
          (combineRows .union all anchor.rows r.rows) := by
  have hcte : recursiveCte (bindAll .nil) name columns
      (.setOperation .union all left right) .none ctes = none := by
    rw [recursiveCte, h]
    exact congrArg (Option.map _) hloop
  rw [bindRecursive, bindAll, hcte, executeBody]
  change ((executeBody (bindAll .nil) left .none ctes >>= _) >>= _) = _
  rw [h]
  change ((executeBody (bindAll .nil) right .none ctes >>= _) >>= _) = _
  cases executeBody (bindAll .nil) right .none ctes <;> rfl

omit [Crates] [Arithmetic] in
theorem Ctes.insert_rows_inj {table table' : TableDef} {rows rows' : List Row}
    (h : ctes.insert name table rows = ctes.insert name table' rows') : rows = rows' := by
  have hentry := congrFun h (QueryEngine.toLowercase name)
  rw [Ctes.insert_self, Ctes.insert_self] at hentry
  exact (Prod.mk.inj (Option.some.inj hentry)).2

section

variable (h : executeBody (bindAll .nil) left .none ctes = .ok anchor)

include h

theorem iterationOf_iff (final : List Row) :
    IterationOf name columns all left right ctes final ↔
      ∃ n, SqlIteration (stepOf name columns right ctes anchor) all n (addedRows all anchor.rows [])
        (addedRows all anchor.rows []) final := by
  constructor
  · rintro ⟨anchor', n, hanchor, hiteration⟩
    rw [h] at hanchor
    obtain rfl := Except.ok.inj hanchor
    exact ⟨n, hiteration⟩
  · rintro ⟨n, hiteration⟩
    exact ⟨anchor, n, h, hiteration⟩

theorem computes_iff_of_empty (hempty : anchor.rows = []) :
    ComputesIteration name columns all left right ctes ↔
      ∃ answer, executeBody (bindAll .nil) right .none ctes = .ok answer ∧ answer.rows = [] := by
  have hiteration : ∀ final, IterationOf name columns all left right ctes final ↔ final = [] := by
    intro final
    rw [iterationOf_iff h, hempty, addedRows_nil]
    constructor
    · rintro ⟨n, hn⟩
      exact (hn.unique (.done [])).2
    · rintro rfl
      exact ⟨0, .done []⟩
  have hloop : iterateRows
      (stepOf name columns right ctes anchor) all 1000 anchor.rows anchor.rows false = none := by
    rw [hempty]
    rfl
  have hcombined : ∀ rows, combineRows .union all anchor.rows rows = [] ↔ rows = [] := by
    intro rows
    rw [hempty]
    cases all with
    | true => exact Iff.rfl
    | false =>
      cases rows with
      | nil => exact Iff.rfl
      | cons r rows => exact iff_of_false (cons_ne_nil _ _) (cons_ne_nil _ _)
  have hsome : ∃ final, IterationOf name columns all left right ctes final := ⟨[], (hiteration []).mpr rfl⟩
  constructor
  · rintro ⟨hrows, -⟩
    obtain ⟨table, hbind⟩ := hrows [] ((hiteration []).mpr rfl)
    rw [bindRecursive_of_none h hloop] at hbind
    obtain ⟨answer, hanswer, hinsert⟩ := H2Result.map_eq_ok.mp hbind
    exact ⟨answer, hanswer, (hcombined _).mp (Ctes.insert_rows_inj hinsert)⟩
  · rintro ⟨answer, hanswer, hrows⟩
    refine ⟨fun final hfinal => ?_, fun hnone => absurd hsome hnone⟩
    rw [(hiteration final).mp hfinal, bindRecursive_of_none h hloop, hanswer]
    refine ⟨cteTable name columns ⟨anchor.columns, []⟩, ?_⟩
    rw [Except.map, (hcombined _).mpr hrows]

theorem computes_iff_of_failure
    (hne : anchor.rows ≠ []) (hstart : addedRows all anchor.rows [] = anchor.rows) {e : H2Error}
    (hfails : stepOf name columns right ctes anchor anchor.rows = .error e) :
    ComputesIteration name columns all left right ctes ↔
      ∃ e, executeBody (bindAll .nil) right .none ctes = .error e := by
  have hnone : ¬ ∃ final, IterationOf name columns all left right ctes final := by
    rintro ⟨final, hfinal⟩
    obtain ⟨n, hn⟩ := (iterationOf_iff h final).mp hfinal
    rw [hstart] at hn
    cases n with
    | zero => exact hne hn.of_zero.1
    | succ n =>
      cases hn with
      | next _ hstep _ =>
        rw [hfails] at hstep
        cases hstep
  have hloop : iterateRows
      (stepOf name columns right ctes anchor) all 1000 anchor.rows anchor.rows false = none := by
    rw [iterateRows, if_neg (by rwa [List.isEmpty_iff]), hfails]
    rfl
  rw [ComputesIteration, bindRecursive_of_none h hloop]
  constructor
  · rintro ⟨-, herror⟩
    obtain ⟨e', he'⟩ := herror hnone
    cases hright : executeBody (bindAll .nil) right .none ctes with
    | error e'' => exact ⟨e'', rfl⟩
    | ok answer =>
      rw [hright] at he'
      cases he'
  · rintro ⟨e', he'⟩
    exact ⟨fun final hfinal => absurd ⟨final, hfinal⟩ hnone, fun _ => ⟨e', by rw [he']; rfl⟩⟩

theorem computes_iff_of_step
    (hne : anchor.rows ≠ []) {answer : Answer}
    (hstep : stepOf name columns right ctes anchor anchor.rows = .ok answer) :
    ComputesIteration name columns all left right ctes ↔ addedRows all anchor.rows [] = anchor.rows ∧
      ∃ n final, n ≤ 1001 ∧ SqlIteration
        (stepOf name columns right ctes anchor) all n anchor.rows anchor.rows final := by
  have hflag : iterateRows (stepOf name columns right ctes anchor) all 1000 anchor.rows anchor.rows false =
      iterateRows (stepOf name columns right ctes anchor) all 1000 anchor.rows anchor.rows true := by
    rw [iterateRows_step 999 false hne hstep, iterateRows_step 999 true hne hstep]
  obtain ⟨rows, hrows⟩ :=
    iterateRows_isSome (stepOf name columns right ctes anchor) all 1000 anchor.rows anchor.rows
  have hbind := bindRecursive_of_loop h (hflag.trans hrows)
  rw [ComputesIteration, hbind]
  constructor
  · rintro ⟨hcomputes, herror⟩
    have hsome : ∃ final, IterationOf name columns all left right ctes final := by
      by_contra hnone
      obtain ⟨e, he⟩ := herror hnone
      cases he
    obtain ⟨final, hfinal⟩ := hsome
    obtain ⟨table, htable⟩ := hcomputes final hfinal
    obtain rfl := Ctes.insert_rows_inj (Except.ok.inj htable)
    obtain ⟨n, hn⟩ := (iterationOf_iff h rows).mp hfinal
    have hstart : addedRows all anchor.rows [] = anchor.rows := by
      cases all with
      | true => rfl
      | false =>
        exact distinctRows_of_extends (iterateRows_extends hrows) (hn.distinct (distinctRows_idem [] anchor.rows))
    rw [hstart] at hn
    refine ⟨hstart, n, rows, ?_, hn⟩
    by_contra hlong
    have := iterateRows_short hn (show 1000 + 1 < n by omega) hrows
    omega
  · rintro ⟨hstart, n, final, hle, hn⟩
    rw [iterateRows_of_iteration hn (by omega)] at hrows
    obtain rfl := Option.some.inj hrows
    have hfinal : ∀ final', IterationOf name columns all left right ctes final' → final' = final := by
      intro final' hfinal'
      obtain ⟨n', hn'⟩ := (iterationOf_iff h final').mp hfinal'
      rw [hstart] at hn'
      exact (hn'.unique hn).2
    refine ⟨fun final' hfinal' => ⟨cteTable name columns anchor, by rw [hfinal final' hfinal']⟩,
      fun hnone => absurd ⟨final, ?_⟩ hnone⟩
    rw [iterationOf_iff h, hstart]
    exact ⟨n, hn⟩

end

/-- A recursive CTE is its iteration if it `Iterates`; and unless its step fails over an anchor that has a row
twice under UNION, it is its iteration only then. -/
theorem computesIteration_of_iterates :
    (Iterates name columns all left right ctes → ComputesIteration name columns all left right ctes) ∧
      ((∀ anchor, executeBody (bindAll .nil) left .none ctes = .ok anchor → anchor.rows ≠ [] →
          (∃ e, stepOf name columns right ctes anchor anchor.rows = .error e) →
          addedRows all anchor.rows [] = anchor.rows) →
        ComputesIteration name columns all left right ctes → Iterates name columns all left right ctes) := by
  constructor
  · intro hiterates
    cases h : executeBody (bindAll .nil) left .none ctes with
    | error e =>
      refine ⟨?_, fun _ => ⟨e, bindRecursive_error h⟩⟩
      rintro final ⟨anchor, n, hanchor, -⟩
      rw [h] at hanchor
      cases hanchor
    | ok anchor =>
      obtain ⟨hempty, hrows⟩ := hiterates anchor h
      by_cases hne : anchor.rows = []
      · exact (computes_iff_of_empty h hne).mpr (hempty hne)
      · obtain ⟨hstart, hfails, hsucceeds⟩ := hrows hne
        cases hstep : stepOf name columns right ctes anchor anchor.rows with
        | error e => exact (computes_iff_of_failure h hne hstart hstep).mpr (hfails ⟨e, hstep⟩)
        | ok answer => exact (computes_iff_of_step h hne hstep).mpr ⟨hstart, hsucceeds ⟨answer, hstep⟩⟩
  · intro hcorner hcomputes anchor h
    refine ⟨fun hempty => (computes_iff_of_empty h hempty).mp hcomputes, fun hne => ?_⟩
    cases hstep : stepOf name columns right ctes anchor anchor.rows with
    | error e =>
      have hstart := hcorner anchor h hne ⟨e, hstep⟩
      refine ⟨hstart, fun _ => (computes_iff_of_failure h hne hstart hstep).mp hcomputes, ?_⟩
      rintro ⟨answer, hanswer⟩
      cases hanswer
    | ok answer =>
      obtain ⟨hstart, hiteration⟩ := (computes_iff_of_step h hne hstep).mp hcomputes
      refine ⟨hstart, ?_, fun _ => hiteration⟩
      rintro ⟨e, he⟩
      cases he

end

/-- A SELECT has its own rows, or it is `SELECT a FROM c WHERE FALSE`. -/
@[reducible] def cteEngine : QueryEngine where
  Select := Option (List Row)
  toLowercase := id
  orderKey _ _ _ := .null
  select s _ ctes :=
    s.elim (if (ctes "c").isSome then .ok ⟨["a"], []⟩ else .error (.catalog "Table 'c' not found"))
      fun rows => .ok ⟨["a"], rows⟩
  refers s name := s = none ∧ name = "c"
  select_congr s clauses ctes ctes' h := by
    cases s with
    | some rows => rfl
    | none => simp only [h "c" ⟨rfl, rfl⟩]

attribute [local instance] plainCrates plainArithmetic

section

attribute [local instance] cteEngine

/-- A UNION with a row twice in its anchor keeps both. -/
theorem unionAnchor_repeats : (SetExpr.select none).refers "c" ∧
    ¬ ComputesIteration "c" [] false (.select (some [numberRow 1, numberRow 1])) (.select none)
      (fun _ => none) := by
  refine ⟨⟨rfl, rfl⟩, fun hcomputes => ?_⟩
  have hanchor : executeBody (bindAll .nil) (.select (some [numberRow 1, numberRow 1])) .none
    (fun _ => none) =
      .ok ⟨["a"], [numberRow 1, numberRow 1]⟩ := rfl
  have hstart := ((computes_iff_of_step hanchor (cons_ne_nil _ _) rfl).mp hcomputes).1
  exact absurd (congrArg List.length hstart) (by decide)

end

/-- `SELECT a + 1 FROM c WHERE a < 3` of one row. -/
def successor : Row → Option Row
  | [.bigInt n] => if n < 3 then some [.bigInt (n + 1)] else none
  | _ => none

/-- A SELECT has its own rows, or the successors of those of `c`. -/
@[reducible] def countingEngine : QueryEngine where
  Select := Option (List Row)
  toLowercase := id
  orderKey _ _ _ := .null
  select s _ ctes :=
    s.elim (((ctes "c").elim (.error (.catalog "Table 'c' not found")) fun c =>
      .ok ⟨["a"], c.2.filterMap successor⟩)) fun rows => .ok ⟨["a"], rows⟩
  refers s name := s = none ∧ name = "c"
  select_congr s clauses ctes ctes' h := by
    cases s with
    | some rows => rfl
    | none => simp only [h "c" ⟨rfl, rfl⟩]

attribute [local instance] countingEngine

/-- Three evaluations of the step over the row 1, of which the last gives nothing. -/
theorem computesIteration_numbers :
    ComputesIteration "c" [] false (.select (some [numberRow 1])) (.select none) (fun _ => none) := by
  refine computesIteration_of_iterates.1 fun anchor hanchor => ?_
  obtain rfl := Except.ok.inj hanchor
  refine ⟨fun hempty => absurd hempty (cons_ne_nil _ _),
    fun _ => ⟨rfl, ?_, fun _ => ⟨3, [numberRow 1, numberRow 2, numberRow 3], by omega, ?_⟩⟩⟩
  · rintro ⟨e, he⟩
    cases he
  · apply SqlIteration.next (cons_ne_nil _ _) rfl
    apply SqlIteration.next (cons_ne_nil _ _) rfl
    apply SqlIteration.next (cons_ne_nil _ _) rfl
    exact .done _

end H2Database.Sql
