import H2Database.Reasoning.Grouping
import H2Database.Reasoning.Ranking
import H2Database.Sql.Expression

/-!
# Window functions (`h2-sql/src/executor/window.rs`)

The rows are divided into partitions, each of which is sorted; the values of a function are computed along a
partition and written to the places of its rows.  How an expression is evaluated is a parameter.
-/

namespace H2Database.Sql

open Reasoning List

/-! ## The functions -/

structure WindowSpec (E : Type) where
  partitionBy : List E
  orderBy : List (E × Option Bool)

/-- A call: its name in upper case, its text, what stands behind OVER unless that is a name, and its arguments
unless they are no list.  An argument that is no expression is `none`. -/
structure WindowFunction (E : Type) where
  name : String
  text : String
  overClause : Option (WindowSpec E)
  args : Option (List (Option E))

variable {E : Type} (evaluate : E → Row → H2Result Value)

def keyOf (e : E) (row : Row) : Value := (evaluate e row).toOption.getD .null

def getFuncArgExpr : Option E → H2Result E
  | some e => .ok e
  | none => .error (.execution "Unsupported function argument in window function")

namespace WindowSpec

variable (spec : WindowSpec E)

def partitionKey (row : Row) : List Value := spec.partitionBy.map fun e => keyOf evaluate e row

section

variable [Crates]

/-- The partitions of the rows from the number `i` on, behind those of the rows before. -/
def partitionFrom : Nat → List Row → List (List Value × List Nat) → List (List Value × List Nat)
  | _, [], partitions => partitions
  | i, row :: rows, partitions =>
    partitionFrom (i + 1) rows (addToGroup Value.eqAll (spec.partitionKey evaluate row) i partitions)

end

section

variable [Crates] [Arithmetic]

def compareOver : List (E × Option Bool) → Row → Row → Ordering
  | [], _, _ => .eq
  | (e, asc) :: exprs, a, b =>
    let ord := ((keyOf evaluate e a).partialCmp (keyOf evaluate e b)).getD .eq
    let ord := if asc.getD true then ord else ord.swap
    if ord ≠ .eq then ord else compareOver exprs a b

def compareRows (rows : List Row) (i j : Nat) : Ordering :=
  compareOver evaluate spec.orderBy (rows[i]?.getD []) (rows[j]?.getD [])

def sortIndices (rows : List Row) (indices : List Nat) : List Nat :=
  if spec.orderBy.isEmpty then indices else stableSort (spec.compareRows evaluate rows) indices

def isSame (rows : List Row) (prev curr : Nat) : Bool :=
  spec.orderBy.isEmpty || spec.orderBy.all fun o =>
    (keyOf evaluate o.1 (rows[curr]?.getD [])).eq (keyOf evaluate o.1 (rows[prev]?.getD []))

end

end WindowSpec

/-! ## The values along a partition -/

/-- The rank is told by the place of a row and the rank so far, wherever a row differs from the one before. -/
def rankLoop (isSame : Nat → Nat → Bool) (next : Nat → Nat → Nat) :
    Nat → Nat → Option Nat → List Nat → List Nat
  | _, _, _, [] => []
  | i, rank, prev, row :: rest =>
    let rank := if prev.all fun p => isSame p row then rank else next i rank
    rank :: rankLoop isSame next (i + 1) rank (some row) rest

def rankValues (ranks : List Nat) : List Value := ranks.map fun n => .bigInt (Int64.ofNat n)

/-- The offset of LEAD and LAG is evaluated on an empty row; a negative one is 0. -/
def shiftOffset (name : String) (args : List (Option E)) : H2Result Nat :=
  match args[1]? with
  | none => .ok 1
  | some arg => do
    let e ← getFuncArgExpr arg
    match ← evaluate e [] with
    | .tinyInt n => .ok n.toInt.toNat
    | .smallInt n => .ok n.toInt.toNat
    | .integer n => .ok n.toInt.toNat
    | .bigInt n => .ok n.toInt.toNat
    | _ => .error (.execution s!"{name} offset must be an integer")

def shiftDefault (args : List (Option E)) : H2Result Value :=
  match args[2]? with
  | none => .ok .null
  | some arg => do
    let e ← getFuncArgExpr arg
    evaluate e []

def firstArg (args : List (Option E)) (message : String) : H2Result E :=
  match args with
  | [] => .error (.execution message)
  | arg :: _ => getFuncArgExpr arg

/-- LEAD and LAG: the argument on the row at the place that `target` says, or the default. -/
def shiftValues (e : E) (default : Value) (target : Nat → Option Nat) (rows : List Row) (group : List Nat) :
    H2Result (List Value) :=
  (List.range group.length).mapM fun pos =>
    match (target pos).bind fun place => group[place]? with
    | some i => evaluate e (rows[i]?.getD [])
    | none => .ok default

/-- `n as usize`. -/
def asUsize (n : Int) : Nat := (n % 18446744073709551616).toNat

def bucketCount : Value → H2Result Nat
  | .tinyInt n => .ok (asUsize n.toInt)
  | .smallInt n => .ok (asUsize n.toInt)
  | .integer n => .ok (asUsize n.toInt)
  | .bigInt n => .ok (asUsize n.toInt)
  | _ => .error (.execution "NTILE argument must be an integer")

def ntileBuckets (args : List (Option E)) : H2Result Nat := do
  let e ← firstArg args "NTILE requires 1 argument"
  let v ← evaluate e []
  let buckets ← bucketCount v
  if buckets = 0 then .error (.execution "NTILE argument must be greater than 0") else .ok buckets

/-- The bucket of the row at a place among `n` rows. -/
def ntileBucket (n buckets pos : Nat) : Nat :=
  let baseSize := n / buckets
  let remainder := n % buckets
  if baseSize = 0 then pos + 1
  else if pos < remainder * (baseSize + 1) then pos / (baseSize + 1) + 1
  else
    let posAfter := pos - remainder * (baseSize + 1)
    remainder + posAfter / baseSize + 1

namespace WindowFunction

section

variable [Crates] [Arithmetic] (func : WindowFunction E)

def groupValues (spec : WindowSpec E) (args : List (Option E)) (rows : List Row) (group : List Nat) :
    H2Result (List Value) :=
  if func.name = "ROW_NUMBER" then .ok (rankValues ((List.range group.length).map (· + 1)))
  else if func.name = "RANK" then
    .ok (rankValues (rankLoop (spec.isSame evaluate rows) (fun i _ => i + 1) 0 1 none group))
  else if func.name = "DENSE_RANK" then
    .ok (rankValues (rankLoop (spec.isSame evaluate rows) (fun _ rank => rank + 1) 0 1 none group))
  else if func.name = "LEAD" then do
    let e ← firstArg args "LEAD requires at least 1 argument"
    let offset ← shiftOffset evaluate "LEAD" args
    let default ← shiftDefault evaluate args
    shiftValues evaluate e default (fun pos => some (pos + offset)) rows group
  else if func.name = "LAG" then do
    let e ← firstArg args "LAG requires at least 1 argument"
    let offset ← shiftOffset evaluate "LAG" args
    let default ← shiftDefault evaluate args
    shiftValues evaluate e default (fun pos => if offset ≤ pos then some (pos - offset) else none) rows group
  else if func.name = "FIRST_VALUE" then do
    let e ← firstArg args "FIRST_VALUE requires 1 argument"
    shiftValues evaluate e .null (fun _ => some 0) rows group
  else if func.name = "LAST_VALUE" then do
    let e ← firstArg args "LAST_VALUE requires 1 argument"
    shiftValues evaluate e .null (fun _ => some (group.length - 1)) rows group
  else if func.name = "NTILE" then do
    let buckets ← ntileBuckets evaluate args
    .ok (rankValues ((List.range group.length).map (ntileBucket group.length buckets)))
  else .error (.execution s!"Unsupported window function: {func.name}")

/-- A function on all rows: the values of a partition are written to the places of its rows. -/
def compute (rows : List Row) : H2Result (List Value) :=
  match func.overClause, func.args with
  | none, _ => .error (.execution "Named window specifications not supported yet")
  | some _, none => .error (.execution "Invalid function args")
  | some spec, some args =>
    (spec.partitionFrom evaluate 0 rows []).foldlM
      (fun results partition => do
        let group := spec.sortIndices evaluate rows partition.2
        let values ← func.groupValues evaluate spec args rows group
        .ok (scatter results group values))
      (List.replicate rows.length .null)

end

end WindowFunction

section

variable [Crates] [Arithmetic]

def computeWindowFunctions : List (WindowFunction E) → List Row → H2Result (String → Option (List Value))
  | funcs, rows => funcs.foldlM
    (fun results func => (func.compute evaluate rows).map fun values =>
      fun text => if text = func.text then some values else results text)
    fun _ => none

end

/-! ## Orders -/

/-- The integer that a value holds. -/
def Value.heldInt : Value → Option Int
  | .tinyInt n => some n.toInt
  | .smallInt n => some n.toInt
  | .integer n => some n.toInt
  | .bigInt n => some n.toInt
  | _ => none

section

variable {E : Type} (evaluate : E → Row → H2Result Value)

/-- The value of a key on a row; a key that fails counts as NULL. -/
inductive KeyValue (e : E) (row : Row) : Value → Prop
  | value {v : Value} (h : evaluate e row = .ok v) : KeyValue e row v
  | failed {error : H2Error} (h : evaluate e row = .error error) : KeyValue e row .null

variable {evaluate} {e : E} {row : Row} {v : Value}

theorem keyValue_iff : KeyValue evaluate e row v ↔ keyOf evaluate e row = v := by
  rw [keyOf]
  constructor
  · rintro (h | h) <;> rw [h] <;> rfl
  · intro h
    cases heval : evaluate e row with
    | ok w =>
      rw [heval] at h
      obtain rfl : w = v := h
      exact .value heval
    | error error =>
      rw [heval] at h
      obtain rfl : Value.null = v := h
      exact .failed heval

theorem getD_mem {rows : List Row} {i : Nat} (hi : i < rows.length) : rows[i]?.getD [] ∈ rows := by
  rw [List.getElem?_eq_getElem hi, Option.getD_some]
  exact getElem_mem hi

variable [Crates] (evaluate)

/-- The rows agree on a key. -/
def KeyTied (e : E) (a b : Row) : Prop :=
  ∃ v w, KeyValue evaluate e a v ∧ KeyValue evaluate e b w ∧ v.eq w = true

def Ties (orderBy : List (E × Option Bool)) (a b : Row) : Prop := ∀ o ∈ orderBy, KeyTied evaluate o.1 a b

variable [Arithmetic]

/-- The value of a key is smaller on the first row, or larger where the key is descending. -/
def KeyBefore (o : E × Option Bool) (a b : Row) : Prop := ∃ v w, KeyValue evaluate o.1 a v ∧
  KeyValue evaluate o.1 b w ∧ v.partialCmp w = some (if o.2 = some false then .gt else .lt)

/-- The rows differ, and the first key on which they do puts the one before the other. -/
def Precedes (orderBy : List (E × Option Bool)) (a b : Row) : Prop := ∃ front o back,
  orderBy = front ++ o :: back ∧ (∀ o' ∈ front, KeyTied evaluate o'.1 a b) ∧ KeyBefore evaluate o a b

/-- Values that are totally preordered, and equal exactly when they compare equal. -/
structure OrderedValues (P : Value → Prop) : Prop where
  preorder : TotalPreorderOn (fun a b : Value => (a.partialCmp b).getD .eq) P
  compared : ∀ {a b}, P a → P b → (a.partialCmp b).isSome = true
  eq_iff : ∀ {a b}, P a → P b → (a.eq b = true ↔ a.partialCmp b = some .eq)

variable {evaluate} {P : Value → Prop} {spec : WindowSpec E} {rows : List Row} {a b : Row}

theorem OrderedValues.mono {Q : Value → Prop} (h : OrderedValues P) (hQ : ∀ v, Q v → P v) : OrderedValues Q :=
  ⟨h.preorder.comap (f := id) hQ, fun ha hb => h.compared (hQ _ ha) (hQ _ hb),
    fun ha hb => h.eq_iff (hQ _ ha) (hQ _ hb)⟩

theorem OrderedValues.eq_iff_getD (h : OrderedValues P) {a b : Value} (ha : P a) (hb : P b) :
    a.eq b = true ↔ (a.partialCmp b).getD .eq = .eq := by
  rw [h.eq_iff ha hb]
  obtain ⟨ord, hord⟩ := Option.isSome_iff_exists.mp (h.compared ha hb)
  rw [hord, Option.getD_some, Option.some.injEq]

variable (evaluate rows) in
def OrderedOn (e : E) : Prop := OrderedValues fun v => ∃ row ∈ rows, KeyValue evaluate e row v

theorem orderedOn_iff : OrderedOn evaluate rows e ↔
    OrderedValues fun v => ∃ row ∈ rows, keyOf evaluate e row = v := by simp only [OrderedOn, keyValue_iff]

namespace WindowSpec

variable (evaluate) in
def compareKey (o : E × Option Bool) (a b : Row) : Ordering :=
  let ord := ((keyOf evaluate o.1 a).partialCmp (keyOf evaluate o.1 b)).getD .eq
  if o.2.getD true then ord else ord.swap

theorem compareOver_eq_lexCompare (exprs : List (E × Option Bool)) :
    compareOver evaluate exprs = lexCompare (compareKey evaluate) exprs := by
  have hthen : ∀ first rest : Ordering, (if first ≠ .eq then first else rest) = first.then rest := by
    intro first rest
    cases first <;> rfl
  induction exprs with
  | nil => rfl
  | cons o exprs ih =>
    funext a b
    rw [compareOver, lexCompare, ← ih]
    exact hthen _ _

variable {o : E × Option Bool}

theorem preorder_compareKey (h : OrderedOn evaluate rows o.1) :
    TotalPreorderOn (compareKey evaluate o) fun row => row ∈ rows := by
  have hkey := (orderedOn_iff.mp h).preorder.comap (f := keyOf evaluate o.1) (Q := fun row => row ∈ rows)
    fun row hrow => ⟨row, hrow, rfl⟩
  unfold compareKey
  cases o.2.getD true with
  | true => exact hkey
  | false => exact hkey.reversed

theorem compareKey_eq_iff (h : OrderedOn evaluate rows o.1) (ha : a ∈ rows) (hb : b ∈ rows) :
    compareKey evaluate o a b = .eq ↔ KeyTied evaluate o.1 a b := by
  have heq := (orderedOn_iff.mp h).eq_iff_getD ⟨a, ha, rfl⟩ ⟨b, hb, rfl⟩
  have htied : KeyTied evaluate o.1 a b ↔ (keyOf evaluate o.1 a).eq (keyOf evaluate o.1 b) = true := by
    simp only [KeyTied, keyValue_iff, exists_and_left, exists_eq_left']
  rw [htied, heq, compareKey]
  cases o.2.getD true
  · exact Ordering.swap_eq_eq
  · exact Iff.rfl

theorem compareKey_lt_iff (h : OrderedOn evaluate rows o.1) (ha : a ∈ rows) (hb : b ∈ rows) :
    compareKey evaluate o a b = .lt ↔ KeyBefore evaluate o a b := by
  have hbefore : KeyBefore evaluate o a b ↔ (keyOf evaluate o.1 a).partialCmp (keyOf evaluate o.1 b) =
      some (if o.2 = some false then .gt else .lt) := by
    simp only [KeyBefore, keyValue_iff, exists_and_left, exists_eq_left']
  obtain ⟨ord, hord⟩ := Option.isSome_iff_exists.mp
    ((orderedOn_iff.mp h).compared (a := keyOf evaluate o.1 a) (b :=
      keyOf evaluate o.1 b) ⟨a, ha, rfl⟩ ⟨b, hb, rfl⟩)
  rw [hbefore, compareKey, hord]
  cases o.2 with
  | none => cases ord <;> decide
  | some asc => cases asc <;> cases ord <;> decide

variable {exprs : List (E × Option Bool)}

section

variable (h : ∀ o ∈ exprs, OrderedOn evaluate rows o.1)

include h

theorem compareOver_eq_iff
    (ha : a ∈ rows) (hb : b ∈ rows) : compareOver evaluate exprs a b = .eq ↔ Ties evaluate exprs a b := by
  rw [compareOver_eq_lexCompare, lexCompare_eq_iff]
  exact forall₂_congr fun o ho => compareKey_eq_iff (h o ho) ha hb

theorem compareOver_lt_iff
    (ha : a ∈ rows) (hb : b ∈ rows) : compareOver evaluate exprs a b = .lt ↔ Precedes evaluate exprs a b := by
  rw [compareOver_eq_lexCompare, lexCompare_lt_iff]
  refine exists_congr fun front => exists_congr fun o => exists_congr fun back =>
    and_congr_right fun hexprs => ?_
  subst hexprs
  refine and_congr (forall₂_congr fun o' ho' => compareKey_eq_iff (h o' ?_) ha hb)
    (compareKey_lt_iff (h o ?_) ha hb)
  · exact mem_append_left _ ho'
  · exact mem_append_right _ mem_cons_self

theorem preorder_compareOver :
    TotalPreorderOn (compareOver evaluate exprs) fun row => row ∈ rows := by
  rw [compareOver_eq_lexCompare]
  exact preorder_lexCompare fun o ho => preorder_compareKey (h o ho)

end

/-- The keys of the partitions and those of the order are ordered. -/
structure OrderedKeys (evaluate : E → Row → H2Result Value) (spec : WindowSpec E) (rows : List Row) :
    Prop where
  partitionBy : ∀ e ∈ spec.partitionBy, OrderedOn evaluate rows e
  orderBy : ∀ o ∈ spec.orderBy, OrderedOn evaluate rows o.1

theorem preorder_compareRows (h : spec.OrderedKeys evaluate rows) :
    TotalPreorderOn (spec.compareRows evaluate rows) fun i => i < rows.length :=
  (preorder_compareOver h.orderBy).comap fun _ hi => getD_mem hi

theorem isSame_iff (h : spec.OrderedKeys evaluate rows) {i j : Nat} (hi : i < rows.length)
    (hj : j < rows.length) :
    spec.isSame evaluate rows i j = true ↔ spec.compareRows evaluate rows i j = .eq := by
  rw [compareRows, compareOver_eq_lexCompare, lexCompare_eq_iff, isSame, Bool.or_eq_true, all_eq_true]
  have hall : (∀ o ∈ spec.orderBy, (keyOf evaluate o.1 (rows[j]?.getD [])).eq
      (keyOf evaluate o.1 (rows[i]?.getD [])) = true) ↔ ∀ o ∈ spec.orderBy,
      compareKey evaluate o (rows[i]?.getD []) (rows[j]?.getD []) = .eq := by
    refine forall₂_congr fun o ho => ?_
    have hkey := orderedOn_iff.mp (h.orderBy o ho)
    have hpre := preorder_compareKey (h.orderBy o ho)
    rw [hkey.eq_iff_getD ⟨_, getD_mem hj, rfl⟩ ⟨_, getD_mem hi, rfl⟩]
    have hback : ((keyOf evaluate o.1 (rows[j]?.getD [])).partialCmp
        (keyOf evaluate o.1 (rows[i]?.getD []))).getD .eq = .eq ↔
        compareKey evaluate o (rows[j]?.getD []) (rows[i]?.getD []) = .eq := by
      rw [compareKey]
      cases o.2.getD true
      · exact Ordering.swap_eq_eq.symm
      · exact Iff.rfl
    exact hback.trans ⟨hpre.eq_comm (getD_mem hj) (getD_mem hi), hpre.eq_comm (getD_mem hi) (getD_mem hj)⟩
  rw [hall]
  refine ⟨fun hor o ho => ?_, Or.inr⟩
  rcases hor with hempty | hor
  · rw [isEmpty_iff.mp hempty] at ho
    cases ho
  · exact hor o ho

end WindowSpec

end

/-! ## Ranks -/

section

variable {isSame : Nat → Nat → Bool} {next : Nat → Nat → Nat} {expected : Nat → Nat} {group : List Nat}

theorem rankLoop_behind (hnext : ∀ (front back : List Nat) (x y : Nat), group = front ++ x :: y :: back →
      expected y = if isSame x y then expected x else next (front.length + 1) (expected x))
    (front back : List Nat) (x : Nat) (hgroup : group = front ++ x :: back) :
    rankLoop isSame next (front.length + 1) (expected x) (some x) back = back.map expected := by
  induction back generalizing front x with
  | nil => rfl
  | cons y back ih =>
    have hrest := ih (front ++ [x]) y (by rw [hgroup, append_assoc, singleton_append])
    rw [length_append, length_singleton] at hrest
    rw [rankLoop, Option.all_some, ← hnext front back x y hgroup, hrest, map_cons]

theorem rankLoop_eq (hfirst : ∀ (x : Nat) (back : List Nat), group = x :: back → expected x = 1)
    (hnext : ∀ (front back : List Nat) (x y : Nat), group = front ++ x :: y :: back →
      expected y = if isSame x y then expected x else next (front.length + 1) (expected x)) :
    rankLoop isSame next 0 1 none group = group.map expected := by
  cases group with
  | nil => rfl
  | cons x back =>
    have hrest := rankLoop_behind hnext [] back x rfl
    rw [hfirst x back rfl] at hrest
    rw [rankLoop, map_cons, hfirst x back rfl]
    exact congrArg (List.cons 1) hrest

end

section

variable [Crates] [Arithmetic] {E : Type} {evaluate : E → Row → H2Result Value}
  {spec : WindowSpec E} {rows : List Row} {group : List Nat}

theorem rankLoop_before (h : spec.OrderedKeys evaluate rows) (hgroup : ∀ i ∈ group, i < rows.length)
    (hsorted : Ordered (spec.compareRows evaluate rows) group) {next : Nat → Nat → Nat}
    {rank : List Nat → Nat}
    (hnil : rank [] = 0) (hnext : ∀ (front back : List Nat) (x y : Nat), group = front ++ x :: y :: back →
      spec.compareRows evaluate rows x y = .lt →
        rank (group.filter fun z => spec.compareRows evaluate rows z y == .lt) + 1 =
          next (front.length + 1)
            (rank (group.filter fun z => spec.compareRows evaluate rows z x == .lt) + 1)) :
    rankLoop (spec.isSame evaluate rows) next 0 1 none group =
      group.map fun x => rank (group.filter fun y => spec.compareRows evaluate rows y x == .lt) + 1 := by
  have hpre := spec.preorder_compareRows h
  refine rankLoop_eq (fun x back hx => ?_) fun front back x y hxy => ?_
  · subst hx
    rw [filter_before_head hpre hgroup hsorted, hnil]
  · have hnext := hnext front back x y hxy
    subst hxy
    have hx : x < rows.length := hgroup x (by simp)
    have hy : y < rows.length := hgroup y (by simp)
    have hle : (spec.compareRows evaluate rows x y).isLE = true :=
      (pairwise_cons.mp (pairwise_append.mp hsorted).2.1).1 y mem_cons_self
    split_ifs with hsame
    · rw [spec.isSame_iff h hx hy] at hsame
      rw [filter_before_eq hpre hgroup hx hy hsame]
    · rw [spec.isSame_iff h hx hy] at hsame
      apply hnext
      cases hcmp : spec.compareRows evaluate rows x y with
      | lt => rfl
      | eq => exact absurd hcmp hsame
      | gt =>
        rw [hcmp] at hle
        cases hle

theorem rankLoop_rank (h : spec.OrderedKeys evaluate rows) (hgroup : ∀ i ∈ group, i < rows.length)
    (hsorted : Ordered (spec.compareRows evaluate rows) group) :
    rankLoop (spec.isSame evaluate rows) (fun i _ => i + 1) 0 1 none group =
      group.map fun x => (group.filter fun y => spec.compareRows evaluate rows y x == .lt).length + 1 := by
  refine rankLoop_before h hgroup hsorted rfl fun front back x y hxy hlt => ?_
  subst hxy
  rw [filter_before_next (spec.preorder_compareRows h) hgroup hsorted hlt, length_append, length_singleton]

theorem rankLoop_denseRank (h : spec.OrderedKeys evaluate rows)
    (hgroup : ∀ i ∈ group, i < rows.length) (hsorted : Ordered (spec.compareRows evaluate rows) group) :
    rankLoop (spec.isSame evaluate rows) (fun _ rank => rank + 1) 0 1 none group =
      group.map fun x => classes (spec.compareRows evaluate rows)
        (group.filter fun y => spec.compareRows evaluate rows y x == .lt) + 1 := by
  refine rankLoop_before h hgroup hsorted rfl fun front back x y hxy hlt => ?_
  subst hxy
  rw [classes_before_next (spec.preorder_compareRows h) hgroup hsorted hlt]

end

end H2Database.Sql
