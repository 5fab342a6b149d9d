import H2Database.Sql.Value
import Mathlib.Order.Basic

/-!
# The order of values (`h2-types/src/value.rs`)

`PartialOrd` compares numbers of different types, and texts with dates and timestamps.  NULL is below
everything else.
-/

namespace H2Database.Sql

/-- What decimals and the floating-point unit compute. -/
class Arithmetic where
  decimalCmp : Decimal → Decimal → Ordering
  decimalAdd : Decimal → Decimal → Decimal
  decimalNeg : Decimal → Decimal
  f64Add : UInt64 → UInt64 → UInt64
  f64Div : UInt64 → UInt64 → UInt64

/-! ## Floating-point numbers -/

def f32IsNan (u : UInt32) : Bool := decide (0x7F800000 < u.toNat % 2 ^ 31)

def f64IsNan (u : UInt64) : Bool := decide (0x7FF0000000000000 < u.toNat % 2 ^ 63)

def f32Rank (u : UInt32) : Int := if u.toNat < 2 ^ 31 then u.toNat else 2 ^ 31 - (u.toNat : Int)

def f64Rank (u : UInt64) : Int := if u.toNat < 2 ^ 63 then u.toNat else 2 ^ 63 - (u.toNat : Int)

def f32Cmp (a b : UInt32) : Option Ordering :=
  if f32IsNan a || f32IsNan b then none else some (compare (f32Rank a) (f32Rank b))

def f64Cmp (a b : UInt64) : Option Ordering :=
  if f64IsNan a || f64IsNan b then none else some (compare (f64Rank a) (f64Rank b))

def f64Lt (a b : UInt64) : Bool := f64Cmp a b == some .lt

/-- `f64::MAX` and `f64::MIN`. -/
def f64Max : UInt64 := 0x7FEFFFFFFFFFFFFF

def f64Min : UInt64 := 0xFFEFFFFFFFFFFFFF

theorem toNat_and_magnitude (u : UInt64) : (u &&& 0x7FFFFFFFFFFFFFFF).toNat = u.toNat % 2 ^ 63 := by
  rw [UInt64.toNat_and]
  exact Nat.and_two_pow_sub_one_eq_mod u.toNat 63

theorem f64Eq_iff (a b : UInt64) : f64Eq a b = true ↔
    f64IsNan a = false ∧ f64IsNan b = false ∧ f64Rank a = f64Rank b := by
  have hnan : ∀ u : UInt64, decide (0x7FF0000000000000 < u &&& 0x7FFFFFFFFFFFFFFF) = f64IsNan u := by
    intro u
    apply decide_eq_decide.mpr
    rw [UInt64.lt_iff_toNat_lt, toNat_and_magnitude]
    rfl
  have hrank : (a == b || (a ||| b) &&& 0x7FFFFFFFFFFFFFFF == 0) = true ↔ f64Rank a = f64Rank b := by
    have hor : (a ||| b) &&& 0x7FFFFFFFFFFFFFFF = 0 ↔ a.toNat % 2 ^ 63 = 0 ∧ b.toNat % 2 ^ 63 = 0 := by
      rw [← UInt64.toNat_inj, toNat_and_magnitude, UInt64.toNat_or, Nat.or_mod_two_pow]
      exact Nat.or_eq_zero_iff
    have ha := UInt64.toNat_lt a
    have hb := UInt64.toNat_lt b
    rw [Bool.or_eq_true, beq_iff_eq, beq_iff_eq, hor, ← UInt64.toNat_inj]
    unfold f64Rank
    split_ifs <;> omega
  unfold f64Eq
  simp only [hnan, hrank, Bool.and_eq_true, Bool.not_eq_true', and_assoc]

theorem f64Cmp_of_number {a b : UInt64} (ha : f64IsNan a = false) (hb : f64IsNan b = false) :
    f64Cmp a b = some (compare (f64Rank a) (f64Rank b)) := by
  rw [f64Cmp, ha, hb]
  rfl

theorem f64Lt_iff {a b : UInt64} (ha : f64IsNan a = false) (hb : f64IsNan b = false) :
    f64Lt a b = true ↔ f64Rank a < f64Rank b := by
  rw [f64Lt, f64Cmp_of_number ha hb, beq_iff_eq, Option.some_inj]
  exact compare_lt_iff_lt

namespace Value

variable [Crates] [Arithmetic]

def compareNumeric (a b : Value) : Option Ordering :=
  if a.isDecimal || b.isDecimal then do
    let x ← a.toDecimal
    let y ← b.toDecimal
    some (Arithmetic.decimalCmp x y)
  else if a.isFloating || b.isFloating then do
    let x ← a.toF64
    let y ← b.toF64
    f64Cmp x y
  else do
    let x ← a.toI64
    let y ← b.toI64
    some (compare x.toInt y.toInt)

def compareInts (as bs : List Int) : Ordering := compare as bs

mutual

def partialCmp : Value → Value → Option Ordering
  | .null, .null => some .eq
  | .null, _ => some .lt
  | _, .null => some .gt
  | .boolean a, .boolean b => some (compare a b)
  | .tinyInt a, .tinyInt b => some (compare a.toInt b.toInt)
  | .smallInt a, .smallInt b => some (compare a.toInt b.toInt)
  | .integer a, .integer b => some (compare a.toInt b.toInt)
  | .bigInt a, .bigInt b => some (compare a.toInt b.toInt)
  | .float a, .float b => f32Cmp a b
  | .double a, .double b => f64Cmp a b
  | .decimal a, .decimal b => some (Arithmetic.decimalCmp a b)
  | .string a, .string b => some (compare a b)
  | .bytes a, .bytes b => some (compare a b)
  | .date a, .date b => some (compare a.numDays.toInt b.numDays.toInt)
  | .time a, .time b => some (compareInts [a.secs.toNat, a.nanos.toNat] [b.secs.toNat, b.nanos.toNat])
  | .timestamp a, .timestamp b =>
    some (compareInts [a.secs.toInt, a.nanos.toNat] [b.secs.toInt, b.nanos.toNat])
  | .uuid a, .uuid b => some (compare a.bits.toNat b.bits.toNat)
  | .array a, .array b => partialCmpAll a b
  | .interval a, .interval b =>
    some (compareInts [a.months.toInt, a.days.toInt, a.microseconds.toInt]
      [b.months.toInt, b.days.toInt, b.microseconds.toInt])
  | .timestamp a, .string s => (Crates.parseTimestamp s).map fun b =>
      compareInts [a.secs.toInt, a.nanos.toNat] [b.secs.toInt, b.nanos.toNat]
  | .string s, .timestamp b => (Crates.parseTimestamp s).map fun a =>
      compareInts [a.secs.toInt, a.nanos.toNat] [b.secs.toInt, b.nanos.toNat]
  | .date a, .string s => (Crates.parseDate (trim s)).map fun b => compare a.numDays.toInt b.numDays.toInt
  | .string s, .date b => (Crates.parseDate (trim s)).map fun a => compare a.numDays.toInt b.numDays.toInt
  | a, b => compareNumeric a b

def partialCmpAll : List Value → List Value → Option Ordering
  | [], [] => some .eq
  | [], _ :: _ => some .lt
  | _ :: _, [] => some .gt
  | a :: as, b :: bs => match partialCmp a b with
    | some .eq => partialCmpAll as bs
    | o => o

end

def lt (a b : Value) : Bool := partialCmp a b == some .lt

def le (a b : Value) : Bool := partialCmp a b == some .lt || partialCmp a b == some .eq

def gt (a b : Value) : Bool := partialCmp a b == some .gt

def ge (a b : Value) : Bool := partialCmp a b == some .gt || partialCmp a b == some .eq

end Value

end H2Database.Sql
