import H2Database.Sql.Careful

/-!
# Casts to integers (`h2-types/src/value.rs`)

A cast goes through `to_i64` and then narrows to the width of the target.  A `Decimal` is known by its
serialized form: four bytes of flags with the sign and the scale, and twelve of the mantissa.
-/

namespace H2Database.Sql

namespace Decimal

def mantissa (d : Decimal) : Nat := d.image.toNat / 2 ^ 32

def scale (d : Decimal) : Nat := d.image.toNat / 2 ^ 16 % 2 ^ 8

def isNegative (d : Decimal) : Bool := d.image.toNat / 2 ^ 31 % 2 = 1

def truncated (d : Decimal) : Int :=
  let n : Int := (d.mantissa / 10 ^ d.scale : Nat)
  if d.isNegative then -n else n

end Decimal

def Value.wholeNumber : Value → Option Int
  | .tinyInt i => some i.toInt
  | .smallInt i => some i.toInt
  | .integer i => some i.toInt
  | .bigInt i => some i.toInt
  | .decimal d => some d.truncated
  | _ => none

def DataType.width : DataType → Option Nat
  | .tinyInt => some 8
  | .smallInt => some 16
  | .integer => some 32
  | .bigInt => some 64
  | _ => none

def FitsWidth (w : Nat) (n : Int) : Prop := -2 ^ (w - 1) ≤ n ∧ n < 2 ^ (w - 1)

instance (w : Nat) (n : Int) : Decidable (FitsWidth w n) :=
  inferInstanceAs (Decidable (-2 ^ (w - 1) ≤ n ∧ n < 2 ^ (w - 1)))

/-- `Decimal::to_i64` drops the fraction and refuses what 64 bits do not hold. -/
def TruncatesToI64 [Crates] : Prop :=
  ∀ d, Crates.decimalToI64 d = if FitsWidth 64 d.truncated then some (Int64.ofInt d.truncated) else none

/-! ## Narrowing -/

theorem bmod_eq_self_iff {w : Nat} (hw : 0 < w) (n : Int) : n.bmod (2 ^ w) = n ↔ FitsWidth w n := by
  obtain ⟨k, rfl⟩ : ∃ k, w = k + 1 := ⟨w - 1, by omega⟩
  have hpos : (0 : Int) < 2 ^ k := by positivity
  have hpow : ((2 ^ (k + 1) : Nat) : Int) = 2 * 2 ^ k := by push_cast; ring
  rw [FitsWidth, Nat.add_sub_cancel]
  constructor
  · intro h
    have hle := Int.le_bmod (x := n) (m := 2 ^ (k + 1)) (by positivity)
    have hlt := Int.bmod_lt (x := n) (m := 2 ^ (k + 1)) (by positivity)
    rw [h, hpow] at hle hlt
    omega
  · intro h
    apply Int.bmod_eq_of_le <;> rw [hpow] <;> omega

section

theorem some_eq_of_toInt {i : Int64} {n : Int} (h : i.toInt = n) :
    some i = if FitsWidth 64 n then some (Int64.ofInt n) else none := by
  subst h
  have hfits : FitsWidth 64 i.toInt := ⟨Int64.le_toInt i, Int64.toInt_lt i⟩
  rw [if_pos hfits, Int64.ofInt_toInt]

variable [Crates]

theorem toI64_of_number (hdec : TruncatesToI64) {v : Value} {n : Int} (hv : v.wholeNumber = some n) :
    v.toI64 = if FitsWidth 64 n then some (Int64.ofInt n) else none := by
  cases v with
  | tinyInt i =>
    obtain rfl := Option.some.inj hv
    exact some_eq_of_toInt (Int8.toInt_toInt64 i)
  | smallInt i =>
    obtain rfl := Option.some.inj hv
    exact some_eq_of_toInt (Int16.toInt_toInt64 i)
  | integer i =>
    obtain rfl := Option.some.inj hv
    exact some_eq_of_toInt (Int32.toInt_toInt64 i)
  | bigInt i =>
    obtain rfl := Option.some.inj hv
    exact some_eq_of_toInt rfl
  | decimal d =>
    obtain rfl := Option.some.inj hv
    exact hdec d
  | _ => cases hv

theorem castTo_eq_castResult {v : Value} (hnull : v.isNull = false) {target : DataType} {w : Nat}
    (hwidth : target.width = some w) : ∃ (name : String) (narrow : Int64 → Value),
      v.castTo target = castResult v name (v.toI64.map narrow) ∧
        ∀ i, (narrow i).wholeNumber = some (i.toInt.bmod (2 ^ w)) := by
  unfold Value.castTo
  rw [hnull, if_neg Bool.false_ne_true]
  cases target with
  | tinyInt =>
    obtain rfl := Option.some.inj hwidth
    exact ⟨_, _, rfl, fun i => congrArg some (Int64.toInt_toInt8 i)⟩
  | smallInt =>
    obtain rfl := Option.some.inj hwidth
    exact ⟨_, _, rfl, fun i => congrArg some (Int64.toInt_toInt16 i)⟩
  | integer =>
    obtain rfl := Option.some.inj hwidth
    exact ⟨_, _, rfl, fun i => congrArg some (Int64.toInt_toInt32 i)⟩
  | bigInt =>
    obtain rfl := Option.some.inj hwidth
    refine ⟨_, _, rfl, fun i => congrArg some ?_⟩
    symm
    rw [bmod_eq_self_iff (by decide)]
    exact ⟨Int64.le_toInt i, Int64.toInt_lt i⟩
  | _ => cases hwidth

/-- A cast of an integer or a decimal keeps the number exactly when the target holds it or 64 bits do not:
then it is refused. -/
theorem castTo_keepsNumber_iff (hdec : TruncatesToI64) {v : Value} {n : Int} (hv : v.wholeNumber = some n)
    {target : DataType} {w : Nat} (hwidth : target.width = some w) :
    (∀ v', v.castTo target = .ok v' → v'.wholeNumber = some n) ↔ FitsWidth w n ∨ ¬ FitsWidth 64 n := by
  have hw : 0 < w := by
    cases target <;> first | (cases hwidth; done) | (obtain rfl := Option.some.inj hwidth; decide)
  have hnull : v.isNull = false := by
    cases v with
    | null => cases hv
    | _ => rfl
  obtain ⟨name, narrow, hcast, hnumber⟩ := castTo_eq_castResult hnull hwidth
  rw [hcast, toI64_of_number hdec hv]
  by_cases hfits : FitsWidth 64 n
  · have htoInt : (Int64.ofInt n).toInt = n := by
      rw [Int64.toInt_ofInt]
      exact (bmod_eq_self_iff (by decide) n).mpr hfits
    have hresult : (narrow (Int64.ofInt n)).wholeNumber = some (n.bmod (2 ^ w)) := by rw [hnumber, htoInt]
    rw [if_pos hfits, Option.map_some, castResult, ← bmod_eq_self_iff hw, or_iff_left (not_not.mpr hfits)]
    constructor
    · intro h
      exact Option.some.inj (hresult.symm.trans (h _ rfl))
    · intro h v' hv'
      obtain rfl := Except.ok.inj hv'
      rw [hresult, h]
  · rw [if_neg hfits, Option.map_none, castResult]
    refine iff_of_true (fun v' hv' => ?_) (Or.inr hfits)
    cases hv'

end

@[reducible] def truncatingCrates : Crates :=
  { plainCrates with
    decimalToI64 := fun d =>
      if FitsWidth 64 d.truncated then some (Int64.ofInt d.truncated) else none }

section

attribute [local instance] truncatingCrates

theorem truncatesToI64_truncatingCrates : TruncatesToI64 := fun _ => rfl

theorem castTo_keepsNumber_hundred :
    (∀ v', (Value.integer 100).castTo .tinyInt = .ok v' → v'.wholeNumber = some 100) ↔
      FitsWidth 8 100 ∨ ¬ FitsWidth 64 100 :=
  castTo_keepsNumber_iff truncatesToI64_truncatingCrates (v := .integer 100) rfl rfl

theorem castTo_threeHundred_wraps :
    ¬ ∀ v', (Value.integer 300).castTo .tinyInt = .ok v' → v'.wholeNumber = some 300 :=
  fun h => absurd (h (.tinyInt 44) rfl) (by decide)

end

end H2Database.Sql
