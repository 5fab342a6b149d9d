import H2Database.Reasoning.ThreeValued
import H2Database.Sql.Expression

/-!
# Comparisons in the standard

In the standard a comparison with NULL is unknown.  The code compares with `PartialEq` and `PartialOrd` of
`Value`, for which NULL is a value, equal to itself and below all others, and an interval equals nothing.
-/

namespace H2Database.Sql

open Reasoning Option

structure Arithmetic.Consistent [Crates] [Arithmetic] : Prop where
  decimal : ∀ a b, Crates.decimalEq a b = (Arithmetic.decimalCmp a b == .eq)

/-! ## Equality and order of values -/

theorem beq_eq_compare {α : Type} [Ord α] [Std.LawfulEqOrd α] [BEq α] [LawfulBEq α] (a b : α) :
    (a == b) = (compare a b == .eq) := by
  rw [Bool.eq_iff_iff, beq_iff_eq, beq_iff_eq, Std.LawfulEqOrd.compare_eq_iff_eq]

theorem beq_eq_compare_map {α β : Type} [BEq α] [LawfulBEq α] [Ord β] [Std.LawfulEqOrd β] {f : α → β}
    (hf : Function.Injective f) (a b : α) : (a == b) = (compare (f a) (f b) == .eq) := by
  rw [Bool.eq_iff_iff, beq_iff_eq, beq_iff_eq, Std.LawfulEqOrd.compare_eq_iff_eq, hf.eq_iff]

theorem NaiveDate.beq_eq (a b : NaiveDate) : (a == b) = (compare a.numDays.toInt b.numDays.toInt == .eq) := by
  refine beq_eq_compare_map (f := fun d : NaiveDate => d.numDays.toInt) (fun a b h => ?_) a b
  obtain ⟨days, _⟩ := a
  obtain ⟨days', _⟩ := b
  obtain rfl : days = days' := Int32.toInt_inj.mp h
  rfl

theorem NaiveTime.beq_eq (a b : NaiveTime) : (a == b) =
    (Value.compareInts [a.secs.toNat, a.nanos.toNat] [b.secs.toNat, b.nanos.toNat] == .eq) := by
  refine beq_eq_compare_map (f := fun t : NaiveTime => [(t.secs.toNat : Int), (t.nanos.toNat : Int)])
    (fun a b h => ?_) a b
  simp only [List.cons.injEq, Nat.cast_inj, UInt32.toNat_inj, and_true] at h
  obtain ⟨secs, nanos⟩ := a
  obtain ⟨secs', nanos'⟩ := b
  obtain ⟨rfl, rfl⟩ : secs = secs' ∧ nanos = nanos' := h
  rfl

theorem Timestamp.beq_eq (a b : Timestamp) : (a == b) =
    (Value.compareInts [a.secs.toInt, a.nanos.toNat] [b.secs.toInt, b.nanos.toNat] == .eq) := by
  refine beq_eq_compare_map (f := fun t : Timestamp => [t.secs.toInt, (t.nanos.toNat : Int)])
    (fun a b h => ?_) a b
  simp only [List.cons.injEq, Nat.cast_inj, Int64.toInt_inj, UInt32.toNat_inj, and_true] at h
  obtain ⟨secs, nanos⟩ := a
  obtain ⟨secs', nanos'⟩ := b
  obtain ⟨rfl, rfl⟩ : secs = secs' ∧ nanos = nanos' := h
  rfl

theorem Uuid.beq_eq (a b : Uuid) : (a == b) = (compare a.bits.toNat b.bits.toNat == .eq) := by
  refine beq_eq_compare_map (f := fun u : Uuid => u.bits.toNat) (fun a b h => ?_) a b
  obtain ⟨bits⟩ := a
  obtain ⟨bits'⟩ := b
  obtain rfl : bits = bits' := BitVec.eq_of_toNat_eq h
  rfl

variable {o : Ordering}

theorem parsed_beq {α : Type} [BEq α] [LawfulBEq α] {a : α} {cmp : α → Ordering}
    (hcmp : ∀ b, (b == a) = (cmp b == .eq)) {p : Option α} (h : p.map cmp = some o) :
    (p == some a) = (o == .eq) := by
  obtain ⟨b, rfl, rfl⟩ := map_eq_some_iff.mp h
  exact hcmp b

theorem f32Eq_iff (a b : UInt32) : f32Eq a b = true ↔
    f32IsNan a = false ∧ f32IsNan b = false ∧ f32Rank a = f32Rank b := by
  have hmagnitude : ∀ u : UInt32, (u &&& 0x7FFFFFFF).toNat = u.toNat % 2 ^ 31 := by
    intro u
    rw [UInt32.toNat_and]
    exact Nat.and_two_pow_sub_one_eq_mod u.toNat 31
  have hnan : ∀ u : UInt32, decide (0x7F800000 < u &&& 0x7FFFFFFF) = f32IsNan u := by
    intro u
    apply decide_eq_decide.mpr
    rw [UInt32.lt_iff_toNat_lt, hmagnitude]
    rfl
  have hrank : (a == b || (a ||| b) &&& 0x7FFFFFFF == 0) = true ↔ f32Rank a = f32Rank b := by
    have hor : (a ||| b) &&& 0x7FFFFFFF = 0 ↔ a.toNat % 2 ^ 31 = 0 ∧ b.toNat % 2 ^ 31 = 0 := by
      rw [← UInt32.toNat_inj, hmagnitude, UInt32.toNat_or, Nat.or_mod_two_pow]
      exact Nat.or_eq_zero_iff
    have ha := UInt32.toNat_lt a
    have hb := UInt32.toNat_lt b
    rw [Bool.or_eq_true, beq_iff_eq, beq_iff_eq, hor, ← UInt32.toNat_inj]
    unfold f32Rank
    split_ifs <;> omega
  unfold f32Eq
  simp only [hnan, hrank, Bool.and_eq_true, Bool.not_eq_true', and_assoc]

theorem f32Cmp_eq {a b : UInt32} (h : f32Cmp a b = some o) : f32Eq a b = (o == .eq) := by
  unfold f32Cmp at h
  split_ifs at h with hnan
  cases h
  simp only [Bool.or_eq_true, not_or, Bool.not_eq_true] at hnan
  rw [Bool.eq_iff_iff, f32Eq_iff, beq_iff_eq, compare_eq_iff_eq]
  exact ⟨fun h => h.2.2, fun h => ⟨hnan.1, hnan.2, h⟩⟩

theorem f64Cmp_eq {a b : UInt64} (h : f64Cmp a b = some o) : f64Eq a b = (o == .eq) := by
  unfold f64Cmp at h
  split_ifs at h with hnan
  cases h
  simp only [Bool.or_eq_true, not_or, Bool.not_eq_true] at hnan
  rw [Bool.eq_iff_iff, f64Eq_iff, beq_iff_eq, compare_eq_iff_eq]
  exact ⟨fun h => h.2.2, fun h => ⟨hnan.1, hnan.2, h⟩⟩

namespace Value

variable [Crates] [Arithmetic]

variable {a b : Value}

theorem compareNumericEq_of_some (hc : Arithmetic.Consistent) {o : Ordering}
    (h : compareNumeric a b = some o) : compareNumericEq a b = (o == .eq) := by
  unfold compareNumeric at h
  unfold compareNumericEq
  split_ifs at h ⊢
  · obtain ⟨x, hx, h⟩ := bind_eq_some_iff.mp h
    obtain ⟨y, hy, h⟩ := bind_eq_some_iff.mp h
    cases h
    simp only [hx, hy]
    exact hc.decimal x y
  · obtain ⟨x, hx, h⟩ := bind_eq_some_iff.mp h
    obtain ⟨y, hy, h⟩ := bind_eq_some_iff.mp h
    simp only [hx, hy]
    exact f64Cmp_eq h
  · obtain ⟨x, hx, h⟩ := bind_eq_some_iff.mp h
    obtain ⟨y, hy, h⟩ := bind_eq_some_iff.mp h
    cases h
    simp only [hx, hy]
    rw [Bool.eq_iff_iff, beq_iff_eq, beq_iff_eq, compare_eq_iff_eq, Int64.toInt_inj]

/-- Values of types that the standard compares: numbers with numbers, a date or a timestamp also with a
text that stands for one. -/
def sameFamily : Value → Value → Bool
  | .boolean _, .boolean _ => true
  | .string _, .string _ => true
  | .bytes _, .bytes _ => true
  | .date _, .date _ => true
  | .time _, .time _ => true
  | .timestamp _, .timestamp _ => true
  | .uuid _, .uuid _ => true
  | .interval _, .interval _ => true
  | .timestamp _, .string _ => true
  | .string _, .timestamp _ => true
  | .date _, .string _ => true
  | .string _, .date _ => true
  | a, b => a.isNumeric && b.isNumeric

def isInterval : Value → Bool
  | .interval _ => true
  | _ => false

theorem eq_of_partialCmp (hc : Arithmetic.Consistent) (hf : a.sameFamily b = true)
    {o : Ordering} (h : a.partialCmp b = some o) : a.eq b = (o == .eq && !a.isInterval) := by
  have hnum := fun h : compareNumeric a b = some o => compareNumericEq_of_some hc h
  cases a <;> cases b <;>
    simp only [sameFamily, isNumeric, Bool.and_false, Bool.false_and, Bool.and_self, Bool.false_eq_true] at hf
  all_goals
    simp only [eq, partialCmp, isInterval, isNumeric, some_inj, Bool.not_false, Bool.not_true,
      Bool.and_true, Bool.and_false, Bool.true_and] at h ⊢
  case boolean.boolean a b => exact h ▸ beq_eq_compare a b
  case tinyInt.tinyInt a b => exact h ▸ beq_eq_compare_map (fun _ _ => Int8.toInt_inj.mp) a b
  case smallInt.smallInt a b => exact h ▸ beq_eq_compare_map (fun _ _ => Int16.toInt_inj.mp) a b
  case integer.integer a b => exact h ▸ beq_eq_compare_map (fun _ _ => Int32.toInt_inj.mp) a b
  case bigInt.bigInt a b => exact h ▸ beq_eq_compare_map (fun _ _ => Int64.toInt_inj.mp) a b
  case float.float => exact f32Cmp_eq h
  case double.double => exact f64Cmp_eq h
  case decimal.decimal a b => exact h ▸ hc.decimal a b
  case string.string a b => exact h ▸ beq_eq_compare a b
  case bytes.bytes a b => exact h ▸ beq_eq_compare a b
  case date.date a b => exact h ▸ NaiveDate.beq_eq a b
  case time.time a b => exact h ▸ NaiveTime.beq_eq a b
  case timestamp.timestamp a b => exact h ▸ Timestamp.beq_eq a b
  case uuid.uuid a b => exact h ▸ Uuid.beq_eq a b
  case string.timestamp b => exact parsed_beq (fun a => Timestamp.beq_eq a b) h
  case timestamp.string a _ => exact parsed_beq (fun b => BEq.comm.trans (Timestamp.beq_eq a b)) h
  case string.date b => exact parsed_beq (fun a => NaiveDate.beq_eq a b) h
  case date.string a _ => exact parsed_beq (fun b => BEq.comm.trans (NaiveDate.beq_eq a b)) h
  case interval.interval => rfl
  all_goals exact hnum h

/-! ## The standard's comparisons -/

mutual

def sqlEq : Value → Value → Truth
  | .null, _ => none
  | _, .null => none
  | .array as, .array bs => sqlEqAll as bs
  | a, b => some (a.partialCmp b == some .eq)

def sqlEqAll : List Value → List Value → Truth
  | [], [] => some true
  | a :: as, b :: bs => (sqlEq a b).and (sqlEqAll as bs)
  | _, _ => some false

end

def sqlOrder (test : Ordering → Bool) (a b : Value) : Truth :=
  if a.isNull || b.isNull then none else some (((a.partialCmp b).map test).getD false)

mutual

/-- The operands of an equality are of types that are compared, and numbers: no `NaN`, and no double next to a
decimal that no decimal holds. -/
def sqlComparable : Value → Value → Bool
  | .null, _ => true
  | _, .null => true
  | .array as, .array bs => sqlComparableAll as bs
  | a, b => a.sameFamily b && (a.partialCmp b).isSome

def sqlComparableAll : List Value → List Value → Bool
  | a :: as, b :: bs => sqlComparable a b && sqlComparableAll as bs
  | _, _ => true

end

mutual

def holdsInterval : Value → Bool
  | .interval _ => true
  | .array items => anyHoldsInterval items
  | _ => false

def anyHoldsInterval : List Value → Bool
  | [] => false
  | v :: vs => holdsInterval v || anyHoldsInterval vs

end

omit [Arithmetic] in
mutual

theorem eq_of_holdsInterval {a : Value} (h : a.holdsInterval = true) (b : Value) : a.eq b = false := by
  cases a with
  | interval iv => cases b <;> rfl
  | array items =>
    cases b with
    | array items' => exact eqAll_of_anyHoldsInterval h items'
    | _ => rfl
  | _ => cases h

theorem eqAll_of_anyHoldsInterval {as : List Value} (h : anyHoldsInterval as = true) (bs : List Value) :
    eqAll as bs = false := by
  cases as with
  | nil => cases h
  | cons a as =>
    cases bs with
    | nil => rfl
    | cons b bs =>
      rw [eqAll, Bool.and_eq_false_iff]
      rcases (Bool.or_eq_true _ _).mp h with h | h
      · exact .inl (eq_of_holdsInterval h b)
      · exact .inr (eqAll_of_anyHoldsInterval h bs)

end

omit [Crates] [Arithmetic] in
theorem holdsInterval_of_sameFamily (h : a.sameFamily b = true) :
    a.holdsInterval = a.isInterval := by
  cases a with
  | array items => cases b <;> cases h
  | _ => rfl

mutual

theorem eq_of_sqlEq (hc : Arithmetic.Consistent) {a b : Value} (hab : sqlComparable a b = true)
    {known : Bool} (h : sqlEq a b = some known) : a.eq b = (known && !a.holdsInterval) := by
  unfold sqlEq at h
  split at h
  · cases h
  · cases h
  · exact eqAll_of_sqlEqAll hc hab h
  · rename_i hleft hright hboth
    have hscalar : a.sameFamily b = true ∧ (a.partialCmp b).isSome = true := by
      unfold sqlComparable at hab
      split at hab
      · exact absurd rfl hleft
      · exact absurd rfl hright
      · exact absurd rfl (hboth _ _ rfl)
      · exact (Bool.and_eq_true _ _).mp hab
    obtain ⟨o, ho⟩ := isSome_iff_exists.mp hscalar.2
    cases h
    rw [holdsInterval_of_sameFamily hscalar.1, ho, eq_of_partialCmp hc hscalar.1 ho]
    rfl

theorem eqAll_of_sqlEqAll (hc : Arithmetic.Consistent) {as bs : List Value}
    (hab : sqlComparableAll as bs = true) {known : Bool} (h : sqlEqAll as bs = some known) :
    eqAll as bs = (known && !anyHoldsInterval as) := by
  cases as with
  | nil =>
    cases bs with
    | nil =>
      cases h
      rfl
    | cons b bs =>
      cases h
      rfl
  | cons a as =>
    cases bs with
    | nil =>
      cases h
      rfl
    | cons b bs =>
      obtain ⟨hhead, htail⟩ := (Bool.and_eq_true _ _).mp hab
      rw [sqlEqAll] at h
      rw [eqAll, anyHoldsInterval, Bool.not_or]
      cases known with
      | true =>
        obtain ⟨ha, has⟩ := Truth.and_eq_true.mp h
        rw [eq_of_sqlEq hc hhead ha, eqAll_of_sqlEqAll hc htail has]
        simp only [Bool.true_and]
      | false =>
        rw [Bool.false_and, Bool.and_eq_false_iff]
        rcases Truth.and_eq_false.mp h with ha | has
        · exact .inl (eq_of_sqlEq hc hhead ha)
        · exact .inr (eqAll_of_sqlEqAll hc htail has)

end

end Value

inductive Comparison where
  | eq
  | notEq
  | lt
  | ltEq
  | gt
  | gtEq
  deriving DecidableEq

namespace Comparison

def operator : Comparison → BinaryOperator
  | .eq => .eq
  | .notEq => .notEq
  | .lt => .lt
  | .ltEq => .ltEq
  | .gt => .gt
  | .gtEq => .gtEq

def isEquality : Comparison → Bool
  | .eq => true
  | .notEq => true
  | _ => false

end Comparison

variable [Crates] [Arithmetic]

def sqlCompare (op : Comparison) (a b : Value) : Truth :=
  match op with
  | .eq => a.sqlEq b
  | .notEq => (a.sqlEq b).not
  | .lt => a.sqlOrder (· == .lt) b
  | .ltEq => a.sqlOrder (· != .gt) b
  | .gt => a.sqlOrder (· == .gt) b
  | .gtEq => a.sqlOrder (· != .lt) b

/-- The operands have types that the operator compares; arrays have no order. -/
def TypeCorrect (op : Comparison) (a b : Value) : Prop :=
  a.sqlComparable b = true ∧ (op.isEquality = false → ∀ items, a ≠ .array items)

def EqualIntervals (a b : Value) : Prop := a.sqlEq b = some true ∧ a.holdsInterval = true

theorem sqlOrder_eq_some {test : Ordering → Bool} {a b : Value} {known : Bool}
    (h : a.sqlOrder test b = some known) (hab : a.sqlComparable b = true)
    (harray : ∀ items, a ≠ .array items) : ∃ o, a.partialCmp b = some o ∧ test o = known := by
  unfold Value.sqlOrder at h
  split_ifs at h with hnull
  unfold Value.sqlComparable at hab
  split at hab
  · exact absurd rfl hnull
  · exact absurd (Bool.or_true _) hnull
  · exact absurd rfl (harray _)
  · obtain ⟨o, ho⟩ := isSome_iff_exists.mp ((Bool.and_eq_true _ _).mp hab).2
    rw [ho] at h
    cases h
    exact ⟨o, ho, rfl⟩

/-- A comparison that the standard knows is answered as the standard has it, unless intervals are said to be
unequal. -/
theorem evaluateBinaryOp_iff (hc : Arithmetic.Consistent) {op : Comparison} {a b : Value}
    (h : TypeCorrect op a b) {known : Bool} (hknown : sqlCompare op a b = some known) :
    evaluateBinaryOp a op.operator b = .ok (.boolean known) ↔
      (op.isEquality = true → ¬ EqualIntervals a b) := by
  have hequality : ∀ {known : Bool}, a.sqlEq b = some known →
      (a.eq b = known ↔ ¬ EqualIntervals a b) := by
    intro known heq
    rw [Value.eq_of_sqlEq hc h.1 heq, EqualIntervals, heq]
    cases known <;> cases a.holdsInterval <;> simp
  cases op with
  | eq =>
    change (Except.ok (Value.boolean (a.eq b)) : H2Result Value) = _ ↔ _
    simp [Comparison.isEquality, hequality hknown]
  | notEq =>
    obtain ⟨k, hk, hnot⟩ := map_eq_some_iff.mp hknown
    change (Except.ok (Value.boolean !(a.eq b)) : H2Result Value) = _ ↔ _
    rw [← hequality hk, ← hnot]
    simp [Comparison.isEquality]
  | lt | ltEq | gt | gtEq =>
    obtain ⟨o, ho, htest⟩ := sqlOrder_eq_some hknown h.1 (h.2 rfl)
    refine iff_of_true ?_ fun hop => by cases hop
    simp only [Comparison.operator, evaluateBinaryOp, Value.lt, Value.le, Value.gt, Value.ge, ho, ← htest]
    cases o <;> rfl

end H2Database.Sql
