import H2Database.Sql.Comparison
import H2Database.Sql.Pushdown

/-!
# Equality and order of one value

`PartialEq` and `PartialOrd` are two matches over pairs of values.  An interval has an order and no
equality, a JSON document an equality and no order, and a text is ordered, but not equal, with the number
that it reads as.
-/

namespace H2Database.Sql

open List Option

section

structure Arithmetic.Oriented [Arithmetic] : Prop where
  decimal : ∀ a b, Arithmetic.decimalCmp a b = (Arithmetic.decimalCmp b a).swap

theorem f32Cmp_beq (a b : UInt32) : (f32Cmp a b == some .eq) = f32Eq a b := by
  cases h : f32Cmp a b with
  | some o => rw [f32Cmp_eq h, some_beq_some]
  | none =>
    unfold f32Cmp at h
    split_ifs at h with hnan
    symm
    apply Bool.eq_false_of_not_eq_true
    intro heq
    obtain ⟨ha, hb, -⟩ := (f32Eq_iff a b).mp heq
    rw [ha, hb] at hnan
    cases hnan

theorem f64Cmp_beq (a b : UInt64) : (f64Cmp a b == some .eq) = f64Eq a b := by
  cases h : f64Cmp a b with
  | some o => rw [f64Cmp_eq h, some_beq_some]
  | none =>
    unfold f64Cmp at h
    split_ifs at h with hnan
    symm
    apply Bool.eq_false_of_not_eq_true
    intro heq
    obtain ⟨ha, hb, -⟩ := (f64Eq_iff a b).mp heq
    rw [ha, hb] at hnan
    cases hnan

theorem f32Cmp_swap (a b : UInt32) : f32Cmp a b = (f32Cmp b a).map Ordering.swap := by
  unfold f32Cmp
  rw [Bool.or_comm (f32IsNan b)]
  split_ifs
  · rfl
  · exact congrArg some Std.OrientedOrd.eq_swap

theorem f64Cmp_swap (a b : UInt64) : f64Cmp a b = (f64Cmp b a).map Ordering.swap := by
  unfold f64Cmp
  rw [Bool.or_comm (f64IsNan b)]
  split_ifs
  · rfl
  · exact congrArg some Std.OrientedOrd.eq_swap

theorem parsed_beq_map {α : Type} [BEq α] [LawfulBEq α] {a : α} {cmp : α → Ordering}
    (hcmp : ∀ b, (b == a) = (cmp b == .eq)) (p : Option α) : (p.map cmp == some .eq) = (p == some a) := by
  cases p with
  | none => rfl
  | some b => exact (hcmp b).symm

variable [Crates] [Arithmetic]

/-! ## Comparing numbers -/

namespace Value

theorem compareNumeric_beq (hc : Arithmetic.Consistent) (a b : Value) :
    (compareNumeric a b == some .eq) = compareNumericEq a b := by
  unfold compareNumeric compareNumericEq
  split_ifs
  · cases a.toDecimal with
    | none => rfl
    | some x =>
      cases b.toDecimal with
      | none => rfl
      | some y => exact (hc.decimal x y).symm
  · cases a.toF64 with
    | none => rfl
    | some x =>
      cases b.toF64 with
      | none => rfl
      | some y => exact f64Cmp_beq x y
  · cases a.toI64 with
    | none => rfl
    | some x =>
      cases b.toI64 with
      | none => rfl
      | some y => exact (beq_eq_compare_map (fun _ _ => Int64.toInt_inj.mp) x y).symm

variable {a : Value}

omit [Arithmetic] in
theorem compareNumericEq_left (hd : a.toDecimal = none) (hf : a.toF64 = none)
    (hi : a.toI64 = none) (b : Value) : compareNumericEq a b = false := by
  unfold compareNumericEq
  rw [hd, hf, hi]
  split_ifs <;> rfl

omit [Arithmetic] in
theorem compareNumericEq_right {b : Value} (hd : b.toDecimal = none) (hf : b.toF64 = none)
    (hi : b.toI64 = none) (a : Value) : compareNumericEq a b = false := by
  unfold compareNumericEq
  rw [hd, hf, hi]
  split_ifs
  · cases a.toDecimal <;> rfl
  · cases a.toF64 <;> rfl
  · cases a.toI64 <;> rfl

/-! ## Where the two part -/

mutual

def holdsJson : Value → Bool
  | .json _ => true
  | .array items => anyHoldsJson items
  | _ => false

def anyHoldsJson : List Value → Bool
  | [] => false
  | v :: vs => holdsJson v || anyHoldsJson vs

end

mutual

/-- A text that reads as the number on the other side; of arrays whose other elements are equal, one
element or more. -/
def readsAs : Value → Value → Bool
  | .string s, b => b.isNumeric && compareNumericEq (.string s) b
  | a, .string s => a.isNumeric && compareNumericEq a (.string s)
  | .array as, .array bs => readsAsAll as bs
  | _, _ => false

def readsAsAll : List Value → List Value → Bool
  | a :: as, b :: bs =>
    readsAs a b && (eqAll as bs || readsAsAll as bs) || eq a b && readsAsAll as bs
  | _, _ => false

end

theorem partialCmp_beq_number (hc : Arithmetic.Consistent) (ha : a.isNumeric = true) (b : Value) :
    (a.partialCmp b == some .eq) = (a.eq b || readsAs a b) := by
  have hnum := compareNumeric_beq hc a b
  have hgt : (Ordering.gt == .eq) = false := rfl
  cases a <;> simp only [isNumeric, Bool.false_eq_true] at ha
  all_goals
    cases b <;>
      simp only [eq, partialCmp, readsAs, isNumeric, Bool.or_false, Bool.false_or, Bool.true_and,
        Bool.and_false, Bool.and_true, Bool.false_and, some_beq_some, hnum, hgt]
  case tinyInt.tinyInt a b => exact (beq_eq_compare_map (fun _ _ => Int8.toInt_inj.mp) a b).symm
  case smallInt.smallInt a b => exact (beq_eq_compare_map (fun _ _ => Int16.toInt_inj.mp) a b).symm
  case integer.integer a b => exact (beq_eq_compare_map (fun _ _ => Int32.toInt_inj.mp) a b).symm
  case bigInt.bigInt a b => exact (beq_eq_compare_map (fun _ _ => Int64.toInt_inj.mp) a b).symm
  case float.float a b => exact f32Cmp_beq a b
  case double.double a b => exact f64Cmp_beq a b
  case decimal.decimal a b => exact (hc.decimal a b).symm
  all_goals exact compareNumericEq_right rfl rfl rfl _

theorem partialCmp_beq_text (hc : Arithmetic.Consistent) (s : String) (b : Value) :
    ((Value.string s).partialCmp b == some .eq) = ((Value.string s).eq b || readsAs (.string s) b) := by
  have hnum := compareNumeric_beq hc (.string s) b
  have hgt : (Ordering.gt == .eq) = false := rfl
  cases b <;>
    simp only [eq, partialCmp, readsAs, isNumeric, Bool.or_false, Bool.false_or, Bool.true_and,
      Bool.and_false, Bool.false_and, some_beq_some, hnum, hgt]
  case string t => exact (beq_eq_compare s t).symm
  case timestamp b => exact parsed_beq_map (fun a => Timestamp.beq_eq a b) _
  case date b => exact parsed_beq_map (fun a => NaiveDate.beq_eq a b) _
  all_goals exact compareNumericEq_right rfl rfl rfl _

/-- The values that have an order and an equality with values of their kind, or with texts. -/
def isOther : Value → Bool
  | .boolean _ | .bytes _ | .date _ | .time _ | .timestamp _ | .uuid _ => true
  | _ => false

theorem partialCmp_beq_other (hc : Arithmetic.Consistent) (ha : a.isOther = true) (b : Value) :
    (a.partialCmp b == some .eq) = (a.eq b || readsAs a b) := by
  have hnum := compareNumeric_beq hc a b
  have hgt : (Ordering.gt == .eq) = false := rfl
  cases a <;> simp only [isOther, Bool.false_eq_true] at ha
  all_goals
    cases b <;>
      simp only [eq, partialCmp, readsAs, isNumeric, Bool.or_false, Bool.and_false, Bool.false_and,
        some_beq_some, hnum, hgt]
  case boolean.boolean a b => exact (beq_eq_compare a b).symm
  case bytes.bytes a b => exact (beq_eq_compare a b).symm
  case date.date a b => exact (NaiveDate.beq_eq a b).symm
  case time.time a b => exact (NaiveTime.beq_eq a b).symm
  case timestamp.timestamp a b => exact (Timestamp.beq_eq a b).symm
  case uuid.uuid a b => exact (Uuid.beq_eq a b).symm
  case timestamp.string a _ => exact parsed_beq_map (fun b => BEq.comm.trans (Timestamp.beq_eq a b)) _
  case date.string a _ => exact parsed_beq_map (fun b => BEq.comm.trans (NaiveDate.beq_eq a b)) _
  all_goals exact compareNumericEq_left rfl rfl rfl _

theorem partialCmpAll_cons_beq (a b : Value) (as bs : List Value) :
    (partialCmpAll (a :: as) (b :: bs) == some .eq) =
      ((a.partialCmp b == some .eq) && (partialCmpAll as bs == some .eq)) := by
  rw [partialCmpAll]
  rcases a.partialCmp b with - | - | - | - <;> rfl

mutual

/-- But for intervals and JSON documents, the order puts two values in one place if they are equal or if
texts of the one read as numbers of the other. -/
theorem partialCmp_beq (hc : Arithmetic.Consistent) {a b : Value} (hinterval : a.holdsInterval = false)
    (hjson : a.holdsJson = false) : (a.partialCmp b == some .eq) = (a.eq b || readsAs a b) := by
  by_cases ha : a.isNumeric = true
  · exact partialCmp_beq_number hc ha b
  · have hnum := compareNumeric_beq hc a b
    have hgt : (Ordering.gt == .eq) = false := rfl
    cases a with
    | string s => exact partialCmp_beq_text hc s b
    | tinyInt | smallInt | integer | bigInt | float | double | decimal => exact absurd rfl ha
    | interval iv => cases hinterval
    | json j => cases hjson
    | array as =>
      cases b
      case array bs =>
        simp only [eq, partialCmp, readsAs]
        exact partialCmpAll_beq hc hinterval hjson
      all_goals
        simp only [eq, partialCmp, readsAs, isNumeric, Bool.or_false, Bool.false_and, hnum, hgt,
          some_beq_some]
      all_goals exact compareNumericEq_left rfl rfl rfl _
    | null => cases b <;> rfl
    | boolean | bytes | date | time | timestamp | uuid => exact partialCmp_beq_other hc rfl b

theorem partialCmpAll_beq (hc : Arithmetic.Consistent) {as bs : List Value}
    (hinterval : anyHoldsInterval as = false) (hjson : anyHoldsJson as = false) :
    (partialCmpAll as bs == some .eq) = (eqAll as bs || readsAsAll as bs) := by
  cases as with
  | nil => cases bs <;> rfl
  | cons a as =>
    cases bs with
    | nil => rfl
    | cons b bs =>
      rw [anyHoldsInterval, Bool.or_eq_false_iff] at hinterval
      rw [anyHoldsJson, Bool.or_eq_false_iff] at hjson
      have hhead := partialCmp_beq hc (b := b) hinterval.1 hjson.1
      have htail : (partialCmpAll as bs == some .eq) = (eqAll as bs || readsAsAll as bs) :=
        partialCmpAll_beq hc hinterval.2 hjson.2
      rw [partialCmpAll_cons_beq, hhead, htail, eqAll, readsAsAll]
      cases a.eq b <;> cases readsAs a b <;> cases eqAll as bs <;> cases readsAsAll as bs <;> rfl

end

/-! ## The order reversed -/

theorem compareNumeric_swap (ho : Arithmetic.Oriented) (a b : Value) :
    compareNumeric a b = (compareNumeric b a).map Ordering.swap := by
  unfold compareNumeric
  rw [Bool.or_comm b.isDecimal, Bool.or_comm b.isFloating]
  split_ifs
  · cases a.toDecimal with
    | none => cases b.toDecimal <;> rfl
    | some x =>
      cases b.toDecimal with
      | none => rfl
      | some y => exact congrArg some (ho.decimal x y)
  · cases a.toF64 with
    | none => cases b.toF64 <;> rfl
    | some x =>
      cases b.toF64 with
      | none => rfl
      | some y => exact f64Cmp_swap x y
  · cases a.toI64 with
    | none => cases b.toI64 <;> rfl
    | some x =>
      cases b.toI64 with
      | none => rfl
      | some y => exact congrArg some Std.OrientedOrd.eq_swap

omit [Crates] [Arithmetic] in
theorem parsed_swap {α : Type} {f g : α → Ordering} (h : ∀ x, f x = (g x).swap) (p : Option α) :
    p.map f = (p.map g).map Ordering.swap := by
  cases p with
  | none => rfl
  | some x => exact congrArg some (h x)

mutual

theorem partialCmp_swap (ho : Arithmetic.Oriented) (a b : Value) :
    a.partialCmp b = (b.partialCmp a).map Ordering.swap := by
  have hnum := compareNumeric_swap ho a b
  cases a <;> cases b <;> simp only [partialCmp, map_some, Ordering.swap, hnum]
  case float.float a b => exact f32Cmp_swap a b
  case double.double a b => exact f64Cmp_swap a b
  case decimal.decimal a b => exact congrArg some (ho.decimal a b)
  case array.array as bs => exact partialCmpAll_swap ho as bs
  case string.timestamp | timestamp.string | string.date | date.string =>
    exact parsed_swap (fun _ => Std.OrientedOrd.eq_swap) _
  all_goals exact congrArg some Std.OrientedOrd.eq_swap

theorem partialCmpAll_swap (ho : Arithmetic.Oriented) (as bs : List Value) :
    partialCmpAll as bs = (partialCmpAll bs as).map Ordering.swap := by
  cases as with
  | nil => cases bs <;> rfl
  | cons a as =>
    cases bs with
    | nil => rfl
    | cons b bs =>
      have hhead := partialCmp_swap ho a b
      have htail := partialCmpAll_swap ho as bs
      rw [partialCmpAll, partialCmpAll, hhead]
      rcases b.partialCmp a with - | - | - | -
      · rfl
      · rfl
      · exact htail
      · rfl

end

/-! ## A value and itself -/

mutual

def holdsNan : Value → Bool
  | .float u => f32IsNan u
  | .double u => f64IsNan u
  | .array items => anyHoldsNan items
  | _ => false

def anyHoldsNan : List Value → Bool
  | [] => false
  | v :: vs => holdsNan v || anyHoldsNan vs

end

mutual

theorem eq_self (hc : Arithmetic.Consistent) (ho : Arithmetic.Oriented) {a : Value}
    (hinterval : a.holdsInterval = false) (hjson : a.holdsJson = false) (hnan : a.holdsNan = false) :
    a.eq a = true := by
  cases a with
  | null => rfl
  | float u => exact (f32Eq_iff u u).mpr ⟨hnan, hnan, rfl⟩
  | double u => exact (f64Eq_iff u u).mpr ⟨hnan, hnan, rfl⟩
  | decimal d =>
    have hself : Arithmetic.decimalCmp d d = .eq := by
      have h := ho.decimal d d
      cases hcmp : Arithmetic.decimalCmp d d <;> rw [hcmp] at h <;> first | rfl | cases h
    show Crates.decimalEq d d = true
    rw [hc.decimal, hself]
    rfl
  | array items => exact eqAll_self hc ho hinterval hjson hnan
  | interval iv => cases hinterval
  | json j => cases hjson
  | _ => exact beq_self_eq_true _

theorem eqAll_self (hc : Arithmetic.Consistent) (ho : Arithmetic.Oriented) {as : List Value}
    (hinterval : anyHoldsInterval as = false) (hjson : anyHoldsJson as = false)
    (hnan : anyHoldsNan as = false) : eqAll as as = true := by
  cases as with
  | nil => rfl
  | cons a as =>
    rw [anyHoldsInterval, Bool.or_eq_false_iff] at hinterval
    rw [anyHoldsJson, Bool.or_eq_false_iff] at hjson
    rw [anyHoldsNan, Bool.or_eq_false_iff] at hnan
    rw [eqAll, eq_self hc ho hinterval.1 hjson.1 hnan.1, eqAll_self hc ho hinterval.2 hjson.2 hnan.2]
    rfl

end

mutual

theorem partialCmp_of_holdsJson (hc : Arithmetic.Consistent) {a : Value} (h : a.holdsJson = true)
    (b : Value) :
    (a.partialCmp b == some .eq) = false := by
  have hnum := compareNumeric_beq hc a b
  have hgt : (Ordering.gt == .eq) = false := rfl
  cases a with
  | json j =>
    cases b <;> simp only [partialCmp, some_beq_some, hnum, hgt]
    all_goals exact compareNumericEq_left rfl rfl rfl _
  | array items =>
    cases b
    case array items' =>
      simp only [partialCmp]
      exact partialCmpAll_of_holdsJson hc h items'
    all_goals simp only [partialCmp, some_beq_some, hnum, hgt]
    all_goals exact compareNumericEq_left rfl rfl rfl _
  | _ => cases h

theorem partialCmpAll_of_holdsJson (hc : Arithmetic.Consistent) {as : List Value}
    (h : anyHoldsJson as = true) (bs : List Value) : (partialCmpAll as bs == some .eq) = false := by
  cases as with
  | nil => cases h
  | cons a as =>
    cases bs with
    | nil => rfl
    | cons b bs =>
      rw [partialCmpAll_cons_beq, Bool.and_eq_false_iff]
      rcases (Bool.or_eq_true _ _).mp h with h | h
      · exact .inl (partialCmp_of_holdsJson hc h b)
      · exact .inr (partialCmpAll_of_holdsJson hc h bs)

end

omit [Arithmetic] in
mutual

theorem eq_of_readsAs {a b : Value} (h : readsAs a b = true) : a.eq b = false := by
  cases a with
  | string s =>
    cases b <;> first | rfl | cases h
  | array as =>
    cases b with
    | array bs => exact eqAll_of_readsAsAll h
    | _ => rfl
  | _ =>
    cases b <;> first | rfl | cases h

theorem eqAll_of_readsAsAll {as bs : List Value} (h : readsAsAll as bs = true) : eqAll as bs = false := by
  cases as with
  | nil => cases h
  | cons a as =>
    cases bs with
    | nil => rfl
    | cons b bs =>
      rw [readsAsAll, Bool.or_eq_true, Bool.and_eq_true, Bool.and_eq_true] at h
      rw [eqAll, Bool.and_eq_false_iff]
      rcases h with h | h
      · exact .inl (eq_of_readsAs h.1)
      · exact .inr (eqAll_of_readsAsAll h.2)

end

/-! ## The two matches -/

structure Agree (a b : Value) : Prop where
  equal : a.eq b = true ↔ a.partialCmp b = some .eq
  refl : a.eq a = true
  symm : a.eq b = b.eq a
  reverse : a.partialCmp b = (b.partialCmp a).map Ordering.swap

/-- The equality and the order of the values of a pair agree in every direction. -/
def PairAgrees (a b : Value) : Prop := ∀ x ∈ [a, b], ∀ y ∈ [a, b], Agree x y

def isRegular (a : Value) : Bool := !a.holdsInterval && !a.holdsJson

omit [Crates] [Arithmetic] in
theorem isRegular_iff (a : Value) :
    a.isRegular = true ↔ a.holdsInterval = false ∧ a.holdsJson = false := by
  rw [isRegular, Bool.and_eq_true, Bool.not_eq_true', Bool.not_eq_true']

theorem equal_of_not_readsAs (hc : Arithmetic.Consistent) {a b : Value} (ha : a.isRegular = true)
    (h : readsAs a b = false) : a.eq b = true ↔ a.partialCmp b = some .eq := by
  have hregular := (isRegular_iff a).mp ha
  have hbeq := partialCmp_beq hc (b := b) hregular.1 hregular.2
  rw [h, Bool.or_false] at hbeq
  rw [← hbeq, beq_iff_eq]

theorem Agree.swap (ho : Arithmetic.Oriented) {a b : Value} (h : Agree a b) (hrefl : b.eq b = true) :
    Agree b a := by
  refine ⟨?_, hrefl, h.symm.symm, partialCmp_swap ho b a⟩
  rw [← h.symm, h.equal, h.reverse]
  rcases b.partialCmp a with - | - | - | - <;> decide

theorem Agree.isRegular (hc : Arithmetic.Consistent) (h : Agree a a) : a.isRegular = true := by
  rw [isRegular_iff]
  constructor
  · apply Bool.eq_false_of_not_eq_true
    intro hinterval
    have hrefl := h.refl
    rw [eq_of_holdsInterval hinterval a] at hrefl
    cases hrefl
  · apply Bool.eq_false_of_not_eq_true
    intro hjson
    have hplace := partialCmp_of_holdsJson hc hjson a
    rw [h.equal.mp h.refl] at hplace
    cases hplace

/-- Among values without NaN the equality and the order agree exactly if there is no interval, no JSON
document and no text that reads as a number of the other value. -/
theorem pairAgrees_iff (hs : Crates.Symmetric) (hc : Arithmetic.Consistent) (ho : Arithmetic.Oriented)
    {a b : Value} (ha : a.holdsNan = false) (hb : b.holdsNan = false) :
    PairAgrees a b ↔ a.isRegular = true ∧ b.isRegular = true ∧ readsAs a b = false := by
  constructor
  · intro h
    have hleft : Agree a a := h a mem_cons_self a mem_cons_self
    have hright : Agree b b := h b (by simp) b (by simp)
    have hboth : Agree a b := h a mem_cons_self b (by simp)
    have hregular := hleft.isRegular hc
    refine ⟨hregular, hright.isRegular hc, Bool.eq_false_of_not_eq_true ?_⟩
    intro hreads
    -- the order puts the two in one place
    have hplace := partialCmp_beq hc (b := b) ((isRegular_iff a).mp hregular).1
      ((isRegular_iff a).mp hregular).2
    rw [hreads, Bool.or_true, beq_iff_eq] at hplace
    have heq := hboth.equal.mpr hplace
    rw [eq_of_readsAs hreads] at heq
    cases heq
  · intro h
    obtain ⟨hleft, hright, hreads⟩ := h
    have hla := (isRegular_iff a).mp hleft
    have hlb := (isRegular_iff b).mp hright
    have hself : ∀ c : Value, c.isRegular = true → c.eq c = true → Agree c c := by
      intro c hc' hrefl
      have hnot : readsAs c c = false := by
        apply Bool.eq_false_of_not_eq_true
        intro h
        rw [eq_of_readsAs h] at hrefl
        cases hrefl
      exact ⟨equal_of_not_readsAs hc hc' hnot, hrefl, rfl, partialCmp_swap ho c c⟩
    have haa := eq_self hc ho hla.1 hla.2 ha
    have hbb := eq_self hc ho hlb.1 hlb.2 hb
    have hab : Agree a b :=
      ⟨equal_of_not_readsAs hc hleft hreads, haa, Value.eq_comm hs a b, partialCmp_swap ho a b⟩
    intro x hx y hy
    simp only [mem_cons, not_mem_nil, or_false] at hx hy
    rcases hx with rfl | rfl <;> rcases hy with rfl | rfl
    · exact hself _ hleft haa
    · exact hab
    · exact hab.swap ho hbb
    · exact hself _ hright hbb

end Value

end

/-! ## Values of three kinds -/

section

@[reducible] def imageCrates : Crates := { plainCrates with decimalEq := fun a b => a == b }

@[reducible] def imageArithmetic : Arithmetic :=
  { plainArithmetic with decimalCmp := fun a b => compare a.image.toNat b.image.toNat }

attribute [local instance] imageCrates imageArithmetic

theorem symmetric_imageCrates : Crates.Symmetric := ⟨fun _ _ => BEq.comm, fun _ _ => rfl⟩

theorem consistent_imageCrates : Arithmetic.Consistent where
  decimal a b := by
    have hinj : Function.Injective fun d : Decimal => d.image.toNat := by
      intro a b h
      cases a
      cases b
      exact congrArg Decimal.mk (BitVec.eq_of_toNat_eq h)
    exact beq_eq_compare_map hinj a b

theorem oriented_imageArithmetic : Arithmetic.Oriented := ⟨fun _ _ => Std.OrientedOrd.eq_swap⟩

theorem pairAgrees_arrays : Value.PairAgrees (.array [.integer 1, .string "a"]) (.array [.bigInt 1]) :=
  (Value.pairAgrees_iff symmetric_imageCrates consistent_imageCrates oriented_imageArithmetic rfl rfl).mpr
    ⟨rfl, rfl, rfl⟩

/-- A month has the place of a month and is not equal to it. -/
theorem month_not_pairAgrees :
    (Value.interval ⟨1, 0, 0⟩).partialCmp (.interval ⟨1, 0, 0⟩) = some .eq ∧
      (Value.interval ⟨1, 0, 0⟩).eq (.interval ⟨1, 0, 0⟩) = false ∧
      ¬ Value.PairAgrees (.interval ⟨1, 0, 0⟩) (.interval ⟨1, 0, 0⟩) := by
  have heq : (Value.interval ⟨1, 0, 0⟩).eq (.interval ⟨1, 0, 0⟩) = false := rfl
  refine ⟨by decide, heq, ?_⟩
  intro h
  have hrefl := (h _ mem_cons_self _ mem_cons_self).refl
  rw [heq] at hrefl
  cases hrefl

end

end H2Database.Sql
