import H2Database.Reasoning.Extremes
import H2Database.Sql.Aggregate
import Mathlib.Algebra.BigOperators.Group.List.Basic

/-!
# Folds over one column

The pushdown folds the numbers that it reads of a column, and the evaluation the column's values.  The
number of a value is enough for `COUNT`, for `MIN` and `MAX` where it keeps the value's place, and for the
sums of integers that a `DOUBLE` holds.
-/

namespace H2Database.Sql

open Reasoning Mvstore List
open Option hiding map map_map

/-! ## Values -/

def Value.isRead : Value → Bool
  | .array _ | .interval _ => false
  | _ => true

theorem takeLe_leBytes_mod (w n : Nat) (rest : List UInt8) :
    takeLe w (leBytes w n ++ rest) = some (n % 256 ^ w, rest) := by
  have hl := length_leBytes w n
  unfold takeLe
  rw [if_neg (by rw [length_append]; omega), take_left' hl, drop_left' hl, fromLe_leBytes]

theorem take_lengthAndBytes_mod (b rest : List UInt8) :
    takeLe 4 (lengthAndBytes b ++ rest) = some (b.length % 2 ^ 32, b ++ rest) := by
  unfold lengthAndBytes
  rw [append_assoc, takeLe_leBytes_mod]
  rfl

theorem head?_encodeValue (v : Value) (rest : List UInt8) :
    (encodeValue v ++ rest).head? = some 0 ↔ v.isNull = true := by
  cases v <;> simp [encodeValue, Value.isNull]

def Value.step : Value → Option Nat
  | .string s => some (5 + (utf8 s).length % 2 ^ 32)
  | .bytes b => some (5 + b.length % 2 ^ 32)
  | .json j => some (5 + j.text.length % 2 ^ 32)
  | .uuid u => some (5 + fromLe ((beBytes 16 u.bits.toNat).take 4))
  | .array _ | .interval _ => none
  | v => some (encodeValue v).length

theorem Value.step_isSome {v : Value} (h : v.isRead = true) : v.step.isSome = true := by
  cases v with
  | array _ | interval _ => cases h
  | _ => rfl

variable {v w : Value} {type : DataType} {ns : List (Int64 × UInt64)}

def present (vals : List Value) : List Value := vals.filter fun v => !v.isNull

theorem present_cons_of_null (hv : v.isNull = true) (vals : List Value) :
    present (v :: vals) = present vals :=
  filter_cons_of_neg (by simp [hv])

theorem present_cons_of_value (hv : v.isNull = false) (vals : List Value) :
    present (v :: vals) = v :: present vals :=
  filter_cons_of_pos (by simp [hv])

theorem foldlM_countStep (vals : List Value) (count : Int64) :
    vals.foldlM countStep count = .ok (count + Int64.ofNat (present vals).length) := by
  induction vals generalizing count with
  | nil => simp [present]; rfl
  | cons v vals ih =>
    rw [foldlM_cons]
    change vals.foldlM countStep (if v.isNull then count else count + 1) = _
    rw [ih]
    cases hv : v.isNull with
    | true => rw [present_cons_of_null hv, if_pos rfl]
    | false =>
      rw [present_cons_of_value hv, if_neg (by simp), length_cons, Int64.ofNat_add, Int64.add_assoc,
        Int64.add_comm 1]
      rfl

theorem foldlM_extremeStep_some (better : Value → Value → Bool) (vals : List Value) (best : Value) :
    vals.foldlM (extremeStep better) (some best) = .ok (some (bestOf better best (present vals))) := by
  induction vals generalizing best with
  | nil => rfl
  | cons v vals ih =>
    rw [foldlM_cons]
    cases hv : v.isNull with
    | true =>
      rw [present_cons_of_null hv, ← ih best]
      simp [extremeStep, hv]
      rfl
    | false =>
      rw [present_cons_of_value hv, bestOf_cons, ← ih]
      simp only [extremeStep, hv, Bool.false_eq_true, if_false, keepBetter]
      split_ifs <;> rfl

theorem foldlM_extremeStep (better : Value → Value → Bool) (vals : List Value) :
    vals.foldlM (extremeStep better) none = .ok (match present vals with
      | [] => none
      | v :: rest => some (bestOf better v rest)) := by
  induction vals with
  | nil => rfl
  | cons v vals ih =>
    rw [foldlM_cons]
    cases hv : v.isNull with
    | true =>
      rw [present_cons_of_null hv, ← ih]
      simp [extremeStep, hv]
      rfl
    | false =>
      rw [present_cons_of_value hv]
      simp only [extremeStep, hv, Bool.false_eq_true, if_false]
      exact foldlM_extremeStep_some better vals v

def Value.int : Value → Int
  | .tinyInt i => i.toInt
  | .smallInt i => i.toInt
  | .integer i => i.toInt
  | .bigInt i => i.toInt
  | _ => 0

/-- A column of `FLOAT` or `DOUBLE` has such values alone. -/
def Value.IsFloating (type : DataType) (v : Value) : Prop :=
  (type = .double ∧ ∃ u, v = .double u ∧ f64IsNan u = false) ∨
    type = .float ∧ ∃ u, v = .float u ∧ f32IsNan u = false

/-- A value of the column that keeps its place among the others as a number: an integer of an integer
column, or a number of a floating-point column that is finite on the side that `sign` looks at. -/
def Value.KeepsPlace (type : DataType) (sign : Int) : Value → Prop
  | .null => True
  | .double u => type = .double ∧ f64IsNan u = false ∧ sign * f64Rank u ≤ f64Rank f64Max
  | .float u => type = .float ∧ f32IsNan u = false ∧ sign * f32Rank u < 0x7F800000
  | v => type.isInteger = true ∧ type.holds v = true

theorem Value.KeepsPlace.cases {sign : Int} (h : v.KeepsPlace type sign) (hnull : v.isNull = false) :
    (type.isInteger = true ∧ type.holds v = true) ∨
      (type.isInteger = false ∧ v.IsFloating type) := by
  cases v with
  | null => cases hnull
  | double u =>
    obtain ⟨rfl, hnan, -⟩ := h
    exact .inr ⟨rfl, .inl ⟨rfl, u, rfl, hnan⟩⟩
  | float u =>
    obtain ⟨rfl, hnan, -⟩ := h
    exact .inr ⟨rfl, .inr ⟨rfl, u, rfl, hnan⟩⟩
  | _ => exact .inl h

/-- A `DOUBLE` has every integer below this. -/
def Small (n : Int) : Prop := -2 ^ 53 < n ∧ n < 2 ^ 53

def SmallSums (start : Int) : List Int → Prop
  | [] => Small start
  | i :: is => Small start ∧ SmallSums (start + i) is

theorem SmallSums.start {s : Int} {is : List Int} (h : SmallSums s is) : Small s := by
  cases is with
  | nil => exact h
  | cons i is => exact h.1

theorem SmallSums.total {s : Int} {is : List Int} (h : SmallSums s is) : Small (s + is.sum) := by
  induction is generalizing s with
  | nil =>
    rw [sum_nil, add_zero]
    exact h
  | cons i is ih =>
    rw [sum_cons, ← add_assoc]
    exact ih h.2

theorem toInt_add_of_small {i j : Int64} (h : Small (i.toInt + j.toInt)) :
    (i + j).toInt = i.toInt + j.toInt := by
  rw [Int64.toInt_add, Int.bmod_eq_of_le]
  · have := h.1
    norm_num at *
    omega
  · have := h.2
    norm_num at *
    omega

variable [Crates]

/-! ## Reading a column -/

def Value.number : Value → Option (Int64 × UInt64)
  | .null => none
  | .boolean b => some (if b then (1, 0x3FF0000000000000) else (0, 0))
  | .tinyInt i => some (i.toInt64, Crates.i64ToF64 i.toInt64)
  | .smallInt i => some (i.toInt64, Crates.i64ToF64 i.toInt64)
  | .integer i => some (i.toInt64, Crates.i64ToF64 i.toInt64)
  | .bigInt i => some (i, Crates.i64ToF64 i)
  | .float u => some (Crates.f32ToI64 u, Crates.f32ToF64 u)
  | .double u => some (Crates.f64ToI64 u, u)
  | _ => some (0, 0)

/-- The value is passed over; the bytes of a UUID are taken for a length. -/
def Value.isSkipped : Value → Bool
  | .array _ | .interval _ | .uuid _ => false
  | _ => true

theorem numericField_encodeValue_eq (v : Value) (rest : List UInt8) :
    numericField (encodeValue v ++ rest) = v.step.map fun size => (v.number.getD (0, 0), size) := by
  cases v with
  | null => rfl
  | boolean b => cases b <;> rfl
  | tinyInt i =>
    have h := takeLe_leBytes (w := 1) (n := i.toUInt8.toNat) (UInt8.toNat_lt _) rest
    have hbyte : leBytes 1 i.toUInt8.toNat = [i.toUInt8] := by
      simp [leBytes]
    rw [hbyte] at h
    simp only [encodeValue, cons_append, numericField] at h ⊢
    rw [h, map_some, UInt8.ofNat_toNat, Int8.toInt8_toUInt8]
    rfl
  | smallInt i =>
    simp only [encodeValue, cons_append, numericField]
    rw [takeLe_leBytes (UInt16.toNat_lt _), map_some, UInt16.ofNat_toNat, Int16.toInt16_toUInt16]
    rfl
  | integer i =>
    simp only [encodeValue, cons_append, numericField]
    rw [takeLe_leBytes (UInt32.toNat_lt _), map_some, UInt32.ofNat_toNat, Int32.toInt32_toUInt32]
    rfl
  | bigInt i =>
    simp only [encodeValue, cons_append, numericField]
    rw [takeLe_leBytes (UInt64.toNat_lt _), map_some, UInt64.ofNat_toNat, Int64.toInt64_toUInt64]
    rfl
  | float u =>
    simp only [encodeValue, cons_append, numericField]
    rw [takeLe_leBytes (UInt32.toNat_lt _), map_some, UInt32.ofNat_toNat]
    rfl
  | double u =>
    simp only [encodeValue, cons_append, numericField]
    rw [takeLe_leBytes (UInt64.toNat_lt _), map_some, UInt64.ofNat_toNat]
    rfl
  | decimal d => rfl
  | string s =>
    simp only [encodeValue, cons_append, numericField]
    rw [take_lengthAndBytes_mod]
    rfl
  | bytes b =>
    simp only [encodeValue, cons_append, numericField]
    rw [take_lengthAndBytes_mod]
    rfl
  | date d => rfl
  | time t => rfl
  | timestamp ts => rfl
  | uuid u =>
    have hl := length_beBytes 16 u.bits.toNat
    have htake : (beBytes 16 u.bits.toNat ++ rest).take 4 = (beBytes 16 u.bits.toNat).take 4 :=
      take_append_of_le_length (by omega)
    simp only [encodeValue, cons_append, numericField, takeLe]
    rw [if_neg (by rw [length_append]; omega), htake]
    rfl
  | json j =>
    simp only [encodeValue, cons_append, numericField]
    rw [take_lengthAndBytes_mod]
    rfl
  | array items => rfl
  | interval iv => rfl

theorem Value.step_of_isSkipped {v : Value} (hv : v.Storable) (h : v.isSkipped = true) :
    v.step = some (encodeValue v).length := by
  cases v with
  | string s =>
    have hlength : (utf8 s).length % 2 ^ 32 = (utf8 s).length := Nat.mod_eq_of_lt hv
    simp only [Value.step, encodeValue, lengthAndBytes, length_cons, length_append, length_leBytes,
      hlength, Option.some.injEq]
    omega
  | bytes b =>
    have hlength : b.length % 2 ^ 32 = b.length := Nat.mod_eq_of_lt hv
    simp only [Value.step, encodeValue, lengthAndBytes, length_cons, length_append, length_leBytes,
      hlength, Option.some.injEq]
    omega
  | json j =>
    have hlength : j.text.length % 2 ^ 32 = j.text.length := Nat.mod_eq_of_lt hv.1
    simp only [Value.step, encodeValue, lengthAndBytes, length_cons, length_append, length_leBytes,
      hlength, Option.some.injEq]
    omega
  | uuid _ | array _ | interval _ => cases h
  | _ => rfl

theorem Value.number_of_isNull {v : Value} (h : v.isNull = false) :
    v.number = some (v.number.getD (0, 0)) := by
  cases v with
  | null => cases h
  | _ => rfl

theorem numericField_encodeValue {v : Value} (hv : v.Storable) (hread : v.isRead = true)
    (rest : List UInt8) : ∃ p, numericField (encodeValue v ++ rest) = some p ∧
      (v.isSkipped = true → p.2 = (encodeValue v).length) ∧ (v.isNull = false → v.number = some p.1) := by
  obtain ⟨size, hsize⟩ := isSome_iff_exists.mp (Value.step_isSome hread)
  rw [numericField_encodeValue_eq, hsize, map_some]
  refine ⟨_, rfl, ?_, Value.number_of_isNull⟩
  intro hskipped
  rw [Value.step_of_isSkipped hv hskipped] at hsize
  exact (some_inj.mp hsize).symm

theorem Value.number_eq_none (v : Value) : v.number = none ↔ v.isNull = true := by
  cases v <;> simp [Value.number, Value.isNull]

theorem extractFrom_encodeValues {vals : List Value} (hs : Value.StorableAll vals) {column : Nat}
    {v : Value} (hcolumn : vals[column]? = some v) (hskipped : ∀ w ∈ vals.take column, w.isSkipped = true)
    (hread : v.isRead = true) (rest : List UInt8) :
    extractFrom column (encodeValues vals ++ rest) = v.number := by
  induction vals generalizing column with
  | nil => cases hcolumn
  | cons w vals ih =>
    rw [encodeValues, append_assoc]
    cases column with
    | zero =>
      obtain rfl : w = v := some_inj.mp hcolumn
      obtain ⟨p, hp, -, hnumber⟩ := numericField_encodeValue hs.1 hread (encodeValues vals ++ rest)
      rw [extractFrom, hp, bind_some]
      by_cases hnull : w.isNull = true
      · rw [if_pos ((head?_encodeValue w _).mpr hnull), (Value.number_eq_none w).mpr hnull]
      · rw [if_neg fun h => hnull ((head?_encodeValue w _).mp h), hnumber (Bool.not_eq_true _ ▸ hnull)]
    | succ column =>
      have hw : w.isSkipped = true := hskipped w (by simp)
      have hwread : w.isRead = true := by
        cases w <;> first | rfl | cases hw
      obtain ⟨p, hp, hsize, -⟩ := numericField_encodeValue hs.1 hwread (encodeValues vals ++ rest)
      rw [extractFrom, hp, bind_some, hsize hw, drop_left]
      exact ih hs.2 hcolumn fun x hx => hskipped x (by simp [hx])

theorem extractNumericColumn_toBytes {raw : Row} (hs : Row.Storable raw) {column : Nat}
    (hskipped : ∀ w ∈ raw.take column, w.isSkipped = true)
    (hread : ∀ v, raw[column]? = some v → v.isRead = true) :
    extractNumericColumn raw.toBytes column = (raw[column]?.getD .null).number := by
  simp only [extractNumericColumn, Row.toBytes]
  rw [if_neg (by decide), takeLe_leBytes (by simpa using hs.1)]
  cases hcolumn : raw[column]? with
  | none => exact if_pos (List.getElem?_eq_none_iff.mp hcolumn)
  | some v =>
    have hlt : column < raw.length := (List.getElem?_eq_some_iff.mp hcolumn).1
    have h := extractFrom_encodeValues hs.2 hcolumn hskipped (hread v hcolumn) []
    rw [append_nil] at h
    exact (if_neg (by omega)).trans h

/-! ## Numbers and values -/

theorem Value.number_of_isInteger (htype : type.isInteger = true) (hv : type.holds v = true)
    (hnull : v.isNull = false) :
    ∃ i : Int64, v.number = some (i, Crates.i64ToF64 i) ∧ i.toInt = v.int ∧ (Value.bigInt i).eq v = true := by
  cases type <;> cases htype <;> cases v <;> cases hv <;> cases hnull <;>
    exact ⟨_, rfl, by simp [Value.int], by simp [Value.eq, Value.isNumeric, Value.compareNumericEq,
      Value.isDecimal, Value.isFloating, Value.toI64]⟩

theorem Value.bigInt_eq (htype : type.isInteger = true) (hv : type.holds v = true) (hnull : v.isNull = false)
    {m : Int64} (hm : m.toInt = v.int) :
    (Value.bigInt m).eq v = true := by
  obtain ⟨i, -, hi, heq⟩ := Value.number_of_isInteger htype hv hnull
  rw [Int64.toInt_inj.mp (hm.trans hi.symm)]
  exact heq

theorem rank_extremes {γ : Type} (toNumber : Int64 × UInt64 → γ) (rank : γ → Int) (rank' : Value → Int)
    {better : γ → γ → Bool} {better' : Value → Value → Bool} {worst : γ} {rest : List Value}
    (hperm : ns.Perm ((v :: rest).filterMap Value.number))
    (hnumber : ∀ w ∈ v :: rest, ∃ p, w.number = some p ∧ rank (toNumber p) = rank' w ∧
      rank (toNumber p) ≤ rank worst) (h : Ranks rank better (worst :: ns.map toNumber))
    (h' : Ranks rank' better' (v :: rest)) :
    rank (bestOf better worst (ns.map toNumber)) = rank' (bestOf better' v rest) := by
  have hof : ∀ p ∈ ns, ∃ w ∈ v :: rest, w.number = some p := by
    intro p hp
    obtain ⟨w, hw, hwp⟩ := mem_filterMap.mp (hperm.mem_iff.mp hp)
    exact ⟨w, hw, hwp⟩
  refine rank_bestOf_eq h h' ?_ ?_ ?_
  · intro x hx
    obtain ⟨p, hp, rfl⟩ := mem_map.mp hx
    obtain ⟨w, hw, hwp⟩ := hof p hp
    obtain ⟨q, hq, -, hle⟩ := hnumber w hw
    obtain rfl := some_inj.mp (hwp.symm.trans hq)
    exact hle
  · intro x hx
    obtain ⟨p, hp, rfl⟩ := mem_map.mp hx
    obtain ⟨w, hw, hwp⟩ := hof p hp
    obtain ⟨q, hq, hrank, -⟩ := hnumber w hw
    obtain rfl := some_inj.mp (hwp.symm.trans hq)
    exact ⟨w, hw, hrank.symm⟩
  · intro w hw
    obtain ⟨p, hp, hrank, -⟩ := hnumber w hw
    have hin : p ∈ ns := hperm.mem_iff.mpr (mem_filterMap.mpr ⟨w, hw, hp⟩)
    exact ⟨toNumber p, mem_map_of_mem hin, hrank⟩

/-- A `FLOAT` becomes the `DOUBLE` of the same number. -/
structure ExactWidening : Prop where
  number : ∀ u, f32IsNan u = false → f64IsNan (Crates.f32ToF64 u) = false
  lt : ∀ a b, f32IsNan a = false → f32IsNan b = false →
    (f64Rank (Crates.f32ToF64 a) < f64Rank (Crates.f32ToF64 b) ↔ f32Rank a < f32Rank b)
  belowMax : ∀ u, f32Rank u < 0x7F800000 → f64Rank (Crates.f32ToF64 u) ≤ f64Rank f64Max
  aboveMin : ∀ u, -0x7F800000 < f32Rank u → f64Rank f64Min ≤ f64Rank (Crates.f32ToF64 u)

/-- A `FLOAT` as a `DOUBLE`. -/
def Value.asF64 : Value → UInt64
  | .float u => Crates.f32ToF64 u
  | .double u => u
  | _ => 0

theorem Value.IsFloating.number (h : v.IsFloating type) (hwide : type = .float → ExactWidening) :
    ∃ i, v.number = some (i, v.asF64) ∧ f64IsNan v.asF64 = false := by
  obtain ⟨-, u, rfl, hnan⟩ | ⟨htype, u, rfl, hnan⟩ := h
  · exact ⟨_, rfl, hnan⟩
  · exact ⟨_, rfl, (hwide htype).number u hnan⟩

theorem Value.IsFloating.double_eq (h : v.IsFloating type) (hwide : type = .float → ExactWidening)
    {m : UInt64} (hm : f64IsNan m = false) (hrank : f64Rank m = f64Rank v.asF64) :
    (Value.double m).eq v = true := by
  obtain ⟨-, hnan⟩ := (h.number hwide).choose_spec
  have heq := (f64Eq_iff m v.asF64).mpr ⟨hm, hnan, hrank⟩
  obtain ⟨-, u, rfl, -⟩ | ⟨-, u, rfl, -⟩ := h
  · exact heq
  · simp [Value.eq, Value.isNumeric, Value.compareNumericEq, Value.isDecimal, Value.isFloating, Value.toF64]
    exact heq

/-- What stands for a sum of integers of a type: an integer of the type that wraps around, or from the
second value on a `DOUBLE`. -/
def SumOf (type : DataType) (n : Int) (acc : Value) : Prop :=
  match type with
  | .bigInt => ∃ i : Int64, acc = .bigInt i ∧ i.toInt = n
  | .integer => ∃ i : Int32, acc = .integer i ∧ i.toInt = n.bmod (2 ^ 32)
  | type => (type.holds acc = true ∧ acc.isNull = false ∧ acc.int = n) ∨
    ∃ i : Int64, acc = .double (Crates.i64ToF64 i) ∧ i.toInt = n

theorem sumOf_narrow (htype : type = .tinyInt ∨ type = .smallInt) (n : Int) (acc : Value) :
    SumOf type n acc ↔ (type.holds acc = true ∧ acc.isNull = false ∧ acc.int = n) ∨
      ∃ i : Int64, acc = .double (Crates.i64ToF64 i) ∧ i.toInt = n := by
  rcases htype with rfl | rfl <;> exact Iff.rfl

theorem sumOf_self (htype : type.isInteger = true) (hw : type.holds w = true) (hnull : w.isNull = false) :
    SumOf type w.int w := by
  cases type <;> cases htype
  case tinyInt => exact .inl ⟨hw, hnull, rfl⟩
  case smallInt => exact .inl ⟨hw, hnull, rfl⟩
  case bigInt =>
    cases w <;> cases hw <;> cases hnull
    exact ⟨_, rfl, rfl⟩
  case integer =>
    cases w <;> cases hw <;> cases hnull
    rename_i i
    refine ⟨i, rfl, (Int.bmod_eq_of_le ?_ ?_).symm⟩
    · exact Int32.le_toInt i
    · exact Int32.toInt_lt i

/-! ## The folds of the pushdown -/

def numbers (stored : List (List UInt8)) (column : Nat) : List (Int64 × UInt64) :=
  stored.filterMap fun bytes => extractNumericColumn bytes column

theorem numbers_cons (bytes : List UInt8) (stored : List (List UInt8)) (column : Nat) :
    numbers (bytes :: stored) column =
      (extractNumericColumn bytes column).toList ++ numbers stored column := by
  unfold numbers
  rw [filterMap_cons]
  cases extractNumericColumn bytes column <;> rfl

section

variable [Arithmetic]

theorem foldl_addRow (stored : List (List UInt8)) (accs : List (VectorAggregateOp × Accumulator)) :
    stored.foldl addRow accs = accs.map fun p => (p.1, stored.foldl (Accumulator.add p.1) p.2) := by
  induction stored generalizing accs with
  | nil => simp
  | cons bytes stored ih =>
    rw [foldl_cons, ih, addRow, map_map]
    rfl

theorem buildPushdownAggregateResult_eq (t : TableDef) (ops : List VectorAggregateOp)
    (stored : List (List UInt8)) :
    buildPushdownAggregateResult t ops stored =
      ops.map fun op => pushdownValue t op (stored.foldl (Accumulator.add op) {}) := by
  rw [buildPushdownAggregateResult, foldl_addRow, map_map, map_map]
  rfl

theorem count_countStar (stored : List (List UInt8)) (acc : Accumulator) :
    (stored.foldl (Accumulator.add .countStar) acc).count = acc.count + Int64.ofNat stored.length := by
  induction stored generalizing acc with
  | nil => simp
  | cons bytes stored ih =>
    rw [foldl_cons, ih, length_cons, Int64.ofNat_add]
    simp only [Accumulator.add]
    rw [Int64.add_assoc, Int64.add_comm 1]
    rfl

def VectorAggregateOp.column : VectorAggregateOp → Option Nat
  | .countStar => none
  | .count c | .sum c | .avg c | .min c | .max c => some c

theorem count_column {op : VectorAggregateOp} {c : Nat} (hop : op.column = some c)
    (stored : List (List UInt8)) (acc : Accumulator) :
    (stored.foldl (Accumulator.add op) acc).count = acc.count + Int64.ofNat (numbers stored c).length := by
  induction stored generalizing acc with
  | nil => simp [numbers]
  | cons bytes stored ih =>
    rw [foldl_cons, ih, numbers_cons, length_append, Int64.ofNat_add, ← Int64.add_assoc]
    congr 1
    cases op <;> simp only [VectorAggregateOp.column, Option.some.injEq, reduceCtorEq] at hop <;>
      subst hop <;> simp only [Accumulator.add] <;> cases extractNumericColumn bytes _ <;> simp

theorem sum_column (c : Nat) (stored : List (List UInt8)) (acc : Accumulator) :
    (stored.foldl (Accumulator.add (.sum c)) acc).sum =
      ((numbers stored c).map Prod.snd).foldl Arithmetic.f64Add acc.sum := by
  induction stored generalizing acc with
  | nil => rfl
  | cons bytes stored ih =>
    rw [foldl_cons, ih, numbers_cons]
    simp only [Accumulator.add]
    cases extractNumericColumn bytes c <;> rfl

theorem min_column (c : Nat) (stored : List (List UInt8)) (acc : Accumulator) :
    (stored.foldl (Accumulator.add (.min c)) acc).minInt =
        bestOf (fun a b => decide (a < b)) acc.minInt ((numbers stored c).map Prod.fst) ∧
      (stored.foldl (Accumulator.add (.min c)) acc).min =
        bestOf f64Lt acc.min ((numbers stored c).map Prod.snd) := by
  induction stored generalizing acc with
  | nil => exact ⟨rfl, rfl⟩
  | cons bytes stored ih =>
    rw [foldl_cons, (ih _).1, (ih _).2, numbers_cons]
    simp only [Accumulator.add]
    cases extractNumericColumn bytes c with
    | none => exact ⟨rfl, rfl⟩
    | some p => simp [keepBetter]

theorem max_column (c : Nat) (stored : List (List UInt8)) (acc : Accumulator) :
    (stored.foldl (Accumulator.add (.max c)) acc).maxInt =
        bestOf (fun a b => decide (b < a)) acc.maxInt ((numbers stored c).map Prod.fst) ∧
      (stored.foldl (Accumulator.add (.max c)) acc).max =
        bestOf (fun a b => f64Lt b a) acc.max ((numbers stored c).map Prod.snd) := by
  induction stored generalizing acc with
  | nil => exact ⟨rfl, rfl⟩
  | cons bytes stored ih =>
    rw [foldl_cons, (ih _).1, (ih _).2, numbers_cons]
    simp only [Accumulator.add]
    cases extractNumericColumn bytes c with
    | none => exact ⟨rfl, rfl⟩
    | some p => simp [keepBetter]

/-! ## The folds of the evaluation -/

def columnValue (column : Nat) (row : Row) : Value := row[column]?.getD .null

theorem foldValues_identifier {α : Type} {ctx : RowContext} {name : String} {column : Nat}
    (hcolumn : ctx.resolveColumn none name = some column) (seen : Visible) (rows : List Row) (init : α)
    (step : α → Value → H2Result α) :
    foldValues ctx seen rows (.identifier name) init step =
      (rows.map (columnValue column)).foldlM step init := by
  unfold foldValues
  simp only [evaluateExprContext, hcolumn]
  rw [foldlM_map]
  rfl

theorem foldlM_sumStep_some (vals : List Value) (sum : Value) :
    vals.foldlM sumStep (some sum) = ((present vals).foldlM addValues sum).map some := by
  induction vals generalizing sum with
  | nil => rfl
  | cons v vals ih =>
    rw [foldlM_cons]
    cases hv : v.isNull with
    | true =>
      rw [present_cons_of_null hv, ← ih]
      simp [sumStep, hv]
      rfl
    | false =>
      rw [present_cons_of_value hv, foldlM_cons]
      simp only [sumStep, hv, Bool.false_eq_true, if_false]
      cases addValues sum v with
      | error e => rfl
      | ok next => exact ih next

theorem foldlM_sumStep (vals : List Value) :
    vals.foldlM sumStep none = match present vals with
      | [] => .ok none
      | v :: rest => (rest.foldlM addValues v).map some := by
  induction vals with
  | nil => rfl
  | cons v vals ih =>
    rw [foldlM_cons]
    cases hv : v.isNull with
    | true =>
      rw [present_cons_of_null hv, ← ih]
      simp [sumStep, hv]
      rfl
    | false =>
      rw [present_cons_of_value hv]
      simp only [sumStep, hv, Bool.false_eq_true, if_false]
      exact foldlM_sumStep_some vals v

theorem Value.partialCmp_of_isInteger (htype : type.isInteger = true) (hv : type.holds v = true)
    (hw : type.holds w = true) (hvnull : v.isNull = false) (hwnull : w.isNull = false) :
    v.partialCmp w = some (compare v.int w.int) := by
  cases type <;> cases htype <;> cases v <;> cases hv <;> (try cases hvnull) <;> cases w <;> cases hw <;>
    (try cases hwnull) <;> simp [Value.partialCmp, Value.int]

/-- How `MIN` and `MAX` compare integers, floating-point numbers and values. -/
structure Extreme (sign : Int) (betterInt : Int64 → Int64 → Bool) (worstInt : Int64)
    (betterF64 : UInt64 → UInt64 → Bool) (worstF64 : UInt64) (better : Value → Value → Bool) : Prop where
  sign_ne : sign ≠ 0
  int : ∀ a b, betterInt a b = true ↔ sign * a.toInt < sign * b.toInt
  worstInt : ∀ a : Int64, sign * a.toInt ≤ sign * worstInt.toInt
  f64 : ∀ a b, f64IsNan a = false → f64IsNan b = false →
    (betterF64 a b = true ↔ sign * f64Rank a < sign * f64Rank b)
  worstNumber : f64IsNan worstF64 = false
  worstF64 : sign * f64Rank worstF64 = f64Rank f64Max
  value : ∀ v w (a b : Int), v.partialCmp w = some (compare a b) → (better v w = true ↔ sign * a < sign * b)
  widened : ExactWidening → ∀ u, sign * f32Rank u < 0x7F800000 →
    sign * f64Rank (Crates.f32ToF64 u) ≤ f64Rank f64Max

theorem extreme_min : Extreme 1 (fun a b => decide (a < b)) Int64.maxValue f64Lt f64Max Value.lt where
  sign_ne := by decide
  int a b := by rw [decide_eq_true_iff, Int64.lt_iff_toInt_lt, one_mul, one_mul]
  worstInt a := by
    have := Int64.toInt_le a
    rw [one_mul, one_mul]
    exact this
  f64 a b ha hb := by rw [f64Lt_iff ha hb, one_mul, one_mul]
  worstNumber := by decide
  worstF64 := one_mul _
  value v w a b h := by rw [Value.lt, h, beq_iff_eq, some_inj, compare_lt_iff_lt, one_mul, one_mul]
  widened hwide u hu := by
    rw [one_mul] at hu ⊢
    exact hwide.belowMax u hu

theorem extreme_max :
    Extreme (-1) (fun a b => decide (b < a)) Int64.minValue (fun a b => f64Lt b a) f64Min Value.gt where
  sign_ne := by decide
  int a b := by
    rw [decide_eq_true_iff, Int64.lt_iff_toInt_lt]
    omega
  worstInt a := by
    have := Int64.le_toInt a
    have hmin : Int64.minValue.toInt = -9223372036854775808 := by decide
    omega
  f64 a b ha hb := by
    rw [f64Lt_iff hb ha]
    omega
  worstNumber := by decide
  worstF64 := by decide
  value v w a b h := by
    rw [Value.gt, h, beq_iff_eq, some_inj, compare_gt_iff_gt]
    omega
  widened hwide u hu := by
    have hmin : f64Rank f64Min = -f64Rank f64Max := by decide
    have := hwide.aboveMin u (by omega)
    omega

theorem Value.IsFloating.partialCmp (h : v.IsFloating type) (h' : w.IsFloating type)
    (hwide : type = .float → ExactWidening) :
    v.partialCmp w = some (compare (f64Rank v.asF64) (f64Rank w.asF64)) := by
  obtain ⟨rfl, a, rfl, ha⟩ | ⟨rfl, a, rfl, ha⟩ :=
      h <;> obtain ⟨htype, b, rfl, hb⟩ | ⟨htype, b, rfl, hb⟩ := h' <;>
    cases htype
  · simp only [Value.partialCmp, Value.asF64]
    exact f64Cmp_of_number ha hb
  · have hlt := (hwide rfl).lt a b ha hb
    have hgt := (hwide rfl).lt b a hb ha
    simp only [Value.partialCmp, Value.asF64, f32Cmp, ha, hb, Bool.or_self, Bool.false_eq_true, if_false]
    apply congrArg some
    rcases lt_trichotomy (f32Rank a) (f32Rank b) with hcase | hcase | hcase
    · rw [compare_lt_iff_lt.mpr hcase, compare_lt_iff_lt.mpr (hlt.mpr hcase)]
    · have heq : f64Rank (Crates.f32ToF64 a) = f64Rank (Crates.f32ToF64 b) := by omega
      rw [hcase, heq, compare_eq_iff_eq.mpr rfl, compare_eq_iff_eq.mpr rfl]
    · rw [compare_gt_iff_gt.mpr hcase, compare_gt_iff_gt.mpr (hgt.mpr hcase)]

theorem Extreme.agrees {sign : Int} {betterInt : Int64 → Int64 → Bool} {worstInt : Int64}
    {betterF64 : UInt64 → UInt64 → Bool} {worstF64 : UInt64} {better : Value → Value → Bool}
    (h : Extreme sign betterInt worstInt betterF64 worstF64 better) (hwide : type = .float → ExactWidening)
    {rest : List Value} (hperm : ns.Perm ((v :: rest).filterMap Value.number))
    (hvals : ∀ w ∈ v :: rest, w.isNull = false ∧ w.KeepsPlace type sign) :
    (if type.isInteger then Value.bigInt (bestOf betterInt worstInt (ns.map Prod.fst))
      else .double (bestOf betterF64 worstF64 (ns.map Prod.snd))).eq (bestOf better v rest) = true := by
  cases htype : type.isInteger with
  | true =>
    have hint : ∀ w ∈ v :: rest, type.holds w = true := by
      intro w hw
      rcases (hvals w hw).2.cases (hvals w hw).1 with hcase | hcase
      · exact hcase.2
      · exact absurd hcase.1 (by simp [htype])
    have hbest : Ranks (fun w => sign * w.int) better (v :: rest) := fun w hw w' hw' =>
      h.value w w' _ _ (Value.partialCmp_of_isInteger htype (hint w hw) (hint w' hw') (hvals w hw).1
        (hvals w' hw').1)
    have hrank := rank_extremes Prod.fst (fun a : Int64 => sign * a.toInt) (fun w => sign * w.int) hperm
      (fun w hw => by
        obtain ⟨i, hi, heq, -⟩ := Value.number_of_isInteger htype (hint w hw) (hvals w hw).1
        exact ⟨_, hi, congrArg (sign * ·) heq, h.worstInt i⟩)
      (fun a _ b _ => h.int a b) hbest
    have hmem := (bestOf_spec rest v hbest).1
    exact Value.bigInt_eq htype (hint _ hmem) (hvals _ hmem).1 (mul_left_cancel₀ h.sign_ne hrank)
  | false =>
    have hfloat : ∀ w ∈ v :: rest, w.IsFloating type := by
      intro w hw
      rcases (hvals w hw).2.cases (hvals w hw).1 with hcase | hcase
      · exact absurd hcase.1 (by simp [htype])
      · exact hcase.2
    have hbest : Ranks (fun w => sign * f64Rank w.asF64) better (v :: rest) := fun w hw w' hw' =>
      h.value w w' _ _ ((hfloat w hw).partialCmp (hfloat w' hw') hwide)
    have hworst : ∀ w ∈ v :: rest, sign * f64Rank w.asF64 ≤ sign * f64Rank worstF64 := by
      intro w hw
      rw [h.worstF64]
      have hplace := (hvals w hw).2
      obtain ⟨-, u, rfl, -⟩ | ⟨htype, u, rfl, -⟩ := hfloat w hw
      · exact hplace.2.2
      · exact h.widened (hwide htype) u hplace.2.2
    have hnan : ∀ a ∈ worstF64 :: ns.map Prod.snd, f64IsNan a = false := by
      intro a ha
      rcases mem_cons.mp ha with rfl | hin
      · exact h.worstNumber
      · obtain ⟨p, hp, rfl⟩ := mem_map.mp hin
        obtain ⟨w, hw, hwp⟩ := mem_filterMap.mp (hperm.mem_iff.mp hp)
        obtain ⟨i, hi, hnumber⟩ := (hfloat w hw).number hwide
        obtain rfl := some_inj.mp (hi.symm.trans hwp)
        exact hnumber
    have hranks : Ranks (fun a => sign * f64Rank a) betterF64 (worstF64 :: ns.map Prod.snd) :=
      fun a ha b hb => h.f64 a b (hnan a ha) (hnan b hb)
    have hrank := rank_extremes Prod.snd (fun a => sign * f64Rank a) (fun w => sign * f64Rank w.asF64) hperm
      (fun w hw => by
        obtain ⟨i, hi, -⟩ := (hfloat w hw).number hwide
        exact ⟨_, hi, rfl, hworst w hw⟩)
      hranks hbest
    have hmem := (bestOf_spec rest v hbest).1
    exact (hfloat _ hmem).double_eq hwide (hnan _ (bestOf_spec _ _ hranks).1)
      (mul_left_cancel₀ h.sign_ne hrank)

/-! ## Sums of integers -/

/-- The integer is a `DOUBLE` too. -/
def IsExact (i : Int64) : Prop := Crates.f64ToI64 (Crates.i64ToF64 i) = i

/-- Small integers and their sums are the same as floating-point numbers. -/
structure ExactIntegers : Prop where
  zero : Crates.i64ToF64 0 = 0
  number : ∀ i : Int64, Small i.toInt → f64IsNan (Crates.i64ToF64 i) = false
  exact : ∀ i : Int64, Small i.toInt → IsExact i
  add : ∀ i j : Int64, Small i.toInt → IsExact j → Small (i.toInt + j.toInt) →
    Arithmetic.f64Add (Crates.i64ToF64 i) (Crates.i64ToF64 j) = Crates.i64ToF64 (i + j)

theorem foldl_f64Add (hexact : ExactIntegers) (s : Int64) {is : List Int64}
    (h : SmallSums s.toInt (is.map Int64.toInt))
    (his : ∀ i ∈ is, IsExact i) :
    ∃ total : Int64, (is.map Crates.i64ToF64).foldl Arithmetic.f64Add (Crates.i64ToF64 s) =
      Crates.i64ToF64 total ∧
      total.toInt = s.toInt + (is.map Int64.toInt).sum := by
  induction is generalizing s with
  | nil => exact ⟨s, rfl, by simp⟩
  | cons i is ih =>
    have hsmall : Small (s.toInt + i.toInt) := h.2.start
    have hadd := hexact.add s i h.1 (his i mem_cons_self) hsmall
    have hint := toInt_add_of_small hsmall
    obtain ⟨total, htotal, hsum⟩ := ih (s + i) (by rw [hint]; exact h.2) fun j hj =>
      his j (mem_cons_of_mem _ hj)
    refine ⟨total, ?_, ?_⟩
    · rw [map_cons, foldl_cons, hadd, htotal]
    · rw [hsum, hint, map_cons, sum_cons, add_assoc]

theorem foldlM_addValues {R : Int → Value → Prop} {vals : List Value}
    (hstep : ∀ n acc, R n acc → Small n → ∀ w ∈ vals, Small (n + w.int) →
      ∃ next, addValues acc w = .ok next ∧ R (n + w.int) next)
    {n : Int} {acc : Value} (hsums : SmallSums n (vals.map Value.int)) (hacc : R n acc) :
    ∃ s, vals.foldlM addValues acc = .ok s ∧ R (n + (vals.map Value.int).sum) s := by
  induction vals generalizing n acc with
  | nil => exact ⟨acc, rfl, by simpa using hacc⟩
  | cons w vals ih =>
    obtain ⟨next, hnext, hR⟩ := hstep n acc hacc hsums.1 w mem_cons_self hsums.2.start
    obtain ⟨s, hs, hsum⟩ := ih (fun m acc' hacc' hm x hx => hstep m acc' hacc' hm x (mem_cons_of_mem _ hx))
      hsums.2 hR
    refine ⟨s, ?_, ?_⟩
    · rw [foldlM_cons, hnext]
      exact hs
    · rw [map_cons, sum_cons, ← add_assoc]
      exact hsum

theorem Value.narrow (htype : type = .tinyInt ∨ type = .smallInt) (hw : type.holds w = true)
    (hnull : w.isNull = false) :
    (∃ j : Int64, w.toF64 = some (Crates.i64ToF64 j) ∧ j.toInt = w.int) ∧ Small w.int ∧
      ∀ acc x y, acc.toF64 = some x → w.toF64 = some y →
        addValues acc w = .ok (.double (Arithmetic.f64Add x y)) := by
  rcases htype with rfl | rfl <;> cases w <;> cases hw <;> cases hnull
  · rename_i j
    have hlow := Int8.le_toInt j
    have hhigh := Int8.toInt_lt j
    refine ⟨⟨_, rfl, Int8.toInt_toInt64 j⟩, ?_, ?_⟩
    · constructor <;> simp only [Value.int] <;> norm_num at * <;> omega
    · intro acc x y hx hy
      cases acc <;> simp only [addValues, hx, hy]
  · rename_i j
    have hlow := Int16.le_toInt j
    have hhigh := Int16.toInt_lt j
    refine ⟨⟨_, rfl, Int16.toInt_toInt64 j⟩, ?_, ?_⟩
    · constructor <;> simp only [Value.int] <;> norm_num at * <;> omega
    · intro acc x y hx hy
      cases acc <;> simp only [addValues, hx, hy]

theorem sumOf_add (hexact : ExactIntegers) (htype : type.isInteger = true) {n : Int} {acc : Value}
    (hacc : SumOf type n acc) (hn : Small n) (hw : type.holds w = true) (hnull : w.isNull = false)
    (hsum : Small (n + w.int)) :
    ∃ next, addValues acc w = .ok next ∧ SumOf type (n + w.int) next := by
  have hnarrow : type = .tinyInt ∨ type = .smallInt →
      ∃ next, addValues acc w = .ok next ∧ SumOf type (n + w.int) next := by
    intro htype
    obtain ⟨⟨j, hj, hjint⟩, hjsmall, hadd⟩ := Value.narrow htype hw hnull
    have hi : ∃ i : Int64, acc.toF64 = some (Crates.i64ToF64 i) ∧ i.toInt = n := by
      rcases (sumOf_narrow htype n acc).mp hacc with ⟨hholds, haccnull, hint⟩ | ⟨i, rfl, hi⟩
      · obtain ⟨⟨i, hi, hiint⟩, -⟩ := Value.narrow htype hholds haccnull
        exact ⟨i, hi, hiint.trans hint⟩
      · exact ⟨i, rfl, hi⟩
    obtain ⟨i, hi, hiint⟩ := hi
    have hsmall : Small (i.toInt + j.toInt) := by
      rw [hiint, hjint]
      exact hsum
    have hf64 := hexact.add i j (hiint ▸ hn) (hexact.exact j (hjint ▸ hjsmall)) hsmall
    refine ⟨_, hadd acc _ _ hi hj,
      (sumOf_narrow htype _ _).mpr (.inr ⟨i + j, congrArg Value.double hf64, ?_⟩)⟩
    rw [toInt_add_of_small hsmall, hiint, hjint]
  cases type <;> cases htype
  case tinyInt => exact hnarrow (.inl rfl)
  case smallInt => exact hnarrow (.inr rfl)
  case bigInt =>
    obtain ⟨i, rfl, rfl⟩ := hacc
    cases w <;> cases hw <;> cases hnull
    exact ⟨_, rfl, _, rfl, toInt_add_of_small hsum⟩
  case integer =>
    obtain ⟨i, rfl, hi⟩ := hacc
    cases w <;> cases hw <;> cases hnull
    refine ⟨_, rfl, _, rfl, ?_⟩
    rw [Int32.toInt_add, hi, Int.bmod_add_bmod]
    rfl

theorem bigInt_eq_of_sumOf (hexact : ExactIntegers) (htype : type.isInteger = true) {n : Int} {s : Value}
    (hs : SumOf type n s) (hn : Small n) (hfits : type = .integer → -2 ^ 31 ≤ n ∧ n < 2 ^ 31) {total : Int64}
    (htotal : total.toInt = n) : (Value.bigInt total).eq s = true := by
  have hnarrow : type = .tinyInt ∨ type = .smallInt → (Value.bigInt total).eq s = true := by
    intro hnarrow
    rcases (sumOf_narrow hnarrow n s).mp hs with ⟨hholds, hnull, hint⟩ | ⟨i, rfl, hi⟩
    · exact Value.bigInt_eq htype hholds hnull (htotal.trans hint.symm)
    · obtain rfl : i = total := Int64.toInt_inj.mp (hi.trans htotal.symm)
      have hnumber := hexact.number i (hi ▸ hn)
      have heq := (f64Eq_iff _ _).mpr ⟨hnumber, hnumber, rfl⟩
      simp only [Value.eq, Value.isNumeric, Value.compareNumericEq, Value.isDecimal, Value.isFloating,
        Value.toF64, Bool.or_self, Bool.false_eq_true, if_false, Bool.false_or, if_true, Bool.true_and]
      exact heq
  cases type <;> cases htype
  case tinyInt => exact hnarrow (.inl rfl)
  case smallInt => exact hnarrow (.inr rfl)
  case bigInt =>
    obtain ⟨i, rfl, hi⟩ := hs
    obtain rfl : i = total := Int64.toInt_inj.mp (hi.trans htotal.symm)
    simp [Value.eq]
  case integer =>
    obtain ⟨i, rfl, hi⟩ := hs
    have hbounds := hfits rfl
    have hint : i.toInt = n := by
      rw [hi, Int.bmod_eq_of_le]
      · norm_num at *
        omega
      · norm_num at *
        omega
    exact Value.bigInt_eq (show DataType.integer.isInteger = true from rfl) rfl rfl (htotal.trans hint.symm)

theorem Value.number_exact (hexact : ExactIntegers) (htype : type.isInteger = true) (hw : type.holds w = true)
    (hnull : w.isNull = false) (hbig : ∀ i, w = .bigInt i → IsExact i) :
    ∃ i : Int64, w.number = some (i, Crates.i64ToF64 i) ∧ i.toInt = w.int ∧ IsExact i := by
  obtain ⟨i, hi, hint, -⟩ := Value.number_of_isInteger htype hw hnull
  refine ⟨i, hi, hint, ?_⟩
  have hnarrow : type = .tinyInt ∨ type = .smallInt → IsExact i := fun hnarrow =>
    hexact.exact i (hint ▸ (Value.narrow hnarrow hw hnull).2.1)
  cases type <;> cases htype
  case tinyInt => exact hnarrow (.inl rfl)
  case smallInt => exact hnarrow (.inr rfl)
  case bigInt =>
    cases w <;> cases hw <;> cases hnull
    obtain rfl := congrArg Prod.fst (some_inj.mp hi)
    exact hbig _ rfl
  case integer =>
    cases w <;> cases hw <;> cases hnull
    rename_i k
    have hlow := Int32.le_toInt k
    have hhigh := Int32.toInt_lt k
    apply hexact.exact
    rw [hint]
    constructor <;> simp only [Value.int] <;> norm_num at * <;> omega

theorem sums_agree (hexact : ExactIntegers) (htype : type.isInteger = true) {rest : List Value}
    (hperm : ns.Perm ((v :: rest).filterMap Value.number))
    (hvals : ∀ w ∈ v :: rest, w.isNull = false ∧ type.holds w = true ∧ ∀ i, w = .bigInt i → IsExact i)
    (hstored : SmallSums 0 (ns.map fun p => p.1.toInt)) (hrows : SmallSums 0 ((v :: rest).map Value.int))
    (hfits : type = .integer → -2 ^ 31 ≤ ((v :: rest).map Value.int).sum ∧
      ((v :: rest).map Value.int).sum < 2 ^ 31) :
    ∃ s, rest.foldlM addValues v = .ok s ∧
      (Value.bigInt (Crates.f64ToI64 ((ns.map Prod.snd).foldl Arithmetic.f64Add 0))).eq s = true := by
  have hnumber := fun w hw => Value.number_exact hexact htype (hvals w hw).2.1 (hvals w hw).1 (hvals w hw).2.2
  have hpair : ∀ p ∈ ns, p.2 = Crates.i64ToF64 p.1 ∧ IsExact p.1 := by
    intro p hp
    obtain ⟨w, hw, hwp⟩ := mem_filterMap.mp (hperm.mem_iff.mp hp)
    obtain ⟨i, hi, -, hexacti⟩ := hnumber w hw
    obtain rfl := some_inj.mp (hi.symm.trans hwp)
    exact ⟨rfl, hexacti⟩
  have hsnd : ns.map Prod.snd = (ns.map Prod.fst).map Crates.i64ToF64 := by
    rw [map_map]
    exact map_congr_left fun p hp => (hpair p hp).1
  have hints : ((v :: rest).filterMap Value.number).map (fun p => p.1.toInt) = (v :: rest).map Value.int := by
    rw [map_filterMap, ← filterMap_eq_map']
    apply filterMap_congr
    intro w hw
    obtain ⟨i, hi, hint, -⟩ := hnumber w hw
    rw [hi, map_some, hint]
  have hsum : (ns.map fun p => p.1.toInt).sum = ((v :: rest).map Value.int).sum := by
    rw [← hints]
    exact (hperm.map _).sum_eq
  obtain ⟨total, htotal, htotalint⟩ := foldl_f64Add hexact 0
    (show SmallSums 0 ((ns.map Prod.fst).map Int64.toInt) by rw [map_map]; exact hstored) (by
      intro i hi
      obtain ⟨p, hp, rfl⟩ := mem_map.mp hi
      exact (hpair p hp).2)
  obtain ⟨s, hs, hsumof⟩ := foldlM_addValues (R := SumOf type)
    (fun n acc hacc hn w hw => sumOf_add hexact htype hacc hn (hvals w (mem_cons_of_mem _ hw)).2.1
      (hvals w (mem_cons_of_mem _ hw)).1)
    hrows.2 ((zero_add v.int).symm ▸ sumOf_self htype (hvals v mem_cons_self).2.1 (hvals v mem_cons_self).1)
  refine ⟨s, hs, ?_⟩
  have hint : total.toInt = 0 + ((v :: rest).map Value.int).sum := by
    rw [htotalint, ← hsum, map_map]
    rfl
  have hsmall := hrows.total
  rw [hsnd, ← hexact.zero, htotal, hexact.exact total (hint ▸ hsmall)]
  refine bigInt_eq_of_sumOf hexact htype ?_ hsmall (fun hinteger => ?_) hint
  · rw [map_cons, sum_cons, ← add_assoc]
    exact hsumof
  · rw [zero_add]
    exact hfits hinteger

end

end H2Database.Sql
