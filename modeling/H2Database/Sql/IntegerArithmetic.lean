import H2Database.Sql.Aggregate
import H2Database.Sql.Interval
import H2Database.Sql.IntegerCast

/-!
# Arithmetic on integers (`h2-sql/src/expression.rs`, `h2-sql/src/executor/query.rs`)

`evaluate_arithmetic_op` and `add_values` where the operands are integers.  Two integers of 32 bits, or two
of 64 bits, are taken in their width, and all other pairs as floating-point numbers, which here stand for
their values.
-/

namespace H2Database.Sql

open Reasoning List Int

inductive IntegerValue where
  | tinyInt (i : Int8)
  | smallInt (i : Int16)
  | integer (i : Int32)
  | bigInt (i : Int64)

namespace IntegerValue

def toValue : IntegerValue → Value
  | tinyInt i => .tinyInt i
  | smallInt i => .smallInt i
  | integer i => .integer i
  | bigInt i => .bigInt i

def bits : IntegerValue → Nat
  | tinyInt _ => 8
  | smallInt _ => 16
  | integer _ => 32
  | bigInt _ => 64

def kind (v : IntegerValue) : Option Nat := if 32 ≤ v.bits then some v.bits else none

def toInt : IntegerValue → Int
  | tinyInt i => i.toInt
  | smallInt i => i.toInt
  | integer i => i.toInt
  | bigInt i => i.toInt

/-- `to_f64`; a 64-bit integer is never too large. -/
def toF64 (v : IntegerValue) : ℚ := nearest v.toInt

end IntegerValue

inductive Number where
  | int (v : IntegerValue)
  | double (x : Binary64)

inductive ArithmeticOp where
  | plus
  | minus
  | multiply
  | divide
  | modulo

/-- Two integers of one width: `wrap` makes a value of the result, modulo the width, and the quotient and
the remainder of the least one by -1 panic. -/
def sameKind (wrap : Int → IntegerValue) (least l : Int) (op : ArithmeticOp) (r : Int) :
    Checked (H2Result Number) :=
  let divided (n : Int) : Checked (H2Result Number) :=
    if r = 0 then .ok (.error (.execution "Division by zero"))
    else if l = least ∧ r = -1 then .error ⟨⟩
    else .ok (.ok (.int (wrap n)))
  match op with
  | .plus => .ok (.ok (.int (wrap (l + r))))
  | .minus => .ok (.ok (.int (wrap (l - r))))
  | .multiply => .ok (.ok (.int (wrap (l * r))))
  | .divide => divided (l.tdiv r)
  | .modulo => divided (l.tmod r)

def wrapInteger (n : Int) : IntegerValue := .integer (Int32.ofInt n)

def wrapBigInt (n : Int) : IntegerValue := .bigInt (Int64.ofInt n)

/-- The last arm: a remainder is one of 64-bit integers, everything else is a `DOUBLE`. -/
def mixedKinds (l : IntegerValue) (op : ArithmeticOp) (r : IntegerValue) : Checked (H2Result Number) :=
  match op with
  | .plus => .ok (.ok (.double (.ofRat (l.toF64 + r.toF64))))
  | .minus => .ok (.ok (.double (.ofRat (l.toF64 - r.toF64))))
  | .multiply => .ok (.ok (.double (.ofRat (l.toF64 * r.toF64))))
  | .divide => .ok (.ok (.double (
    if r.toF64 ≠ 0 then .ofRat (l.toF64 / r.toF64)
    else if l.toF64 = 0 then .nan
    else .infinite (decide (l.toF64 < 0)))))
  | .modulo => sameKind wrapBigInt (-2 ^ 63) l.toInt .modulo r.toInt

def evaluateArithmeticOp (left : IntegerValue) (op : ArithmeticOp) (right : IntegerValue) :
    Checked (H2Result Number) :=
  match left, right with
  | .integer l, .integer r => sameKind wrapInteger (-2 ^ 31) l.toInt op r.toInt
  | .bigInt l, .bigInt r => sameKind wrapBigInt (-2 ^ 63) l.toInt op r.toInt
  | l, r => mixedKinds l op r

def addFinite : Binary64 → ℚ → Binary64
  | .finite x, y => .ofRat (x + y)
  | x, _ => x

/-- `add_values` on a sum and the next integer. -/
def Number.addValue (sum : Number) (v : IntegerValue) : Number :=
  match sum, v with
  | .int (.integer a), .integer b => .int (wrapInteger (a.toInt + b.toInt))
  | .int (.bigInt a), .bigInt b => .int (wrapBigInt (a.toInt + b.toInt))
  | .int a, b => .double (addFinite (.finite a.toF64) b.toF64)
  | .double x, b => .double (addFinite x b.toF64)

/-- `SUM` of integers, of which there is a first. -/
def sumIntegers (v : IntegerValue) (vs : List IntegerValue) : Number := vs.foldl Number.addValue (.int v)

/-! ## What is to come out -/

def exactResult (l : Int) (op : ArithmeticOp) (r : Int) : Option Int :=
  match op with
  | .plus => some (l + r)
  | .minus => some (l - r)
  | .multiply => some (l * r)
  | .divide => if r = 0 then none else some (l.tdiv r)
  | .modulo => if r = 0 then none else some (l.tmod r)

def Number.Is (n : Int) : Number → Prop
  | .int v => v.toInt = n
  | .double x => x = .finite n

def ExactOrRefused (outcome : Checked (H2Result Number)) (exact : Option Int) : Prop :=
  match outcome with
  | .error _ => False
  | .ok (.error _) => True
  | .ok (.ok v) => ∃ n, exact = some n ∧ v.Is n

def FitsSameKind (w : Nat) (l : Int) (op : ArithmeticOp) (r : Int) : Prop :=
  match op with
  | .plus => FitsWidth w (l + r)
  | .minus => FitsWidth w (l - r)
  | .multiply => FitsWidth w (l * r)
  | .divide | .modulo => ¬ (l = -2 ^ (w - 1) ∧ r = -1)

def IsDouble (n : Int) : Prop := Binary64.ofRat n = .finite n

def FitsMixedKinds (l : Int) (op : ArithmeticOp) (r : Int) : Prop :=
  match op with
  | .plus => IsDouble l ∧ IsDouble r ∧ IsDouble (l + r)
  | .minus => IsDouble l ∧ IsDouble r ∧ IsDouble (l - r)
  | .multiply => IsDouble l ∧ IsDouble r ∧ IsDouble (l * r)
  | .divide => IsDouble l ∧ IsDouble r ∧ r ≠ 0 ∧ r ∣ l ∧ IsDouble (l / r)
  | .modulo => FitsSameKind 64 l .modulo r

def SameKind (a b : IntegerValue) : Prop := a.bits = b.bits ∧ 32 ≤ a.bits

instance instDecidableSameKind (a b : IntegerValue) : Decidable (SameKind a b) :=
  inferInstanceAs (Decidable (_ ∧ _))

def FitsArithmetic (a : IntegerValue) (op : ArithmeticOp) (b : IntegerValue) : Prop :=
  if SameKind a b then FitsSameKind a.bits a.toInt op b.toInt else FitsMixedKinds a.toInt op b.toInt

/-- A sum of a kind is added in the width of the kind, and where it ends or goes on as a floating-point number
it fits; from there on the values and the sums are floating-point numbers. -/
def SafeSum : Option Nat → Int → List IntegerValue → Prop
  | kind, n, [] => ∀ w, kind = some w → FitsWidth w n
  | kind, n, v :: vs =>
    if kind.isSome = true ∧ v.kind = kind then SafeSum kind (n + v.toInt) vs
    else (∀ w, kind = some w → FitsWidth w n) ∧ (IsDouble n ∧ IsDouble v.toInt ∧ IsDouble (n + v.toInt)) ∧
      SafeSum none (n + v.toInt) vs

/-! ## Operands of one width -/

theorem IntegerValue.fitsWidth (v : IntegerValue) : FitsWidth v.bits v.toInt := by
  cases v with
  | tinyInt i => exact ⟨Int8.le_toInt i, Int8.toInt_lt i⟩
  | smallInt i => exact ⟨Int16.le_toInt i, Int16.toInt_lt i⟩
  | integer i => exact ⟨Int32.le_toInt i, Int32.toInt_lt i⟩
  | bigInt i => exact ⟨Int64.le_toInt i, Int64.toInt_lt i⟩

theorem IntegerValue.bits_pos (v : IntegerValue) : 0 < v.bits := by
  cases v <;> exact Nat.succ_pos _

theorem toInt_wrapInteger (n : Int) : (wrapInteger n).toInt = n.bmod (2 ^ 32) := Int32.toInt_ofInt

theorem toInt_wrapBigInt (n : Int) : (wrapBigInt n).toInt = n.bmod (2 ^ 64) := Int64.toInt_ofInt

variable {v : IntegerValue} {n : Int}

theorem exactOrRefused_int_iff :
    ExactOrRefused (.ok (.ok (.int v))) (some n) ↔ v.toInt = n := by
  constructor
  · rintro ⟨m, hm, hv⟩
    exact Option.some.inj hm ▸ hv
  · exact fun hv => ⟨n, rfl, hv⟩

variable {w : Nat}

theorem fitsWidth_tdiv {l r : Int} (hl : FitsWidth w l) (hno : ¬ (l = -2 ^ (w - 1) ∧ r = -1)) :
    FitsWidth w (l.tdiv r) := by
  have habs : (l.tdiv r).natAbs = l.natAbs / r.natAbs := natAbs_tdiv l r
  have hle : l.natAbs / r.natAbs ≤ l.natAbs := Nat.div_le_self _ _
  have hpow : (0 : Int) < 2 ^ (w - 1) := pow_pos (by decide) _
  obtain ⟨hlow, hhigh⟩ := hl
  refine ⟨by omega, ?_⟩
  by_contra hge
  -- the quotient is as large as the dividend, which is the least number
  have hmin : l = -2 ^ (w - 1) := by omega
  have hone : r.natAbs = 1 := by
    by_contra hne
    have hlt : 1 < r.natAbs := by
      rcases Nat.eq_zero_or_pos r.natAbs with hzero | hpos
      · rw [hzero, Nat.div_zero] at habs
        omega
      · omega
    have := Nat.div_lt_self (show 0 < l.natAbs by omega) hlt
    omega
  rcases natAbs_eq r with hr | hr
  · rw [hone] at hr
    rw [hr, hmin, Nat.cast_one, Int.tdiv_one] at hge
    omega
  · exact hno ⟨hmin, by omega⟩

theorem fitsWidth_tmod {l : Int} (r : Int) (hl : FitsWidth w l) : FitsWidth w (l.tmod r) := by
  have hle : (l.tmod r).natAbs ≤ l.natAbs := by
    rw [natAbs_tmod]
    exact Nat.mod_le _ _
  obtain ⟨hlow, hhigh⟩ := hl
  rcases le_total 0 l with hpos | hneg
  · have := tmod_nonneg r hpos
    exact ⟨by omega, by omega⟩
  · have := tmod_nonneg r (show 0 ≤ -l by omega)
    rw [neg_tmod] at this
    exact ⟨by omega, by omega⟩

theorem exactOrRefused_sameKind_iff (hw : 0 < w) {wrap : Int → IntegerValue}
    (hwrap : ∀ n, (wrap n).toInt = n.bmod (2 ^ w)) {l : Int} (hl : FitsWidth w l) (op : ArithmeticOp)
    (r : Int) :
    ExactOrRefused (sameKind wrap (-2 ^ (w - 1)) l op r) (exactResult l op r) ↔ FitsSameKind w l op r := by
  have hfits : ∀ n, ExactOrRefused (.ok (.ok (.int (wrap n)))) (some n) ↔ FitsWidth w n := by
    intro n
    rw [exactOrRefused_int_iff, hwrap, bmod_eq_self_iff hw]
  have hdivided : ∀ n, (¬ (l = -2 ^ (w - 1) ∧ r = -1) → FitsWidth w n) →
      (ExactOrRefused (if r = 0 then .ok (.error (.execution "Division by zero"))
        else if l = -2 ^ (w - 1) ∧ r = -1 then .error ⟨⟩
        else .ok (.ok (.int (wrap n)))) (if r = 0 then none else some n) ↔
          ¬ (l = -2 ^ (w - 1) ∧ r = -1)) := by
    intro n hn
    by_cases hzero : r = 0
    · rw [if_pos hzero]
      exact iff_of_true trivial fun hno => by omega
    · rw [if_neg hzero, if_neg hzero]
      split_ifs with hno
      · exact iff_of_false id (not_not_intro hno)
      · exact iff_of_true ((hfits n).mpr (hn hno)) hno
  cases op with
  | plus => exact hfits _
  | minus => exact hfits _
  | multiply => exact hfits _
  | divide => exact hdivided _ (fitsWidth_tdiv hl)
  | modulo => exact hdivided _ fun _ => fitsWidth_tmod r hl

/-! ## Operands of two widths -/

theorem IntegerValue.abs_toInt_le (v : IntegerValue) : |(v.toInt : ℚ)| ≤ 2 ^ 63 := by
  have hint : |v.toInt| ≤ 2 ^ 63 := by
    obtain ⟨hlow, hhigh⟩ := v.fitsWidth
    cases v <;> simp only [bits] at hlow hhigh <;> rw [abs_le] <;> omega
  exact_mod_cast hint

theorem exactOrRefused_double_iff {q : ℚ} {e : Nat} (hq : |q| ≤ 2 ^ e) (he : e < 1024) :
    ExactOrRefused (.ok (.ok (.double (.ofRat q)))) (some n) ↔ nearest q = n := by
  rw [Binary64.ofRat_of_abs_le hq he]
  constructor
  · rintro ⟨m, hm, hv⟩
    exact Option.some.inj hm ▸ Binary64.finite.inj hv
  · exact fun hv => ⟨n, rfl, congrArg _ hv⟩

theorem isDouble_iff {e : Nat} (hn : |(n : ℚ)| ≤ 2 ^ e) (he : e < 1024) : IsDouble n ↔ nearest n = n := by
  rw [IsDouble, Binary64.ofRat_of_abs_le hn he]
  exact ⟨fun h => Binary64.finite.inj h, fun h => congrArg _ h⟩

theorem IntegerValue.toF64_of_isDouble (h : IsDouble v.toInt) : v.toF64 = v.toInt :=
  (isDouble_iff v.abs_toInt_le (by decide)).mp h

theorem exactOrRefused_cast_iff {q : ℚ} {e : Nat} (hq : q = n) (hn : |q| ≤ 2 ^ e) (he : e < 1024) :
    ExactOrRefused (.ok (.ok (.double (.ofRat q)))) (some n) ↔ IsDouble n := by
  rw [exactOrRefused_double_iff hn he, isDouble_iff (hq ▸ hn) he, hq]

/-- Of operands that are floating-point numbers the result has to be one; a quotient has to be whole. -/
theorem exactOrRefused_mixedKinds_iff {l r : IntegerValue} {op : ArithmeticOp} (hl : IsDouble l.toInt)
    (hr : IsDouble r.toInt) (hop : op ≠ .modulo)
    (hdivides : op = .divide → r.toInt ∣ l.toInt ∨ |l.toInt| < 2 ^ 53 ∧ |r.toInt| < 2 ^ 53) :
    ExactOrRefused (mixedKinds l op r) (exactResult l.toInt op r.toInt) ↔
      FitsMixedKinds l.toInt op r.toInt := by
  have hlabs := l.abs_toInt_le
  have hrabs := r.abs_toInt_le
  have hadd : (2 : ℚ) ^ 63 + 2 ^ 63 = 2 ^ 64 := by norm_num
  unfold mixedKinds exactResult FitsMixedKinds
  rw [l.toF64_of_isDouble hl, r.toF64_of_isDouble hr]
  simp only [and_iff_right hl, and_iff_right hr]
  cases op with
  | modulo => exact absurd rfl hop
  | plus =>
    exact exactOrRefused_cast_iff (by push_cast; rfl) ((abs_add_le _ _).trans (hadd ▸ add_le_add hlabs hrabs))
      (by decide)
  | minus =>
    exact exactOrRefused_cast_iff (by push_cast; rfl) ((abs_sub _ _).trans (hadd ▸ add_le_add hlabs hrabs))
      (by decide)
  | multiply =>
    refine exactOrRefused_cast_iff (by push_cast; rfl) (e := 63 + 63) ?_ (by decide)
    rw [abs_mul, pow_add]
    exact mul_le_mul hlabs hrabs (abs_nonneg _) (by positivity)
  | divide =>
    by_cases hzero : r.toInt = 0
    · rw [if_pos hzero]
      constructor
      · rintro ⟨n, hn, -⟩
        cases hn
      · exact fun h => absurd hzero h.1
    have hne : (r.toInt : ℚ) ≠ 0 := by exact_mod_cast hzero
    have hquot : |(l.toInt : ℚ) / r.toInt| ≤ 2 ^ 63 := by
      have hone : 1 ≤ |(r.toInt : ℚ)| := by exact_mod_cast one_le_abs hzero
      rw [abs_div]
      exact (div_le_self (abs_nonneg _) hone).trans hlabs
    rw [if_neg hzero, if_pos hne, and_iff_right hzero]
    by_cases hdvd : r.toInt ∣ l.toInt
    · rw [and_iff_right hdvd, tdiv_eq_ediv_of_dvd hdvd]
      exact exactOrRefused_cast_iff (cast_div hdvd hne).symm hquot (by decide)
    · rw [exactOrRefused_double_iff hquot (by decide)]
      have hsmall := (hdivides rfl).resolve_left hdvd
      exact iff_of_false (fun h => hdvd (dvd_of_nearest_div hsmall.1 hsmall.2 hzero h)) fun h => hdvd h.1

theorem FitsMixedKinds.operands {l r : Int} {op : ArithmeticOp} (h : FitsMixedKinds l op r)
    (hop : op ≠ .modulo) :
    (IsDouble l ∧ IsDouble r) ∧ (op = .divide → r ∣ l) := by
  cases op with
  | modulo => exact absurd rfl hop
  | divide => exact ⟨⟨h.1, h.2.1⟩, fun _ => h.2.2.2.1⟩
  | plus => exact ⟨⟨h.1, h.2.1⟩, fun heq => by cases heq⟩
  | minus => exact ⟨⟨h.1, h.2.1⟩, fun heq => by cases heq⟩
  | multiply => exact ⟨⟨h.1, h.2.1⟩, fun heq => by cases heq⟩

theorem isDouble_of_small (h : |n| < 2 ^ 53) : IsDouble n := Binary64.ofRat_intCast h

/-! ## The evaluator -/

theorem evaluateArithmeticOp_sameKind {a b : IntegerValue} (h : SameKind a b) (op : ArithmeticOp) :
    ∃ wrap, (∀ n, (wrap n).toInt = n.bmod (2 ^ a.bits)) ∧
      evaluateArithmeticOp a op b = sameKind wrap (-2 ^ (a.bits - 1)) a.toInt op b.toInt := by
  obtain ⟨hbits, hwide⟩ := h
  cases a <;> cases b <;> simp only [IntegerValue.bits] at hbits hwide <;> try omega
  · exact ⟨wrapInteger, toInt_wrapInteger, rfl⟩
  · exact ⟨wrapBigInt, toInt_wrapBigInt, rfl⟩

theorem evaluateArithmeticOp_mixedKinds {a b : IntegerValue} (h : ¬ SameKind a b) (op : ArithmeticOp) :
    evaluateArithmeticOp a op b = mixedKinds a op b := by
  cases a <;> cases b <;> first | rfl | exact absurd ⟨rfl, Nat.le_of_ble_eq_true rfl⟩ h

/-- The value is exact or refused where the operands and the result fit, and nowhere else, unless operands of
two widths have more than 53 places. -/
theorem exactOrRefused_evaluateArithmeticOp (a : IntegerValue) (op : ArithmeticOp) (b : IntegerValue) :
    (FitsArithmetic a op b → ExactOrRefused (evaluateArithmeticOp a op b) (exactResult a.toInt op b.toInt)) ∧
    (SameKind a b ∨ op = .modulo ∨ |a.toInt| < 2 ^ 53 ∧ |b.toInt| < 2 ^ 53 →
      ExactOrRefused (evaluateArithmeticOp a op b) (exactResult a.toInt op b.toInt) →
        FitsArithmetic a op b) := by
  rw [FitsArithmetic]
  by_cases hsame : SameKind a b
  · obtain ⟨wrap, hwrap, heq⟩ := evaluateArithmeticOp_sameKind hsame op
    have hiff := exactOrRefused_sameKind_iff a.bits_pos hwrap a.fitsWidth op b.toInt
    rw [if_pos hsame, heq]
    exact ⟨hiff.mpr, fun _ => hiff.mp⟩
  rw [if_neg hsame, evaluateArithmeticOp_mixedKinds hsame]
  by_cases hop : op = .modulo
  · subst hop
    have hfits : FitsWidth 64 a.toInt := by
      have := a.fitsWidth
      cases a <;> simp only [FitsWidth, IntegerValue.bits] at this ⊢ <;> omega
    have hiff := exactOrRefused_sameKind_iff (by decide) toInt_wrapBigInt hfits .modulo b.toInt
    exact ⟨hiff.mpr, fun _ => hiff.mp⟩
  constructor
  · intro h
    obtain ⟨⟨hl, hr⟩, hdvd⟩ := h.operands hop
    exact (exactOrRefused_mixedKinds_iff hl hr hop fun heq => Or.inl (hdvd heq)).mpr h
  · intro hsmall
    have hsmall := (hsmall.resolve_left hsame).resolve_left hop
    exact (exactOrRefused_mixedKinds_iff (isDouble_of_small hsmall.1) (isDouble_of_small hsmall.2) hop
      fun _ => Or.inr hsmall).mp

theorem applyUnary_minus [Arithmetic] (a : IntegerValue) : ∃ v : IntegerValue,
    applyUnary .minus a.toValue = .ok v.toValue ∧ (v.toInt = -a.toInt ↔ a.toInt ≠ -2 ^ (a.bits - 1)) := by
  have hfits : FitsWidth a.bits (-a.toInt) ↔ a.toInt ≠ -2 ^ (a.bits - 1) := by
    obtain ⟨hlow, hhigh⟩ := a.fitsWidth
    have hpow : (0 : Int) < 2 ^ (a.bits - 1) := pow_pos (by decide) _
    rw [FitsWidth]
    omega
  have hneg : ∀ m, m = (-a.toInt).bmod (2 ^ a.bits) → (m = -a.toInt ↔ a.toInt ≠ -2 ^ (a.bits - 1)) := by
    intro m hm
    rw [hm, bmod_eq_self_iff a.bits_pos, hfits]
  cases a with
  | tinyInt i => exact ⟨.tinyInt (-i), rfl, hneg _ (Int8.toInt_neg i)⟩
  | smallInt i => exact ⟨.smallInt (-i), rfl, hneg _ (Int16.toInt_neg i)⟩
  | integer i => exact ⟨.integer (-i), rfl, hneg _ (Int32.toInt_neg i)⟩
  | bigInt i => exact ⟨.bigInt (-i), rfl, hneg _ (Int64.toInt_neg i)⟩

/-- What stands for a sum of a kind, or for one that is a floating-point number or is going to be one. -/
def SumIs (kind : Option Nat) (n : Int) (sum : Number) : Prop :=
  match kind with
  | some w => ∃ v : IntegerValue, sum = .int v ∧ v.kind = some w ∧ v.toInt = n.bmod (2 ^ w)
  | none => sum.Is n ∧ ∀ v, sum = .int v → v.kind = none

theorem IntegerValue.kind_eq_some (h : v.kind = some w) : v.bits = w := by
  rw [kind] at h
  split_ifs at h
  exact Option.some.inj h

theorem sumIs_self (v : IntegerValue) : SumIs v.kind v.toInt (.int v) := by
  cases hkind : v.kind with
  | none => exact ⟨rfl, fun u hu => Number.int.inj hu ▸ hkind⟩
  | some w =>
    refine ⟨v, rfl, hkind, ?_⟩
    rw [← v.kind_eq_some hkind, (bmod_eq_self_iff v.bits_pos _).mpr v.fitsWidth]

variable {sum : Number}

theorem SumIs.add_sameKind (h : SumIs (some w) n sum)
    (hv : v.kind = some w) : SumIs (some w) (n + v.toInt) (sum.addValue v) := by
  obtain ⟨u, rfl, hu, hn⟩ := h
  have hsum : (u.toInt + v.toInt).bmod (2 ^ w) = (n + v.toInt).bmod (2 ^ w) := by
    rw [hn, bmod_add_bmod]
  have hkinds := hu.trans hv.symm
  cases u <;> cases v <;> cases hu <;> cases hkinds
  · exact ⟨_, rfl, rfl, (toInt_wrapInteger _).trans hsum⟩
  · exact ⟨_, rfl, rfl, (toInt_wrapBigInt _).trans hsum⟩

variable {kind : Option Nat}

theorem SumIs.is (h : SumIs kind n sum) (hfits : ∀ w, kind = some w → FitsWidth w n) : sum.Is n := by
  cases kind with
  | none => exact h.1
  | some w =>
    obtain ⟨v, rfl, hv, hn⟩ := h
    exact hn.trans ((bmod_eq_self_iff (v.kind_eq_some hv ▸ v.bits_pos) n).mpr (hfits w rfl))

theorem SumIs.add_double (h : SumIs kind n sum)
    (hkind : ¬ (kind.isSome = true ∧ v.kind = kind)) (hfits : ∀ w, kind = some w → FitsWidth w n)
    (hn : IsDouble n) (hv : IsDouble v.toInt) (hsum : IsDouble (n + v.toInt)) :
    SumIs none (n + v.toInt) (sum.addValue v) := by
  have hadd : addFinite (.finite n) v.toF64 = .finite ((n + v.toInt : Int) : ℚ) := by
    rw [v.toF64_of_isDouble hv, addFinite, ← hsum, cast_add]
  have hdouble : sum.addValue v = .double (addFinite (.finite n) v.toF64) := by
    have his := h.is hfits
    cases sum with
    | double x =>
      obtain rfl : x = _ := his
      rfl
    | int u =>
      obtain rfl : u.toInt = n := his
      have hother : ¬ (u.kind.isSome = true ∧ v.kind = u.kind) := by
        rintro ⟨hsome, heq⟩
        cases kind with
        | none =>
          rw [h.2 u rfl] at hsome
          cases hsome
        | some w =>
          obtain ⟨u', hu', hw, -⟩ := h
          rw [← Number.int.inj hu'] at hw
          exact hkind ⟨rfl, heq.trans hw⟩
      rw [← u.toF64_of_isDouble hn]
      cases u <;> cases v <;> first | rfl | exact absurd ⟨rfl, rfl⟩ hother
  rw [hdouble, hadd]
  exact ⟨rfl, fun u hu => by cases hu⟩

variable {vs : List IntegerValue}

theorem SumIs.foldl (h : SumIs kind n sum)
    (hsafe : SafeSum kind n vs) :
      (vs.foldl Number.addValue sum).Is (n + (vs.map IntegerValue.toInt).sum) := by
  induction vs generalizing kind n sum with
  | nil =>
    rw [map_nil, sum_nil, add_zero]
    exact h.is hsafe
  | cons v vs ih =>
    rw [map_cons, sum_cons, ← add_assoc, foldl_cons]
    rw [SafeSum] at hsafe
    split_ifs at hsafe with hkind
    · obtain ⟨w, rfl⟩ := Option.isSome_iff_exists.mp hkind.1
      exact ih (h.add_sameKind hkind.2) hsafe
    · obtain ⟨hfits, ⟨hn, hv, hsum⟩, hsafe⟩ := hsafe
      exact ih (h.add_double hkind hfits hn hv hsum) hsafe

theorem SumIs.foldl_sameKind (h : SumIs (some w) n sum) (hvs : ∀ v ∈ vs, v.kind = some w) :
    SumIs (some w) (n + (vs.map IntegerValue.toInt).sum) (vs.foldl Number.addValue sum) := by
  induction vs generalizing n sum with
  | nil =>
    rw [map_nil, sum_nil, add_zero]
    exact h
  | cons v vs ih =>
    obtain ⟨hv, hvs⟩ := forall_mem_cons.mp hvs
    rw [map_cons, sum_cons, ← add_assoc]
    exact ih (h.add_sameKind hv) hvs

theorem sumIntegers_is (v : IntegerValue) (vs : List IntegerValue) :
    (SafeSum v.kind v.toInt vs → (sumIntegers v vs).Is (v.toInt + (vs.map IntegerValue.toInt).sum)) ∧
    ∀ w, v.kind = some w → (∀ u ∈ vs, u.kind = some w) →
      ((sumIntegers v vs).Is (v.toInt + (vs.map IntegerValue.toInt).sum) ↔
        FitsWidth w (v.toInt + (vs.map IntegerValue.toInt).sum)) := by
  refine ⟨(sumIs_self v).foldl, fun w hv hvs => ?_⟩
  have hsum : SumIs (some w) _ (sumIntegers v vs) := SumIs.foldl_sameKind (hv ▸ sumIs_self v) hvs
  obtain ⟨u, hu, hkind, hn⟩ := hsum
  rw [hu, ← bmod_eq_self_iff (u.kind_eq_some hkind ▸ u.bits_pos), ← hn]
  exact Iff.rfl

section

variable [Crates] [Arithmetic]

/-- The value of a number, with the bits that stand for a floating-point one. -/
def Number.toValue (encode : Binary64 → UInt64) : Number → Value
  | .int v => v.toValue
  | .double x => .double (encode x)

theorem foldlM_addValues_toValue {encode : Binary64 → UInt64}
    (hint : ∀ i : Int64, Crates.i64ToF64 i = encode (.finite (nearest i.toInt)))
    (hadd : ∀ x y, Arithmetic.f64Add (encode x) (encode (.finite y)) = encode (addFinite x y))
    (sum : Number) (vs : List IntegerValue) :
      (vs.map IntegerValue.toValue).foldlM addValues (sum.toValue encode) =
      .ok ((vs.foldl Number.addValue sum).toValue encode) := by
  induction vs generalizing sum with
  | nil => rfl
  | cons v vs ih =>
    have hone : addValues (sum.toValue encode) v.toValue = .ok ((sum.addValue v).toValue encode) := by
      cases sum with
      | double x =>
        cases v <;> simp [Number.toValue, IntegerValue.toValue, addValues, Value.toF64, hint, hadd,
          Number.addValue, IntegerValue.toF64, IntegerValue.toInt]
      | int u =>
        cases u <;> cases v <;> simp [Number.toValue, IntegerValue.toValue, addValues, Value.toF64, hint, hadd,
          Number.addValue, IntegerValue.toF64, IntegerValue.toInt, wrapInteger, wrapBigInt, Int32.ofInt_add,
          Int64.ofInt_add]
    rw [map_cons, foldlM_cons, hone]
    exact ih _

end

/-- Where operands and results fit, arithmetic is exact or refused; where they do not, it is neither, but for
floating-point numbers of more than 53 places, whose rounding may come out right. -/
theorem integer_arithmetic_exact [Arithmetic] :
    (∀ a op b, (FitsArithmetic a op b →
      ExactOrRefused (evaluateArithmeticOp a op b) (exactResult a.toInt op b.toInt)) ∧
      (SameKind a b ∨ op = .modulo ∨ |a.toInt| < 2 ^ 53 ∧ |b.toInt| < 2 ^ 53 →
        ExactOrRefused (evaluateArithmeticOp a op b) (exactResult a.toInt op b.toInt) →
          FitsArithmetic a op b)) ∧
    (∀ a : IntegerValue, ∃ v : IntegerValue, applyUnary .minus a.toValue = .ok v.toValue ∧
      (v.toInt = -a.toInt ↔ a.toInt ≠ -2 ^ (a.bits - 1))) ∧
    ∀ v vs, (SafeSum v.kind v.toInt vs → (sumIntegers v vs).Is (v.toInt + (vs.map IntegerValue.toInt).sum)) ∧
      ∀ w, v.kind = some w → (∀ u ∈ vs, u.kind = some w) →
        ((sumIntegers v vs).Is (v.toInt + (vs.map IntegerValue.toInt).sum) ↔
          FitsWidth w (v.toInt + (vs.map IntegerValue.toInt).sum)) :=
  ⟨exactOrRefused_evaluateArithmeticOp, applyUnary_minus, sumIntegers_is⟩

/-- A sum that wraps around, a quotient that panics, and 7 / 2 of two widths, which is not 3. -/
theorem integer_arithmetic_wraps :
    ¬ ExactOrRefused (evaluateArithmeticOp (.integer 2147483647) .plus (.integer 1)) (some 2147483648) ∧
    ¬ ExactOrRefused (evaluateArithmeticOp (.bigInt (-9223372036854775808)) .divide (.bigInt (-1)))
      (some 9223372036854775808) ∧
    ¬ ExactOrRefused (evaluateArithmeticOp (.tinyInt 7) .divide (.smallInt 2)) (some 3) := by
  refine ⟨?_, id, ?_⟩
  · rintro ⟨n, hn, hv⟩
    cases hn
    exact absurd (show (-2147483648 : Int) = 2147483648 from hv) (by decide)
  · intro h
    have hfits := (exactOrRefused_evaluateArithmeticOp (.tinyInt 7) .divide (.smallInt 2)).2
      (.inr (.inr (by decide))) h
    exact absurd hfits.2.2.2.1 (by decide)

end H2Database.Sql
