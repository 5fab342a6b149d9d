import Mathlib.Data.Int.Log
import Mathlib.Data.Rat.Floor
import Mathlib.Tactic.FieldSimp
import Mathlib.Tactic.GCongr
import Mathlib.Tactic.Linarith
import Mathlib.Tactic.NormNum
import Mathlib.Tactic.Positivity
import Mathlib.Tactic.Ring

/-!
# Floating-point numbers of 64 bits

A finite number stands for its value, and the two zeros are one.  `nearest` rounds a rational to 53 binary
places, of two equally near ones to the even, and for small numbers to multiples of `2 ^ -1074`.  Where a
number is the quotient of two naturals, `nearest` is a division of naturals that is rounded.
-/

namespace H2Database.Reasoning

open Nat

/-! ## Rounding to integers -/

def roundHalfEven (q : ℚ) : ℤ :=
  let below := ⌊q⌋
  if q - below < 1 / 2 then below
  else if 1 / 2 < q - below then below + 1
  else if below % 2 = 0 then below
  else below + 1

variable {z : ℤ} {q : ℚ}

theorem le_roundHalfEven (h : (z : ℚ) ≤ q) : z ≤ roundHalfEven q := by
  have hfloor : z ≤ ⌊q⌋ := Int.le_floor.mpr h
  unfold roundHalfEven
  simp only
  split_ifs <;> omega

theorem roundHalfEven_le (h : q ≤ z) : roundHalfEven q ≤ z := by
  have hfloor : ⌊q⌋ ≤ z := by
    have := (Int.floor_le q).trans h
    exact_mod_cast this
  -- where it is rounded up, there is a fraction, and the integer below is not `z`
  have hup : ¬ q - ⌊q⌋ < 1 / 2 → ⌊q⌋ + 1 ≤ z := by
    intro hfrac
    have hlt : (⌊q⌋ : ℚ) < z := by linarith
    have : ⌊q⌋ < z := by exact_mod_cast hlt
    omega
  unfold roundHalfEven
  simp only
  split_ifs with h1
  · exact hfloor
  · exact hup h1
  · exact hfloor
  · exact hup h1

theorem roundHalfEven_intCast (z : ℤ) : roundHalfEven z = z :=
  le_antisymm (roundHalfEven_le (le_refl _)) (le_roundHalfEven (le_refl _))

/-- A division of naturals, rounded to the nearest and of two to the even quotient. -/
def roundDiv (n d : ℕ) : ℕ :=
  if 2 * (n % d) < d then n / d
  else if d < 2 * (n % d) then n / d + 1
  else if n / d % 2 = 0 then n / d
  else n / d + 1

theorem roundHalfEven_div (n : ℕ) {d : ℕ} (hd : 0 < d) : roundHalfEven ((n : ℚ) / d) = roundDiv n d := by
  have hfloor : ⌊(n : ℚ) / d⌋ = ((n / d : ℕ) : ℤ) := Rat.floor_natCast_div_natCast n d
  have hdpos : (0 : ℚ) < d := by exact_mod_cast hd
  have hfrac : (n : ℚ) / d - ((n / d : ℕ) : ℚ) = (n % d : ℕ) / (d : ℚ) := by
    have hsum : (n : ℚ) = (d : ℚ) * (n / d : ℕ) + (n % d : ℕ) := by exact_mod_cast (div_add_mod n d).symm
    rw [eq_div_iff hdpos.ne', sub_mul, div_mul_cancel₀ _ hdpos.ne']
    linarith
  have hlow : (n : ℚ) / d - ((n / d : ℕ) : ℚ) < 1 / 2 ↔ 2 * (n % d) < d := by
    rw [hfrac, div_lt_div_iff₀ hdpos (by norm_num)]
    constructor
    · intro h
      have : ((n % d * 2 : ℕ) : ℚ) < ((1 * d : ℕ) : ℚ) := by exact_mod_cast h
      have := cast_lt.mp this
      omega
    · intro h
      have : n % d * 2 < 1 * d := by omega
      exact_mod_cast this
  have hhigh : 1 / 2 < (n : ℚ) / d - ((n / d : ℕ) : ℚ) ↔ d < 2 * (n % d) := by
    rw [hfrac, div_lt_div_iff₀ (by norm_num) hdpos]
    constructor
    · intro h
      have : ((1 * d : ℕ) : ℚ) < ((n % d * 2 : ℕ) : ℚ) := by exact_mod_cast h
      have := cast_lt.mp this
      omega
    · intro h
      have : 1 * d < n % d * 2 := by omega
      exact_mod_cast this
  have heven : ((n / d : ℕ) : ℤ) % 2 = 0 ↔ n / d % 2 = 0 := by omega
  unfold roundHalfEven roundDiv
  simp only [hfloor, Int.cast_natCast, hlow, hhigh, heven]
  split_ifs <;> push_cast <;> rfl

theorem roundDiv_eq {n d q : ℕ} (hlo : 2 * (d * q) < 2 * n + d) (hhi : 2 * n < 2 * (d * q) + d) :
    roundDiv n d = q := by
  have hdpos : 0 < d := by omega
  have hsum := div_add_mod n d
  have hmod := mod_lt n hdpos
  -- the quotient below is the rounded one or the one before it
  rcases lt_or_ge n (d * q) with hlt | hge
  · have hdiv : n / d + 1 = q := by
      have hbelow : n / d < q := (div_lt_iff_lt_mul hdpos).mpr (by rw [mul_comm]; exact hlt)
      have habove : q - 1 ≤ n / d := by
        rw [Nat.le_div_iff_mul_le hdpos, Nat.sub_mul, Nat.mul_comm q d]
        omega
      omega
    have hmul : d * q = d * (n / d) + d := by rw [← hdiv, Nat.mul_add, Nat.mul_one]
    unfold roundDiv
    rw [if_neg (by omega), if_pos (by omega)]
    exact hdiv
  · have hdiv : n / d = q := by
      apply Nat.div_eq_of_lt_le
      · rw [Nat.mul_comm]
        exact hge
      · rw [Nat.mul_comm, Nat.mul_add, Nat.mul_one]
        omega
    rw [hdiv] at hsum
    unfold roundDiv
    rw [if_pos (by omega)]
    exact hdiv

/-- What a rounding to a multiple of an even step is off by: half a step down only where that makes the
quotient even. -/
theorem roundDiv_bounds (n : ℕ) {h : ℕ} (hpos : 0 < h) :
    if n % (4 * h) = h then roundDiv n (2 * h) * (2 * h) + h = n
    else n < roundDiv n (2 * h) * (2 * h) + h ∧ roundDiv n (2 * h) * (2 * h) ≤ n + h := by
  have hsum := div_add_mod n (2 * h)
  have hmod := mod_lt n (show 0 < 2 * h by omega)
  have htie : n % (4 * h) = n % (2 * h) + 2 * h * (n / (2 * h) % 2) := by
    rw [show 4 * h = 2 * h * 2 by ring, mod_mul]
  have hround : roundDiv n (2 * h) * (2 * h) + h = n ∧ n % (2 * h) = h ∧ n / (2 * h) % 2 = 0 ∨
      ¬ (n % (2 * h) = h ∧ n / (2 * h) % 2 = 0) ∧
        n < roundDiv n (2 * h) * (2 * h) + h ∧ roundDiv n (2 * h) * (2 * h) ≤ n + h := by
    unfold roundDiv
    split_ifs with h1 h2 h3 <;> rw [mul_comm _ (2 * h)] <;> try rw [mul_add, mul_one]
    · right
      omega
    · right
      omega
    · left
      omega
    · right
      omega
  rcases hround with ⟨hdown, hmid, heven⟩ | ⟨hother, hnear⟩
  · rw [if_pos (by rw [htie, heven, hmid, mul_zero, add_zero])]
    exact hdown
  · rw [if_neg]
    · exact hnear
    · intro hmid
      apply hother
      rcases mod_two_eq_zero_or_one (n / (2 * h)) with heven | hodd
      · rw [htie, heven, mul_zero, add_zero] at hmid
        exact ⟨hmid, heven⟩
      · rw [htie, hodd, mul_one] at hmid
        omega

/-! ## Rounding to 53 places -/

def lastPlace (q : ℚ) : ℤ := max (Int.log 2 |q| - 52) (-1074)

def nearest (q : ℚ) : ℚ := roundHalfEven (q / 2 ^ lastPlace q) * 2 ^ lastPlace q

theorem lastPlace_eq {e : ℤ} (hlo : 2 ^ e ≤ q) (hhi : q < 2 ^ (e + 1)) (he : -1022 ≤ e) :
    lastPlace q = e - 52 := by
  have hpos : 0 < q := lt_of_lt_of_le (zpow_pos (by norm_num) _) hlo
  have hle : e ≤ Int.log 2 q := (Int.zpow_le_iff_le_log (by decide) hpos).mp (by exact_mod_cast hlo)
  have hlt : Int.log 2 q < e + 1 := (Int.lt_zpow_iff_log_lt (by decide) hpos).mp (by exact_mod_cast hhi)
  rw [lastPlace, abs_of_pos hpos]
  omega

theorem lastPlace_le {g : ℕ} (hnonneg : 0 ≤ q) (hlt : q < 2 ^ (53 - (g : ℤ))) (hg : g ≤ 52) :
    lastPlace q ≤ -g := by
  rcases hnonneg.eq_or_lt with rfl | hpos
  · simp only [lastPlace, abs_zero, Int.log_zero_right]
    omega
  · have hlog : Int.log 2 q < 53 - (g : ℤ) :=
      (Int.lt_zpow_iff_log_lt (by decide) hpos).mp (by exact_mod_cast hlt)
    rw [lastPlace, abs_of_pos hpos]
    omega

theorem nearest_natCast {n k : ℕ} (hlo : 2 ^ (52 + k) ≤ n) (hhi : n < 2 ^ (53 + k)) :
    nearest n = (roundDiv n (2 ^ k) * 2 ^ k : ℕ) := by
  have hplace : lastPlace n = k := by
    have := @lastPlace_eq (n : ℚ) (52 + k) (by exact_mod_cast hlo) (by
      have hexp : (52 + (k : ℤ) + 1) = ((53 + k : ℕ) : ℤ) := by push_cast; ring
      rw [hexp]
      exact_mod_cast hhi) (by omega)
    rw [this]
    omega
  rw [nearest, hplace, zpow_natCast]
  have hdiv := roundHalfEven_div n (d := 2 ^ k) (by positivity)
  push_cast at hdiv ⊢
  rw [hdiv]
  push_cast
  rfl

theorem nearest_div {m d e : ℕ} (hd : 0 < d) (hlo : d * 2 ^ e ≤ m) (hhi : m < d * 2 ^ (e + 1)) (he : e ≤ 52) :
    nearest ((m : ℚ) / d) = (roundDiv (m * 2 ^ (52 - e)) d : ℕ) / 2 ^ (52 - e) := by
  have hdpos : (0 : ℚ) < d := by exact_mod_cast hd
  have hplace : lastPlace ((m : ℚ) / d) = -((52 - e : ℕ) : ℤ) := by
    have hlo' : (2 : ℚ) ^ (e : ℤ) ≤ (m : ℚ) / d := by
      rw [le_div_iff₀ hdpos, zpow_natCast, mul_comm]
      exact_mod_cast hlo
    have hhi' : (m : ℚ) / d < 2 ^ ((e : ℤ) + 1) := by
      rw [div_lt_iff₀ hdpos, mul_comm]
      have hexp : (e : ℤ) + 1 = ((e + 1 : ℕ) : ℤ) := by push_cast; ring
      rw [hexp, zpow_natCast]
      exact_mod_cast hhi
    rw [lastPlace_eq hlo' hhi' (by omega)]
    omega
  have hscale : (m : ℚ) / d / 2 ^ (-((52 - e : ℕ) : ℤ)) = ((m * 2 ^ (52 - e) : ℕ) : ℚ) / d := by
    rw [zpow_neg, zpow_natCast]
    push_cast
    field_simp
  rw [nearest, hplace, hscale, roundHalfEven_div _ hd, zpow_neg, zpow_natCast, Int.cast_natCast]
  rw [div_eq_mul_inv]

section

variable {q : ℚ} {z e : ℤ}

theorem scaled_eq (hplace : lastPlace q ≤ e) :
    (z : ℚ) * 2 ^ e / 2 ^ lastPlace q = ((z * 2 ^ (e - lastPlace q).toNat : ℤ) : ℚ) := by
  have hexp : (((e - lastPlace q).toNat : ℕ) : ℤ) = e - lastPlace q := by omega
  push_cast
  rw [← zpow_natCast (2 : ℚ) (e - lastPlace q).toNat, hexp, zpow_sub₀ (by norm_num), mul_div_assoc]

theorem le_nearest (hplace : lastPlace q ≤ e) (h : (z : ℚ) * 2 ^ e ≤ q) : (z : ℚ) * 2 ^ e ≤ nearest q := by
  have hpow : (0 : ℚ) < 2 ^ lastPlace q := zpow_pos (by norm_num) _
  have hle := div_le_div_of_nonneg_right h hpow.le
  rw [scaled_eq hplace] at hle
  have hround : ((z * 2 ^ (e - lastPlace q).toNat : ℤ) : ℚ) ≤ roundHalfEven (q / 2 ^ lastPlace q) := by
    exact_mod_cast le_roundHalfEven hle
  rw [← scaled_eq hplace, div_le_iff₀ hpow] at hround
  exact hround

theorem nearest_le (hplace : lastPlace q ≤ e) (h : q ≤ (z : ℚ) * 2 ^ e) : nearest q ≤ (z : ℚ) * 2 ^ e := by
  have hpow : (0 : ℚ) < 2 ^ lastPlace q := zpow_pos (by norm_num) _
  have hle := div_le_div_of_nonneg_right h hpow.le
  rw [scaled_eq hplace] at hle
  have hround : (roundHalfEven (q / 2 ^ lastPlace q) : ℚ) ≤ (z * 2 ^ (e - lastPlace q).toNat : ℤ) := by
    exact_mod_cast roundHalfEven_le hle
  rw [← scaled_eq hplace, le_div_iff₀ hpow] at hround
  exact hround

end

section

variable {q : ℚ} {z g : ℕ} (hnonneg : 0 ≤ q) (hlt : q < 2 ^ (53 - (g : ℤ))) (hg : g ≤ 52)

include hnonneg hlt hg

theorem div_le_nearest (h : (z : ℚ) / 2 ^ g ≤ q) : (z : ℚ) / 2 ^ g ≤ nearest q := by
  have hquot : (z : ℚ) / 2 ^ g = ((z : ℤ) : ℚ) * 2 ^ (-(g : ℤ)) := by
    rw [zpow_neg, zpow_natCast, Int.cast_natCast, div_eq_mul_inv]
  rw [hquot] at h ⊢
  exact le_nearest (lastPlace_le hnonneg hlt hg) h

theorem nearest_le_div (h : q ≤ (z : ℚ) / 2 ^ g) : nearest q ≤ (z : ℚ) / 2 ^ g := by
  have hquot : (z : ℚ) / 2 ^ g = ((z : ℤ) : ℚ) * 2 ^ (-(g : ℤ)) := by
    rw [zpow_neg, zpow_natCast, Int.cast_natCast, div_eq_mul_inv]
  rw [hquot] at h ⊢
  exact nearest_le (lastPlace_le hnonneg hlt hg) h

end

theorem roundHalfEven_neg (q : ℚ) : roundHalfEven (-q) = -roundHalfEven q := by
  by_cases hint : q = ⌊q⌋
  · rw [hint, ← Int.cast_neg, roundHalfEven_intCast, roundHalfEven_intCast]
  · have hle := Int.floor_le q
    have hlt := Int.lt_floor_add_one q
    have hpos : (⌊q⌋ : ℚ) < q := lt_of_le_of_ne hle (Ne.symm hint)
    have hfloor : ⌊-q⌋ = -⌊q⌋ - 1 := by
      rw [Int.floor_eq_iff]
      push_cast
      constructor <;> linarith
    -- the fraction below becomes the one above
    have hlow : -q - ((-⌊q⌋ - 1 : ℤ) : ℚ) < 1 / 2 ↔ 1 / 2 < q - ⌊q⌋ := by
      push_cast
      constructor <;> intro h <;> linarith
    have hhigh : 1 / 2 < -q - ((-⌊q⌋ - 1 : ℤ) : ℚ) ↔ q - ⌊q⌋ < 1 / 2 := by
      push_cast
      constructor <;> intro h <;> linarith
    unfold roundHalfEven
    simp only [hfloor, hlow, hhigh]
    split_ifs with h1 h2 h3 h4 h5 h6 <;> first | omega | (exfalso; linarith)

theorem nearest_neg (q : ℚ) : nearest (-q) = -nearest q := by
  have hplace : lastPlace (-q) = lastPlace q := by rw [lastPlace, abs_neg, lastPlace]
  rw [nearest, hplace, neg_div, roundHalfEven_neg, nearest]
  push_cast
  ring

theorem nearest_mul_two_pow (k : ℕ) (h : |z| < 2 ^ 53) : nearest (z * 2 ^ k) = z * 2 ^ k := by
  have hplace : lastPlace ((z : ℚ) * 2 ^ k) ≤ k := by
    rcases eq_or_ne z 0 with rfl | hz
    · simp only [lastPlace, Int.cast_zero, zero_mul, abs_zero, Int.log_zero_right]
      omega
    · have hlt : |(z : ℚ) * 2 ^ k| < 2 ^ (53 + (k : ℤ)) := by
        rw [abs_mul, abs_of_pos (a := (2 : ℚ) ^ k) (by positivity), zpow_add₀ (by norm_num), zpow_natCast]
        have hcast : |(z : ℚ)| < 2 ^ (53 : ℤ) := by exact_mod_cast h
        exact mul_lt_mul_of_pos_right hcast (by positivity)
      have hpos : 0 < |(z : ℚ) * 2 ^ k| := by positivity
      have hlog : Int.log 2 |(z : ℚ) * 2 ^ k| < 53 + (k : ℤ) :=
        (Int.lt_zpow_iff_log_lt (by decide) hpos).mp (by exact_mod_cast hlt)
      rw [lastPlace]
      omega
  have hpow : (z : ℚ) * 2 ^ k = (z : ℚ) * 2 ^ (k : ℤ) := by rw [zpow_natCast]
  apply le_antisymm
  · rw [hpow] at hplace ⊢
    exact nearest_le hplace (le_refl _)
  · rw [hpow] at hplace ⊢
    exact le_nearest hplace (le_refl _)

theorem nearest_intCast (h : |z| < 2 ^ 53) : nearest z = z := by
  have := nearest_mul_two_pow 0 h
  rwa [pow_zero, mul_one] at this

theorem nearest_nonneg (h : 0 ≤ q) : 0 ≤ nearest q := by
  have hpow : (0 : ℚ) < 2 ^ lastPlace q := zpow_pos (by norm_num) _
  have hround : 0 ≤ roundHalfEven (q / 2 ^ lastPlace q) :=
    le_roundHalfEven (by rw [Int.cast_zero]; exact div_nonneg h hpow.le)
  exact mul_nonneg (by exact_mod_cast hround) hpow.le

theorem nearest_le_two_pow {e : ℕ} (hnonneg : 0 ≤ q) (h : q ≤ 2 ^ e) : nearest q ≤ 2 ^ e := by
  have hplace : lastPlace q ≤ e := by
    rcases hnonneg.eq_or_lt with rfl | hpos
    · simp only [lastPlace, abs_zero, Int.log_zero_right]
      omega
    · have hlt : q < 2 ^ ((e : ℤ) + 1) := by
        rw [zpow_add_one₀ (by norm_num), zpow_natCast]
        have : (0 : ℚ) < 2 ^ e := by positivity
        linarith
      have hlog : Int.log 2 q < e + 1 :=
        (Int.lt_zpow_iff_log_lt (by decide) hpos).mp (by exact_mod_cast hlt)
      rw [lastPlace, abs_of_pos hpos]
      omega
  have hpow : (2 : ℚ) ^ e = ((1 : ℤ) : ℚ) * 2 ^ (e : ℤ) := by rw [zpow_natCast, Int.cast_one, one_mul]
  rw [hpow] at h ⊢
  exact nearest_le hplace h

theorem abs_nearest_le {e : ℕ} (h : |q| ≤ 2 ^ e) : |nearest q| ≤ 2 ^ e := by
  rcases le_total 0 q with hq | hq
  · rw [abs_of_nonneg hq] at h
    rw [abs_of_nonneg (nearest_nonneg hq)]
    exact nearest_le_two_pow hq h
  · rw [abs_of_nonpos hq] at h
    have hneg : 0 ≤ -q := by linarith
    rw [← abs_neg, ← nearest_neg, abs_of_nonneg (nearest_nonneg hneg)]
    exact nearest_le_two_pow hneg h

theorem abs_roundHalfEven_sub_le (q : ℚ) : |(roundHalfEven q : ℚ) - q| ≤ 1 / 2 := by
  have hlow := Int.floor_le q
  have hhigh := Int.lt_floor_add_one q
  rw [abs_le]
  unfold roundHalfEven
  simp only
  split_ifs <;> push_cast <;> constructor <;> linarith

theorem abs_nearest_sub_le (q : ℚ) : |nearest q - q| ≤ 2 ^ lastPlace q / 2 := by
  have hpow : (0 : ℚ) < 2 ^ lastPlace q := zpow_pos (by norm_num) _
  have hscaled : nearest q - q =
      (roundHalfEven (q / 2 ^ lastPlace q) - q / 2 ^ lastPlace q) * 2 ^ lastPlace q := by
    rw [nearest, sub_mul, div_mul_cancel₀ _ hpow.ne']
  rw [hscaled, abs_mul, abs_of_pos hpow]
  have := mul_le_mul_of_nonneg_right (abs_roundHalfEven_sub_le (q / 2 ^ lastPlace q)) hpow.le
  linarith

theorem dvd_of_nearest_div {l r z : ℤ} (hl : |l| < 2 ^ 53) (hr : |r| < 2 ^ 53) (hr0 : r ≠ 0)
    (h : nearest ((l : ℚ) / r) = z) : r ∣ l := by
  by_contra hdvd
  have hrpos : (0 : ℚ) < |(r : ℚ)| := abs_pos.mpr (by exact_mod_cast hr0)
  have hbounds : |(l : ℚ)| < 2 ^ 53 ∧ |(r : ℚ)| < 2 ^ 53 := ⟨by exact_mod_cast hl, by exact_mod_cast hr⟩
  -- the distance to an integer is a multiple of `1 / r`
  have hfar : 1 ≤ |(z : ℚ) - l / r| * |(r : ℚ)| := by
    rw [← abs_mul, sub_mul, div_mul_cancel₀ _ (by exact_mod_cast hr0)]
    have hne : z * r - l ≠ 0 := fun heq => hdvd ⟨z, by linarith⟩
    exact_mod_cast Int.one_le_abs hne
  have hnear := h ▸ abs_nearest_sub_le ((l : ℚ) / r)
  have hl0 : 0 < |(l : ℚ) / r| := abs_pos.mpr
    (div_ne_zero (by rintro heq; exact hdvd ⟨0, by rw [mul_zero]; exact_mod_cast heq⟩)
      (by exact_mod_cast hr0))
  have hplace : (2 : ℚ) ^ lastPlace ((l : ℚ) / r) * |(r : ℚ)| < 2 := by
    rw [lastPlace]
    rcases max_choice (Int.log 2 |(l : ℚ) / r| - 52) (-1074) with hmax | hmax
    · have hlog := Int.zpow_log_le_self (b := 2) (by decide) hl0
      rw [hmax, zpow_sub₀ (by norm_num)]
      have hmul := mul_le_mul_of_nonneg_right hlog hrpos.le
      rw [abs_div, div_mul_cancel₀ _ hrpos.ne'] at hmul
      push_cast at hmul
      rw [abs_div, div_mul_eq_mul_div, div_lt_iff₀ (by positivity)]
      norm_num at hbounds ⊢
      linarith
    · rw [hmax]
      calc (2 : ℚ) ^ (-1074 : ℤ) * |(r : ℚ)| ≤ 2 ^ (-53 : ℤ) * 2 ^ 53 := by
            gcongr
            · norm_num
            · norm_num
            · exact hbounds.2.le
        _ < 2 := by norm_num
  have := mul_le_mul_of_nonneg_right hnear hrpos.le
  linarith

/-! ## The numbers -/

inductive Binary64 where
  | nan
  | infinite (negative : Bool)
  | finite (q : ℚ)

namespace Binary64

/-- The number for a rational; what is rounded to `2 ^ 1024` or more is infinite. -/
def ofRat (q : ℚ) : Binary64 :=
  if |nearest q| < 2 ^ 1024 then .finite (nearest q) else .infinite (decide (q < 0))

def neg : Binary64 → Binary64
  | nan => .nan
  | infinite negative => .infinite !negative
  | finite q => .finite (-q)

def abs : Binary64 → Binary64
  | nan => .nan
  | infinite _ => .infinite false
  | finite q => .finite |q|

def mulNat (c : ℕ) : Binary64 → Binary64
  | nan => .nan
  | infinite negative => .infinite negative
  | finite q => ofRat (q * c)

def divNat (c : ℕ) : Binary64 → Binary64
  | nan => .nan
  | infinite negative => .infinite negative
  | finite q => ofRat (q / c)

def trunc (q : ℚ) : ℤ := if 0 ≤ q then ⌊q⌋ else ⌈q⌉

/-- The remainder by a positive integer, which is exact and has the sign of the dividend. -/
def modNat (c : ℕ) : Binary64 → Binary64
  | nan => .nan
  | infinite _ => .nan
  | finite q => .finite (q - c * trunc (q / c))

def toInt (lo hi : ℤ) : Binary64 → ℤ
  | nan => 0
  | infinite negative => if negative then lo else hi
  | finite q => max lo (min hi (trunc q))

def toI32 : Binary64 → ℤ := toInt (-2 ^ 31) (2 ^ 31 - 1)

def toI64 : Binary64 → ℤ := toInt (-2 ^ 63) (2 ^ 63 - 1)

def toU64 : Binary64 → ℤ := toInt 0 (2 ^ 64 - 1)

variable {q : ℚ}

theorem ofRat_of_abs_le {e : ℕ} (h : |q| ≤ 2 ^ e) (he : e < 1024) : ofRat q = .finite (nearest q) :=
  if_pos ((abs_nearest_le h).trans_lt (pow_lt_pow_right₀ (by norm_num) he))

theorem ofRat_eq (h : |q| ≤ 2 ^ 64) : ofRat q = .finite (nearest q) := ofRat_of_abs_le h (by decide)

theorem ofRat_intCast (h : |z| < 2 ^ 53) : ofRat z = .finite z := by
  have hbound : |(z : ℚ)| ≤ 2 ^ 64 := by
    have hlt : |(z : ℚ)| < 2 ^ 53 := by exact_mod_cast h
    have hpow : (2 : ℚ) ^ 53 ≤ 2 ^ 64 := by norm_num
    exact hlt.le.trans hpow
  rw [ofRat_eq hbound, nearest_intCast h]

theorem trunc_intCast (z : ℤ) : trunc z = z := by
  unfold trunc
  split_ifs
  · exact Int.floor_intCast z
  · exact Int.ceil_intCast z

theorem toInt_intCast {lo hi z : ℤ} (hlo : lo ≤ z) (hhi : z ≤ hi) : (finite z).toInt lo hi = z := by
  show max lo (min hi (trunc z)) = z
  rw [trunc_intCast, min_eq_right hhi, max_eq_right hlo]

theorem trunc_of_nonneg (h : 0 ≤ q) : trunc q = ⌊q⌋ := if_pos h

theorem toU64_of_lt (h : 0 ≤ q) (hlt : q < 2 ^ 64) : (finite q).toU64 = ⌊q⌋ := by
  have hfloor : 0 ≤ ⌊q⌋ := Int.floor_nonneg.mpr h
  have hbound : ⌊q⌋ < 2 ^ 64 := Int.floor_lt.mpr (by exact_mod_cast hlt)
  show max 0 (min (2 ^ 64 - 1) (trunc q)) = ⌊q⌋
  rw [trunc_of_nonneg h]
  omega

theorem modNat_toU64 {a c : ℕ} (hc : 0 < c) (hlo : (a : ℚ) ≤ q) (hhi : q < a + 1) (hbound : c < 2 ^ 64) :
    ((finite q).modNat c).toU64 = (a % c : ℕ) := by
  have hcpos : (0 : ℚ) < c := by exact_mod_cast hc
  have hnonneg : 0 ≤ q := le_trans (by positivity) hlo
  have hsum : (a : ℚ) = c * (a / c : ℕ) + (a % c : ℕ) := by exact_mod_cast (div_add_mod a c).symm
  have hquot : ⌊q / c⌋ = ((a / c : ℕ) : ℤ) := by
    rw [Int.floor_eq_iff]
    constructor
    · rw [le_div_iff₀ hcpos, Int.cast_natCast]
      have : (0 : ℚ) ≤ (a % c : ℕ) := by positivity
      linarith
    · have hmod : ((a % c : ℕ) : ℚ) + 1 ≤ c := by exact_mod_cast mod_lt a hc
      rw [div_lt_iff₀ hcpos, Int.cast_natCast]
      linarith
  have hrem : ⌊q - c * (a / c : ℕ)⌋ = ((a % c : ℕ) : ℤ) := by
    rw [Int.floor_eq_iff, Int.cast_natCast]
    constructor <;> linarith
  have hmod : ((a % c : ℕ) : ℚ) + 1 ≤ 2 ^ 64 := by
    have : a % c + 1 ≤ 2 ^ 64 := by
      have := mod_lt a hc
      omega
    exact_mod_cast this
  rw [modNat, trunc_of_nonneg (div_nonneg hnonneg hcpos.le), hquot, Int.cast_natCast, toU64_of_lt, hrem]
  · have : (0 : ℚ) ≤ (a % c : ℕ) := by positivity
    linarith
  · linarith

/-- The quotient of a number a little above an integer stays below the next one, if the divisor has few enough
places. -/
theorem divNat_toU64 {s c g : ℕ} (hc : 0 < c) (hlo : (s : ℚ) ≤ q) (hhi : q ≤ s + 1 / 512) (hg : g ≤ 52)
    (hgap : c * 512 ≤ 2 ^ g * 511) (hplaces : s + 1 ≤ c * 2 ^ (53 - g)) :
    ((finite q).divNat c).toU64 = (s / c : ℕ) := by
  have hcpos : (0 : ℚ) < c := by exact_mod_cast hc
  have hnonneg : 0 ≤ q / c := div_nonneg (le_trans (by positivity) hlo) hcpos.le
  have hlt : q / c < 2 ^ (53 - g) := by
    have hcast : (s : ℚ) + 1 ≤ c * 2 ^ (53 - g) := by exact_mod_cast hplaces
    rw [div_lt_iff₀ hcpos]
    linarith
  have hltz : q / c < 2 ^ (53 - (g : ℤ)) := by
    rw [show 53 - (g : ℤ) = ((53 - g : ℕ) : ℤ) by omega, zpow_natCast]
    exact hlt
  have hbound : (2 : ℚ) ^ (53 - g) ≤ 2 ^ 53 := pow_le_pow_right₀ (by norm_num) (by omega)
  have hsum : (s : ℚ) = c * (s / c : ℕ) + (s % c : ℕ) := by exact_mod_cast (div_add_mod s c).symm
  have hbelow : ((s / c : ℕ) : ℚ) ≤ nearest (q / c) := by
    have hle : ((s / c : ℕ) : ℚ) ≤ q / c := by
      rw [le_div_iff₀ hcpos]
      have : (0 : ℚ) ≤ (s % c : ℕ) := by positivity
      linarith
    have hlt0 : q / c < 2 ^ (53 - ((0 : ℕ) : ℤ)) := by
      norm_num
      linarith
    have := @div_le_nearest (q / c) (s / c) 0 hnonneg hlt0 (by decide)
    rw [pow_zero, div_one] at this
    exact this hle
  have habove : nearest (q / c) < (s / c : ℕ) + 1 := by
    have hpow : (0 : ℚ) < 2 ^ g := by positivity
    have hone : 1 ≤ (s / c + 1) * 2 ^ g := Nat.mul_pos (Nat.succ_pos _) (Nat.two_pow_pos g)
    have hle : q / c ≤ ((s / c + 1 : ℕ) * 2 ^ g - 1 : ℕ) / 2 ^ g := by
      have hmod : ((s % c : ℕ) : ℚ) + 1 ≤ c := by exact_mod_cast Nat.mod_lt s hc
      have hgap' : (c : ℚ) * 512 ≤ 2 ^ g * 511 := by exact_mod_cast hgap
      rw [cast_sub hone, div_le_div_iff₀ hcpos hpow]
      push_cast
      nlinarith
    have hround := nearest_le_div hnonneg hltz hg hle
    apply lt_of_le_of_lt hround
    rw [div_lt_iff₀ hpow, cast_sub hone]
    push_cast
    linarith
  have hq64 : |q / c| ≤ 2 ^ 64 := by
    rw [abs_of_nonneg hnonneg]
    linarith
  rw [divNat, ofRat_eq hq64, toU64_of_lt (nearest_nonneg hnonneg)]
  · rw [Int.floor_eq_iff, Int.cast_natCast]
    exact ⟨hbelow, habove⟩
  · have := nearest_le_two_pow hnonneg (hlt.le.trans hbound)
    linarith

end Binary64

end H2Database.Reasoning
