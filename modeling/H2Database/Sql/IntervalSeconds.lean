import H2Database.Sql.Interval
import Mathlib.Tactic.IntervalCases

/-!
# The seconds of an interval as a floating-point number

`Display` divides the microseconds as a 64-bit float.  From `2 ^ 59` microseconds on the product of the
seconds and a million has more than 53 places and is rounded before it is divided, and the quotient is
rounded again.
-/

namespace H2Database.Sql

open Nat hiding eq_zero_or_pos
open Reasoning

/-! ## Two roundings -/

def RoundsDown (s : ℕ) : Prop :=
  ∃ j < 4, 2 ^ (59 + j) ≤ 1000000 * s ∧ s < 2 ^ (40 + j) ∧ s % 2 ^ (j + 2) = 2 ^ j

instance decidableRoundsDown : DecidablePred RoundsDown := fun s =>
  inferInstanceAs (Decidable (∃ j < 4, 2 ^ (59 + j) ≤ 1000000 * s ∧ s < 2 ^ (40 + j) ∧
    s % 2 ^ (j + 2) = 2 ^ j))

example : RoundsDown 576460752305 := by decide

/-- The microseconds of whole seconds, as a float, divided by a million. -/
def totalSecs (s : ℕ) : ℚ := nearest (nearest ((1000000 * s : ℕ) : ℚ) / 1000000)

/-- The microseconds as they are rounded where the last place is worth `2 ^ (7 + j)`. -/
def roundedMicros (j s : ℕ) : ℕ := roundDiv (1000000 * s) (2 ^ (7 + j)) * 2 ^ (7 + j)

section

variable {j s : ℕ} (hj : j < 4) (hlo : 2 ^ (59 + j) ≤ 1000000 * s) (hhi : 1000000 * s < 2 ^ (60 + j))

include hlo hhi in
theorem nearest_micros : nearest ((1000000 * s : ℕ) : ℚ) = roundedMicros j s := by
  have h52 : 52 + (7 + j) = 59 + j := by omega
  have h53 : 53 + (7 + j) = 60 + j := by omega
  exact @nearest_natCast (1000000 * s) (7 + j) (by rw [h52]; exact hlo) (by rw [h53]; exact hhi)

theorem roundedMicros_mod (j s : ℕ) : roundedMicros j s % 64 = 0 := by
  rw [roundedMicros, pow_add, show 2 ^ 7 * 2 ^ j = 64 * (2 * 2 ^ j) by ring, mul_left_comm]
  exact mul_mod_right 64 _

include hj in
theorem roundedMicros_bounds :
    if s % 2 ^ (j + 2) = 2 ^ j then roundedMicros j s + 64 * 2 ^ j = 1000000 * s
    else 1000000 * s + 64 ≤ roundedMicros j s + 64 * 2 ^ j ∧
      roundedMicros j s ≤ 1000000 * s + 64 * 2 ^ j := by
  have hstep : 2 ^ (7 + j) = 2 * (64 * 2 ^ j) := by rw [pow_add]; omega
  have htie : 1000000 * s % (4 * (64 * 2 ^ j)) = 64 * 2 ^ j ↔ s % 2 ^ (j + 2) = 2 ^ j := by
    interval_cases j <;> norm_num only <;> omega
  have hbounds := roundDiv_bounds (1000000 * s) (show 0 < 64 * 2 ^ j by positivity)
  rw [← hstep] at hbounds
  simp only [htie] at hbounds
  rw [← roundedMicros] at hbounds
  have hmod := roundedMicros_mod j s
  split_ifs at hbounds ⊢
  · exact hbounds
  · omega

include hj in
theorem roundDiv_roundedMicros_low :
    if s % 2 ^ (j + 2) = 2 ^ j then roundDiv (roundedMicros j s * 2 ^ (13 - j)) 1000000 + 1 = s * 2 ^ (13 - j)
    else roundDiv (roundedMicros j s * 2 ^ (13 - j)) 1000000 = s * 2 ^ (13 - j) ∨
      roundDiv (roundedMicros j s * 2 ^ (13 - j)) 1000000 = s * 2 ^ (13 - j) + 1 := by
  have hbounds := roundedMicros_bounds (s := s) hj
  split_ifs at hbounds ⊢ with hs
  · have hpos : 0 < s := by
      rcases Nat.eq_zero_or_pos s with rfl | hpos
      · have := Nat.two_pow_pos j
        omega
      · exact hpos
    have hround : roundDiv (roundedMicros j s * 2 ^ (13 - j)) 1000000 = s * 2 ^ (13 - j) - 1 := by
      apply roundDiv_eq
      · interval_cases j <;> norm_num only at hbounds ⊢ <;> omega
      · interval_cases j <;> norm_num only at hbounds ⊢ <;> omega
    have := Nat.mul_pos hpos (Nat.two_pow_pos (13 - j))
    omega
  · have hmod := roundedMicros_mod j s
    rcases Nat.lt_or_ge (roundedMicros j s) (1000000 * s + 64 * 2 ^ j) with hlt | hge
    · left
      apply roundDiv_eq
      · interval_cases j <;> norm_num only at hbounds hlt ⊢ <;> omega
      · interval_cases j <;> norm_num only at hbounds hlt ⊢ <;> omega
    · right
      apply roundDiv_eq
      · interval_cases j <;> norm_num only at hbounds hge ⊢ <;> omega
      · interval_cases j <;> norm_num only at hbounds hge ⊢ <;> omega

include hj in
theorem roundDiv_roundedMicros_high :
    roundDiv (roundedMicros j s * 2 ^ (12 - j)) 1000000 = s * 2 ^ (12 - j) := by
  have hbounds := roundedMicros_bounds (s := s) hj
  apply roundDiv_eq
  · interval_cases j <;> norm_num only at hbounds ⊢ <;> split_ifs at hbounds <;> omega
  · interval_cases j <;> norm_num only at hbounds ⊢ <;> split_ifs at hbounds <;> omega

include hj hlo in
theorem totalSecs_low (hlt : s < 2 ^ (40 + j)) :
    totalSecs s = (roundDiv (roundedMicros j s * 2 ^ (13 - j)) 1000000 : ℕ) / 2 ^ (13 - j) := by
  have hhi : 1000000 * s < 2 ^ (60 + j) := by
    rw [pow_add] at hlt ⊢
    omega
  have hbounds := roundedMicros_bounds (s := s) hj
  have hplaces : 52 - (39 + j) = 13 - j := by omega
  have hdiv := @nearest_div (roundedMicros j s) 1000000 (39 + j) (by decide) (by
    interval_cases j <;> norm_num only at hbounds hlo ⊢ <;> split_ifs at hbounds <;> omega) (by
    interval_cases j <;> norm_num only at hbounds hlt ⊢ <;> split_ifs at hbounds <;> omega) (by omega)
  rw [hplaces] at hdiv
  rw [totalSecs, nearest_micros hlo hhi]
  exact hdiv

theorem totalSecs_of_exact (hexact : nearest ((1000000 * s : ℕ) : ℚ) = (1000000 * s : ℕ)) (hlt : s < 2 ^ 53) :
    totalSecs s = s := by
  have hquot : ((1000000 * s : ℕ) : ℚ) / 1000000 = ((s : ℤ) : ℚ) := by
    push_cast
    field_simp
  rw [totalSecs, hexact, hquot, nearest_intCast (by rw [abs_cast]; exact_mod_cast hlt)]
  rfl

include hj hhi in
theorem totalSecs_high (hge : 2 ^ (40 + j) ≤ s) : totalSecs s = s := by
  rcases hge.eq_or_lt with rfl | hlt
  · apply totalSecs_of_exact
    · have := @nearest_mul_two_pow 1000000 (40 + j) (by decide)
      push_cast at this ⊢
      exact this
    · exact Nat.pow_lt_pow_right (by decide) (by omega)
  · have hlo : 2 ^ (59 + j) ≤ 1000000 * s := by
      rw [Nat.pow_add] at hge ⊢
      omega
    have hbounds := roundedMicros_bounds (s := s) hj
    have hplaces : 52 - (40 + j) = 12 - j := by omega
    have hdiv := @nearest_div (roundedMicros j s) 1000000 (40 + j) (by decide) (by
      interval_cases j <;> norm_num only at hbounds hlt ⊢ <;> split_ifs at hbounds <;> omega) (by
      interval_cases j <;> norm_num only at hbounds hhi ⊢ <;> split_ifs at hbounds <;> omega) (by omega)
    rw [hplaces, roundDiv_roundedMicros_high hj] at hdiv
    rw [totalSecs, nearest_micros hlo hhi]
    push_cast at hdiv ⊢
    rw [hdiv, mul_div_cancel_right₀]
    positivity

end

variable {s : ℕ}

theorem totalSecs_small (h : 1000000 * s < 2 ^ 59) : totalSecs s = s := by
  apply totalSecs_of_exact
  · have := @nearest_mul_two_pow (15625 * s) 6 (by rw [abs_of_nonneg (by positivity)]; omega)
    have hmul : ((1000000 * s : ℕ) : ℚ) = ((15625 * s : ℤ) : ℚ) * 2 ^ 6 := by
      push_cast
      ring
    rw [hmul]
    exact this
  · omega

theorem exists_step (hlo : 2 ^ 59 ≤ 1000000 * s) (hhi : 1000000 * s < 2 ^ 63) :
    ∃ j < 4, 2 ^ (59 + j) ≤ 1000000 * s ∧ 1000000 * s < 2 ^ (60 + j) := by
  rcases lt_or_ge (1000000 * s) (2 ^ 60) with h60 | h60
  · exact ⟨0, by decide, hlo, h60⟩
  rcases lt_or_ge (1000000 * s) (2 ^ 61) with h61 | h61
  · exact ⟨1, by decide, h60, h61⟩
  rcases lt_or_ge (1000000 * s) (2 ^ 62) with h62 | h62
  · exact ⟨2, by decide, h61, h62⟩
  · exact ⟨3, by decide, h62, hhi⟩

theorem roundsDown_iff {j s : ℕ} (hj : j < 4) (hlo : 2 ^ (59 + j) ≤ 1000000 * s)
    (hhi : 1000000 * s < 2 ^ (60 + j)) :
    RoundsDown s ↔ s < 2 ^ (40 + j) ∧ s % 2 ^ (j + 2) = 2 ^ j := by
  constructor
  · rintro ⟨i, hi, hge, hlt, hmod⟩
    have heq : i = j := by
      interval_cases i <;> interval_cases j <;> omega
    rw [← heq]
    exact ⟨hlt, hmod⟩
  · rintro ⟨hlt, hmod⟩
    exact ⟨j, hj, hlo, hlt, hmod⟩

theorem totalSecs_bounds (hlt : 1000000 * s < 2 ^ 63) :
    RoundsDown s ∧ (s : ℚ) - 1 ≤ totalSecs s ∧ totalSecs s < s ∨
      ¬ RoundsDown s ∧ (s : ℚ) ≤ totalSecs s ∧ totalSecs s ≤ s + 1 / 512 := by
  have hsame : totalSecs s = s → (s : ℚ) ≤ totalSecs s ∧ totalSecs s ≤ s + 1 / 512 := by
    intro heq
    rw [heq]
    constructor <;> linarith
  rcases lt_or_ge (1000000 * s) (2 ^ 59) with hsmall | hlarge
  · right
    refine ⟨?_, hsame (totalSecs_small hsmall)⟩
    rintro ⟨j, _, hge, _⟩
    have := Nat.pow_le_pow_right (show 0 < 2 by decide) (show 59 ≤ 59 + j by omega)
    omega
  · obtain ⟨j, hj, hlo, hhi⟩ := exists_step hlarge hlt
    rw [roundsDown_iff hj hlo hhi]
    rcases lt_or_ge s (2 ^ (40 + j)) with hbelow | habove
    · have hpow : (0 : ℚ) < 2 ^ (13 - j) := by positivity
      have hplace : (1 : ℚ) / 2 ^ (13 - j) ≤ 1 / 512 := by
        apply one_div_le_one_div_of_le (by norm_num)
        have : (2 : ℚ) ^ 9 ≤ 2 ^ (13 - j) := pow_le_pow_right₀ (by norm_num) (by omega)
        linarith
      have hplace0 : (0 : ℚ) < 1 / 2 ^ (13 - j) := by positivity
      have hround := roundDiv_roundedMicros_low (s := s) hj
      rw [totalSecs_low hj hlo hbelow]
      split_ifs at hround with hmod
      · left
        have hsub : ((roundDiv (roundedMicros j s * 2 ^ (13 - j)) 1000000 : ℕ) : ℚ) / 2 ^ (13 - j) =
            s - 1 / 2 ^ (13 - j) := by
          have hcast : ((roundDiv (roundedMicros j s * 2 ^ (13 - j)) 1000000 : ℕ) : ℚ) + 1 =
              s * 2 ^ (13 - j) := by
            exact_mod_cast hround
          rw [eq_sub_iff_add_eq, ← add_div, hcast, mul_div_cancel_right₀ _ hpow.ne']
        rw [hsub]
        exact ⟨⟨hbelow, hmod⟩, by linarith, by linarith⟩
      · right
        refine ⟨fun h => hmod h.2, ?_⟩
        rcases hround with heq | heq
        · rw [heq, cast_mul, cast_pow, cast_ofNat, mul_div_cancel_right₀ _ hpow.ne']
          constructor <;> linarith
        · rw [heq, cast_add, cast_mul, cast_pow, cast_ofNat, cast_one, add_div,
            mul_div_cancel_right₀ _ hpow.ne']
          constructor <;> linarith
    · right
      exact ⟨fun h => absurd h.1 (by omega), hsame (totalSecs_high hj hhi habove)⟩

/-! ## Hours, minutes and seconds -/

theorem totalSecs_nonneg (s : ℕ) : 0 ≤ totalSecs s :=
  nearest_nonneg (div_nonneg (nearest_nonneg (cast_nonneg _)) (by norm_num))

theorem abs_divNat {micros : ℤ} (habs : micros.natAbs = 1000000 * s) (hlt : 1000000 * s < 2 ^ 63) :
    ((Binary64.ofRat micros).divNat 1000000).abs = .finite (totalSecs s) := by
  have hle : ((1000000 * s : ℕ) : ℚ) ≤ 2 ^ 63 := by exact_mod_cast hlt.le
  have hpow : (2 : ℚ) ^ 63 ≤ 2 ^ 64 := by norm_num
  have hrounded : nearest ((1000000 * s : ℕ) : ℚ) ≤ 2 ^ 63 := nearest_le_two_pow (by positivity) hle
  have hrounded0 : 0 ≤ nearest ((1000000 * s : ℕ) : ℚ) := nearest_nonneg (by positivity)
  have hquot : |nearest ((1000000 * s : ℕ) : ℚ) / 1000000| ≤ 2 ^ 64 := by
    rw [abs_of_nonneg (by positivity), div_le_iff₀ (by norm_num)]
    linarith
  have hsecs := totalSecs_nonneg s
  rcases Int.natAbs_eq micros with hpos | hneg
  · rw [hpos, habs, Int.cast_natCast, Binary64.ofRat_eq (by rw [abs_cast]; linarith), Binary64.divNat,
      cast_ofNat, Binary64.ofRat_eq hquot, Binary64.abs, ← totalSecs, abs_of_nonneg hsecs]
  · rw [hneg, habs, Int.cast_neg, Int.cast_natCast,
      Binary64.ofRat_eq (by rw [abs_neg, abs_cast]; linarith), nearest_neg, Binary64.divNat, neg_div,
      cast_ofNat, Binary64.ofRat_eq (by rw [abs_neg]; exact hquot), nearest_neg, Binary64.abs, abs_neg,
      ← totalSecs, abs_of_nonneg hsecs]

/-! What is printed for seconds. -/

def printedHours (s : ℕ) : ℕ := ((Binary64.finite (totalSecs s)).divNat 3600).toU64.toNat

def printedMins (s : ℕ) : ℕ := (((Binary64.finite (totalSecs s)).divNat 60).toU64 % 60).toNat

def printedSecs (s : ℕ) : ℕ := ((Binary64.finite (totalSecs s)).modNat 60).toU64.toNat

theorem timePart_eq {micros : ℤ} (habs : micros.natAbs = 1000000 * s) (hlt : 1000000 * s < 2 ^ 63) :
    timePart micros = (if micros < 0 then ['-'] else []) ++
      (padded (printedHours s) ++ ':' :: (padded (printedMins s) ++ ':' :: padded (printedSecs s))) := by
  rw [timePart, abs_divNat habs hlt]
  rfl

theorem printedMins_lt (s : ℕ) : printedMins s < 60 := by
  unfold printedMins
  omega

theorem printed_exact (hlt : 1000000 * s < 2 ^ 63) (hexact : ¬ RoundsDown s) :
    printedHours s = s / 3600 ∧ printedMins s = s / 60 % 60 ∧ printedSecs s = s % 60 := by
  rcases totalSecs_bounds hlt with ⟨hdown, _⟩ | ⟨_, hlo, hhi⟩
  · exact absurd hdown hexact
  · have hhours := @Binary64.divNat_toU64 (totalSecs s) s 3600 12 (by decide) hlo hhi (by decide) (by decide)
      (by omega)
    have hmins := @Binary64.divNat_toU64 (totalSecs s) s 60 6 (by decide) hlo hhi (by decide) (by decide)
      (by omega)
    have hsecs := @Binary64.modNat_toU64 (totalSecs s) s 60 (by decide) hlo (by linarith) (by decide)
    rw [printedHours, printedMins, printedSecs, hhours, hmins, hsecs]
    omega

theorem printed_down (hlt : 1000000 * s < 2 ^ 63) (hdown : RoundsDown s) :
    printedHours s ≤ 2443359174 ∧ printedSecs s = (s - 1) % 60 ∧ 1 ≤ s := by
  rcases totalSecs_bounds hlt with ⟨_, hlo, hhi⟩ | ⟨hexact, _⟩
  · obtain ⟨j, hj, hge, hsmall, _⟩ := hdown
    have hpow := Nat.pow_le_pow_right (show 0 < 2 by decide) (show 40 + j ≤ 43 by omega)
    have hpos : 1 ≤ s := by
      have := Nat.two_pow_pos (59 + j)
      omega
    have hnonneg : 0 ≤ totalSecs s / 3600 := div_nonneg (totalSecs_nonneg s) (by norm_num)
    have hupper : totalSecs s / 3600 ≤ (2443359173 : ℕ) / 2 ^ 0 := by
      have hs : (s : ℚ) ≤ 2443359173 * 3600 := by exact_mod_cast (show s ≤ 2443359173 * 3600 by omega)
      rw [div_le_iff₀ (by norm_num)]
      push_cast
      linarith
    have hround := @nearest_le_div (totalSecs s / 3600) 2443359173 0 hnonneg
      (by norm_num at hupper ⊢; linarith)
      (by decide) hupper
    have hbound : nearest (totalSecs s / 3600) < 2443359174 := by
      norm_num at hround
      linarith
    have hhours : printedHours s = ⌊nearest (totalSecs s / 3600)⌋.toNat := by
      rw [printedHours, Binary64.divNat, cast_ofNat, Binary64.ofRat_eq, Binary64.toU64_of_lt]
      · exact nearest_nonneg hnonneg
      · linarith
      · norm_num at hupper
        rw [abs_of_nonneg hnonneg]
        linarith
    have hfloor : ⌊nearest (totalSecs s / 3600)⌋ < 2443359174 := Int.floor_lt.mpr (by exact_mod_cast hbound)
    have hcast : ((s - 1 : ℕ) : ℚ) = s - 1 := by rw [cast_sub hpos, cast_one]
    have hsecs := @Binary64.modNat_toU64 (totalSecs s) (s - 1) 60 (by decide) (by rw [hcast]; exact hlo)
      (by rw [hcast]; linarith) (by decide)
    rw [hhours, printedSecs, hsecs]
    omega
  · exact absurd hdown hexact

end H2Database.Sql
