import Mathlib.Tactic.Ring
import Mathlib.Tactic.NormNum

/-!
# Fixed-width integers as bytes

`leBytes w n` is the `w`-byte little-endian image of `n` (the low `8 * w` bits, as a cast to a
`w`-byte machine integer keeps them) and `fromLe` reads a byte string back; `beBytes` and `fromBe` are
the same with the most significant byte first.
-/

namespace H2Database.Reasoning

open List

/-- The `w` low-order bytes of `n`, least significant first. -/
def leBytes : Nat → Nat → List UInt8
  | 0, _ => []
  | w + 1, n => UInt8.ofNat n :: leBytes w (n / 256)

def fromLe : List UInt8 → Nat
  | [] => 0
  | b :: bs => b.toNat + 256 * fromLe bs

@[simp] theorem length_leBytes (w n : Nat) : (leBytes w n).length = w := by
  induction w generalizing n with
  | zero => rfl
  | succ w ih => simp only [leBytes, length_cons, ih]

theorem fromLe_leBytes (w n : Nat) : fromLe (leBytes w n) = n % 256 ^ w := by
  induction w generalizing n with
  | zero => simp [leBytes, fromLe, Nat.mod_one]
  | succ w ih =>
    simp only [leBytes, fromLe, ih, UInt8.toNat_ofNat']
    rw [show (2 : Nat) ^ 8 = 256 from rfl, pow_succ, Nat.mul_comm (256 ^ w) 256, Nat.mod_mul]

theorem fromLe_leBytes_of_lt {w n : Nat} (h : n < 256 ^ w) : fromLe (leBytes w n) = n := by
  rw [fromLe_leBytes, Nat.mod_eq_of_lt h]

theorem leBytes_fromLe (bs : List UInt8) : leBytes bs.length (fromLe bs) = bs := by
  induction bs with
  | nil => rfl
  | cons b bs ih =>
    have hb := b.toNat_lt
    simp only [length_cons, leBytes, fromLe]
    rw [show (b.toNat + 256 * fromLe bs) / 256 = fromLe bs by omega, ih]
    congr 1
    rw [← UInt8.toNat_inj, UInt8.toNat_ofNat']
    omega

theorem fromLe_lt (bs : List UInt8) : fromLe bs < 256 ^ bs.length := by
  induction bs with
  | nil => decide
  | cons b bs ih =>
    have hb := b.toNat_lt
    simp only [length_cons, fromLe, pow_succ]
    omega

/-! ## Big-endian -/

/-- The `w` low-order bytes of `n`, most significant first. -/
def beBytes (w n : Nat) : List UInt8 := (leBytes w n).reverse

def fromBe (bs : List UInt8) : Nat := fromLe bs.reverse

@[simp] theorem length_beBytes (w n : Nat) : (beBytes w n).length = w := by
  rw [beBytes, length_reverse, length_leBytes]

theorem fromBe_beBytes_of_lt {w n : Nat} (h : n < 256 ^ w) : fromBe (beBytes w n) = n := by
  rw [fromBe, beBytes, reverse_reverse, fromLe_leBytes_of_lt h]

end H2Database.Reasoning
