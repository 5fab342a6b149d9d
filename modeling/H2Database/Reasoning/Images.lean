import H2Database.Reasoning.Bytes
import Mathlib.Data.List.Basic
import Mathlib.Order.Basic

/-!
# Images that compare as what they are images of

Images are put one behind the other and compared from the front.  `Compares x y o` says that `x` and `y`
compare as `o` whatever is behind them, and that what is behind decides where `o` does not.  So no image
begins another one, and a sequence of images compares as the sequence of what they stand for.
-/

namespace H2Database.Reasoning

open List Nat

section

variable {β : Type} [Ord β]

def Compares (x y : List β) (o : Ordering) : Prop :=
  ∀ rest rest', compare (x ++ rest) (y ++ rest') = o.then (compare rest rest')

theorem compares_nil : Compares ([] : List β) [] .eq := fun _ _ => rfl

theorem Compares.append {x y x' y' : List β} {o o' : Ordering} (h : Compares x y o)
    (h' : Compares x' y' o') : Compares (x ++ x') (y ++ y') (o.then o') := by
  intro rest rest'
  rw [append_assoc, append_assoc, h, h', Ordering.then_assoc]

theorem compares_self [Std.ReflOrd β] (x : List β) : Compares x x .eq := by
  intro rest rest'
  induction x with
  | nil => rfl
  | cons a x ih =>
    rw [cons_append, cons_append, List.compare_cons_cons, Std.ReflOrd.compare_self, ih]
    rfl

variable {x y : List β} {o : Ordering}

theorem compares_cons {a b : β} (h : Compares x y o) :
    Compares (a :: x) (b :: y) ((compare a b).then o) := by
  intro rest rest'
  rw [cons_append, cons_append, List.compare_cons_cons, h, Ordering.then_assoc]

theorem compares_cons_self [Std.ReflOrd β] (a : β) (h : Compares x y o) :
    Compares (a :: x) (a :: y) o := by
  have h' := compares_cons (a := a) (b := a) h
  rwa [Std.ReflOrd.compare_self] at h'

theorem compares_of_lt {a b : β} (h : compare a b = .lt) (x y : List β) : Compares (a :: x) (b :: y) .lt := by
  intro rest rest'
  rw [cons_append, cons_append, List.compare_cons_cons, h]
  rfl

theorem compares_of_gt {a b : β} (h : compare a b = .gt) (x y : List β) : Compares (a :: x) (b :: y) .gt := by
  intro rest rest'
  rw [cons_append, cons_append, List.compare_cons_cons, h]
  rfl

theorem compares_of_length (h : x.length = y.length) : Compares x y (compare x y) := by
  induction x generalizing y with
  | nil =>
    rw [eq_nil_of_length_eq_zero h.symm]
    exact compares_nil
  | cons a x ih =>
    cases y with
    | nil => cases h
    | cons b y =>
      rw [List.compare_cons_cons]
      exact compares_cons (ih (Nat.succ.inj h))

theorem Compares.compare_eq (h : Compares x y o) : compare x y = o := by
  have hnil := h [] []
  rw [append_nil, append_nil] at hnil
  rw [hnil]
  exact Ordering.then_eq

theorem Compares.eq_of_append [Std.LawfulEqOrd β] {x y rest rest' : List β}
    (h : Compares x y o) (heq : x ++ rest = y ++ rest') : x = y := by
  have hrest := h rest rest'
  rw [heq, Std.ReflOrd.compare_self] at hrest
  have ho : o = .eq := (Ordering.then_eq_eq.mp hrest.symm).1
  exact Std.LawfulEqOrd.eq_of_compare (h.compare_eq.trans ho)

end

theorem compare_congr {a b c d : Int} (hlt : a < b ↔ c < d) (hgt : b < a ↔ d < c) :
    compare a b = compare c d := by
  rcases Int.lt_trichotomy a b with h | h | h
  · rw [compare_lt_iff_lt.mpr h, compare_lt_iff_lt.mpr (hlt.mp h)]
  · rw [compare_eq_iff_eq.mpr h, compare_eq_iff_eq.mpr (by omega)]
  · rw [compare_gt_iff_gt.mpr h, compare_gt_iff_gt.mpr (hgt.mp h)]

theorem compare_natCast (m n : Nat) : compare (m : Int) (n : Int) = compare m n := by
  rcases lt_trichotomy m n with h | h | h
  · rw [compare_lt_iff_lt.mpr h, compare_lt_iff_lt.mpr (by omega)]
  · rw [compare_eq_iff_eq.mpr h, compare_eq_iff_eq.mpr (by omega)]
  · rw [compare_gt_iff_gt.mpr h, compare_gt_iff_gt.mpr (by omega)]

theorem compare_uint8 (a b : UInt8) : compare a b = compare a.toNat b.toNat := by
  show compareOfLessAndEq a b = compareOfLessAndEq a.toNat b.toNat
  unfold compareOfLessAndEq
  simp only [UInt8.lt_iff_toNat_lt, ← UInt8.toNat_inj]

theorem compare_divMod (b m n : Nat) :
    compare m n = (compare (m / b) (n / b)).then (compare (m % b) (n % b)) := by
  have hm := div_add_mod m b
  have hn := div_add_mod n b
  rcases lt_trichotomy (m / b) (n / b) with h | h | h
  · rw [compare_lt_iff_lt.mpr h]
    exact compare_lt_iff_lt.mpr (lt_of_div_lt_div h)
  · rw [compare_eq_iff_eq.mpr h]
    rw [h] at hm
    show compare m n = compare (m % b) (n % b)
    rw [← compare_natCast, ← compare_natCast (m % b)]
    apply compare_congr <;> omega
  · rw [compare_gt_iff_gt.mpr h]
    exact compare_gt_iff_gt.mpr (lt_of_div_lt_div h)

theorem beBytes_succ (w n : Nat) : beBytes (w + 1) n = beBytes w (n / 256) ++ [UInt8.ofNat n] := by
  rw [beBytes, leBytes, reverse_cons]
  rfl

theorem compare_beBytes {w m n : Nat} (hm : m < 256 ^ w) (hn : n < 256 ^ w) :
    compare (beBytes w m) (beBytes w n) = compare m n := by
  induction w generalizing m n with
  | zero =>
    rw [lt_one_iff.mp hm, lt_one_iff.mp hn]
    rfl
  | succ w ih =>
    have hlength : (beBytes w (m / 256)).length = (beBytes w (n / 256)).length := by
      rw [length_beBytes, length_beBytes]
    rw [pow_succ] at hm hn
    have hlow : compare [UInt8.ofNat m] [UInt8.ofNat n] = compare (m % 256) (n % 256) := by
      rw [List.compare_cons_cons, compare_uint8, UInt8.toNat_ofNat', UInt8.toNat_ofNat']
      exact Ordering.then_eq
    rw [beBytes_succ, beBytes_succ, compares_of_length hlength, ih (by omega) (by omega), hlow,
      ← compare_divMod]

/-! ## UTF-8 -/

theorem compare_char (c d : Char) : compare c d = compare c.val.toNat d.val.toNat := by
  show compareOfLessAndEq c d = compareOfLessAndEq c.val.toNat d.val.toNat
  unfold compareOfLessAndEq
  simp only [Char.lt_def, UInt32.lt_iff_toNat_lt, UInt32.toNat_inj, Char.ext_iff]

theorem compare_ofNat {m n : Nat} (hm : m < 256) (hn : n < 256) :
    compare (UInt8.ofNat m) (UInt8.ofNat n) = compare m n := by
  rw [compare_uint8, UInt8.toNat_ofNat_of_lt' hm, UInt8.toNat_ofNat_of_lt' hn]

theorem compares_bytes_of_lt {m n : Nat} (hm : m < 256) (hn : n < 256) (h : m < n) (x y : List UInt8) :
    Compares (UInt8.ofNat m :: x) (UInt8.ofNat n :: y) .lt :=
  compares_of_lt ((compare_ofNat hm hn).trans (compare_lt_iff_lt.mpr h)) x y

theorem compares_bytes_of_le {m n : Nat} (hm : m < 256) (hn : n < 256) {x y : List UInt8}
    (h : m < n ∨ m = n ∧ Compares x y .lt) : Compares (UInt8.ofNat m :: x) (UInt8.ofNat n :: y) .lt := by
  rcases h with hlt | ⟨heq, htail⟩
  · exact compares_bytes_of_lt hm hn hlt x y
  · rw [heq]
    exact compares_cons_self _ htail

theorem digits_of_lt {n : Nat} (h : n < 0x110000) :
    n = 262144 * (n / 262144 % 8) + 4096 * (n / 4096 % 64) + 64 * (n / 64 % 64) + n % 64 := by
  omega

theorem compares_utf8_of_lt {c d : Char} (h : c.val.toNat < d.val.toNat) :
    Compares (String.utf8EncodeChar c) (String.utf8EncodeChar d) .lt := by
  have hd : d.val.toNat < 0x110000 := by
    have hvalid : d.val.toNat < 0xd800 ∨ (0xdfff < d.val.toNat ∧ d.val.toNat < 0x110000) := d.valid
    omega
  unfold String.utf8EncodeChar
  generalize c.val.toNat = v at h ⊢
  generalize d.val.toNat = w at h hd ⊢
  dsimp only
  split_ifs
  all_goals try omega
  all_goals refine compares_bytes_of_le (by omega) (by omega) ?_
  -- the numbers of bytes differ, or there is one byte
  all_goals try exact .inl (by omega)
  · have hbytes : v / 64 % 32 + 192 < w / 64 % 32 + 192 ∨
        v / 64 % 32 + 192 = w / 64 % 32 + 192 ∧ v % 64 + 128 < w % 64 + 128 := by
      omega
    apply hbytes.imp_right (And.imp_right _)
    intro hlast
    exact compares_bytes_of_lt (by omega) (by omega) hlast _ _
  · have hbytes : v / 4096 % 16 + 224 < w / 4096 % 16 + 224 ∨
        v / 4096 % 16 + 224 = w / 4096 % 16 + 224 ∧
          (v / 64 % 64 + 128 < w / 64 % 64 + 128 ∨
            v / 64 % 64 + 128 = w / 64 % 64 + 128 ∧ v % 64 + 128 < w % 64 + 128) := by
      omega
    apply hbytes.imp_right (And.imp_right _)
    intro htail
    apply compares_bytes_of_le (by omega) (by omega)
    apply htail.imp_right (And.imp_right _)
    intro hlast
    exact compares_bytes_of_lt (by omega) (by omega) hlast _ _
  · have hbytes : v / 262144 % 8 + 240 < w / 262144 % 8 + 240 ∨
        v / 262144 % 8 + 240 = w / 262144 % 8 + 240 ∧
          (v / 4096 % 64 + 128 < w / 4096 % 64 + 128 ∨
            v / 4096 % 64 + 128 = w / 4096 % 64 + 128 ∧
              (v / 64 % 64 + 128 < w / 64 % 64 + 128 ∨
                v / 64 % 64 + 128 = w / 64 % 64 + 128 ∧ v % 64 + 128 < w % 64 + 128)) := by
      have hv := digits_of_lt (n := v) (by omega)
      have hw := digits_of_lt hd
      have hfour : v / 262144 % 8 < 8 ∧ w / 262144 % 8 < 8 := by omega
      have hmod : ∀ n, n / 4096 % 64 < 64 ∧ n / 64 % 64 < 64 ∧ n % 64 < 64 := by omega
      have hvmod := hmod v
      have hwmod := hmod w
      generalize v / 262144 % 8 = a₃ at *
      generalize v / 4096 % 64 = a₂ at *
      generalize v / 64 % 64 = a₁ at *
      generalize v % 64 = a₀ at *
      generalize w / 262144 % 8 = b₃ at *
      generalize w / 4096 % 64 = b₂ at *
      generalize w / 64 % 64 = b₁ at *
      generalize w % 64 = b₀ at *
      omega
    apply hbytes.imp_right (And.imp_right _)
    intro htail
    apply compares_bytes_of_le (by omega) (by omega)
    apply htail.imp_right (And.imp_right _)
    intro htail'
    apply compares_bytes_of_le (by omega) (by omega)
    apply htail'.imp_right (And.imp_right _)
    intro hlast
    exact compares_bytes_of_lt (by omega) (by omega) hlast _ _

theorem Compares.swap {β : Type} [Ord β] [Std.OrientedOrd β] {x y : List β} {o : Ordering}
    (h : Compares x y o) : Compares y x o.swap := by
  intro rest rest'
  rw [Std.OrientedOrd.eq_swap, h, Ordering.swap_then, ← Std.OrientedOrd.eq_swap]

theorem compares_utf8EncodeChar (c d : Char) :
    Compares (String.utf8EncodeChar c) (String.utf8EncodeChar d) (compare c d) := by
  rw [compare_char]
  rcases lt_trichotomy c.val.toNat d.val.toNat with h | h | h
  · rw [compare_lt_iff_lt.mpr h]
    exact compares_utf8_of_lt h
  · have hcd : c = d := Char.ext (UInt32.toNat_inj.mp h)
    rw [hcd, compare_eq_iff_eq.mpr rfl]
    exact compares_self _
  · rw [compare_gt_iff_gt.mpr h]
    exact (compares_utf8_of_lt h).swap

theorem compare_flatMap {α β : Type} [Ord α] [Ord β] {image : α → List β}
    (hcode : ∀ a b, Compares (image a) (image b) (compare a b)) (hne : ∀ a, image a ≠ []) (as bs : List α) :
    compare (as.flatMap image) (bs.flatMap image) = compare as bs := by
  induction as generalizing bs with
  | nil =>
    cases bs with
    | nil => rfl
    | cons b bs =>
      rw [flatMap_cons, flatMap_nil]
      cases himage : image b with
      | nil => exact absurd himage (hne b)
      | cons x y => rfl
  | cons a as ih =>
    cases bs with
    | nil =>
      rw [flatMap_cons, flatMap_nil]
      cases himage : image a with
      | nil => exact absurd himage (hne a)
      | cons x y => rfl
    | cons b bs =>
      rw [flatMap_cons, flatMap_cons, hcode, ih, List.compare_cons_cons]

theorem compare_chars_of_lt {cs ds : List Char} (h : cs < ds) : compare cs ds = .lt := by
  induction cs generalizing ds with
  | nil =>
    cases ds with
    | nil => exact absurd h (not_lt_nil _)
    | cons d ds => rfl
  | cons c cs ih =>
    cases ds with
    | nil => exact absurd h (not_lt_nil _)
    | cons d ds =>
      rw [List.compare_cons_cons, compare_char]
      rcases cons_lt_cons_iff.mp h with hlt | ⟨heq, htail⟩
      · rw [compare_lt_iff_lt.mpr (UInt32.lt_iff_toNat_lt.mp hlt)]
        rfl
      · rw [heq, compare_eq_iff_eq.mpr rfl]
        exact ih htail

theorem compare_utf8 (s t : String) :
    compare (s.toList.flatMap String.utf8EncodeChar)
      (t.toList.flatMap String.utf8EncodeChar) = compare s t := by
  have hne : ∀ c, String.utf8EncodeChar c ≠ [] := by
    intro c h
    have hsize := c.utf8Size_pos
    rw [← String.length_utf8EncodeChar, h] at hsize
    exact lt_irrefl 0 hsize
  rw [compare_flatMap compares_utf8EncodeChar hne]
  show compare s.toList t.toList = compareOfLessAndEq s t
  unfold compareOfLessAndEq
  split_ifs with hlt heq
  · exact compare_chars_of_lt (String.lt_iff.mp hlt)
  · rw [heq]
    exact Std.ReflOrd.compare_self
  · have hgt : t < s := by
      by_contra hle
      exact heq (String.le_antisymm (String.not_lt.mp hle) (String.not_lt.mp hlt))
    rw [Std.OrientedOrd.eq_swap, compare_chars_of_lt (String.lt_iff.mp hgt)]
    rfl

end H2Database.Reasoning
