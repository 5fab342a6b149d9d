import H2Database.Reasoning.Bytes
import Mathlib.Data.List.Basic

/-!
# Byte coders with fixed-width integers

Coders that write a value as a byte string and read one back from the front of a longer string.
Integers have a fixed width, sequences and texts are preceded by their eight-byte length, and an
optional value by a one-byte tag: the layout of `bincode` 1.x with its default options.  `Reads` is
the round trip at one value, and each combinator reads back what its parts read back.
-/

namespace H2Database.Reasoning

open List Int

structure Coder (α : Type) where
  encode : α → List UInt8
  decode : List UInt8 → Option (α × List UInt8)

namespace Coder

variable {α β : Type}

/-- The image of `a` is read back from the front of any longer string. -/
def Reads (c : Coder α) (a : α) : Prop :=
  ∀ rest, c.decode (c.encode a ++ rest) = some (a, rest)

/-! ## Integers -/

/-- An unsigned integer of `w` bytes. -/
def uint (w : Nat) : Coder Nat where
  encode n := leBytes w n
  decode bs := if w ≤ bs.length then some (fromLe (bs.take w), bs.drop w) else none

theorem uint_reads {w n : Nat} (h : n < 256 ^ w) : (uint w).Reads n := by
  intro rest
  have hl := length_leBytes w n
  simp only [uint, length_append, hl]
  rw [if_pos (by omega), take_left' hl, drop_left' hl, fromLe_leBytes_of_lt h]

/-- A signed integer of `w` bytes in two's complement. -/
def sint (w : Nat) : Coder Int where
  encode i := leBytes w (i % (256 ^ w : Nat)).toNat
  decode bs := if w ≤ bs.length then
      let n := fromLe (bs.take w)
      some (if 2 * n < 256 ^ w then (n : Int) else n - (256 ^ w : Nat), bs.drop w)
    else none

theorem sint_reads {w : Nat} {i : Int} (hlo : -((256 ^ w : Nat) : Int) ≤ 2 * i)
    (hhi : 2 * i < ((256 ^ w : Nat) : Int)) : (sint w).Reads i := by
  intro rest
  set m : Nat := 256 ^ w with hm
  have hl := length_leBytes w (i % (m : Int)).toNat
  have hpos : (0 : Int) < (m : Int) := by
    have : 0 < m := hm ▸ Nat.pow_pos (by decide)
    exact_mod_cast this
  have hres : 0 ≤ i % (m : Int) := emod_nonneg i (by omega)
  have hlt : i % (m : Int) < m := emod_lt_of_pos i hpos
  have hn : fromLe (leBytes w (i % (m : Int)).toNat) = (i % (m : Int)).toNat :=
    fromLe_leBytes_of_lt (by omega)
  simp only [sint, length_append, ← hm, hl]
  rw [if_pos (by omega), take_left' hl, drop_left' hl, hn]
  by_cases hi : 0 ≤ i
  · rw [emod_eq_of_lt hi (by omega), if_pos (by omega), toNat_of_nonneg hi]
  · rw [emod_eq_add_self_emod, emod_eq_of_lt (by omega) (by omega), if_neg (by omega),
      toNat_of_nonneg (by omega)]
    congr 2
    omega

/-! ## Products and tags -/

def pair (c : Coder α) (d : Coder β) : Coder (α × β) where
  encode p := c.encode p.1 ++ d.encode p.2
  decode bs := do
    let (a, bs) ← c.decode bs
    let (b, bs) ← d.decode bs
    some ((a, b), bs)

variable {c : Coder α}

theorem pair_reads {d : Coder β} {a : α} {b : β} (ha : c.Reads a) (hb : d.Reads b) :
    (pair c d).Reads (a, b) := by
  intro rest
  simp [pair, append_assoc, ha (d.encode b ++ rest), hb rest]

def iso (c : Coder α) (toFun : α → β) (invFun : β → α) : Coder β where
  encode b := c.encode (invFun b)
  decode bs := (c.decode bs).map (fun p => (toFun p.1, p.2))

theorem iso_reads {toFun : α → β} {invFun : β → α} {b : β}
    (h : c.Reads (invFun b)) (hinv : toFun (invFun b) = b) : (iso c toFun invFun).Reads b := by
  intro rest
  simp [iso, h rest, hinv]

def option (c : Coder α) : Coder (Option α) where
  encode
    | none => [0]
    | some a => 1 :: c.encode a
  decode
    | [] => none
    | t :: bs =>
      if t = 0 then some (none, bs)
      else if t = 1 then (c.decode bs).map (fun p => (some p.1, p.2))
      else none

theorem option_reads {o : Option α} (h : ∀ a ∈ o, c.Reads a) : (option c).Reads o := by
  intro rest
  cases o with
  | none => rfl
  | some a => simp [option, h a rfl rest]

def bool : Coder Bool where
  encode b := [if b then 1 else 0]
  decode
    | [] => none
    | t :: bs => if t = 0 then some (false, bs) else if t = 1 then some (true, bs) else none

theorem bool_reads (b : Bool) : bool.Reads b := by
  intro rest
  cases b <;> rfl

/-! ## Sequences -/

def decodeMany (c : Coder α) : Nat → List UInt8 → Option (List α × List UInt8)
  | 0, bs => some ([], bs)
  | n + 1, bs => do
    let (a, bs) ← c.decode bs
    let (as, bs) ← decodeMany c n bs
    some (a :: as, bs)

def vec (c : Coder α) : Coder (List α) where
  encode as := leBytes 8 as.length ++ as.flatMap c.encode
  decode bs := do
    let (n, bs) ← (uint 8).decode bs
    decodeMany c n bs

theorem decodeMany_flatMap {as : List α} (h : ∀ a ∈ as, c.Reads a) (rest : List UInt8) :
    decodeMany c as.length (as.flatMap c.encode ++ rest) = some (as, rest) := by
  induction as with
  | nil => rfl
  | cons a as ih =>
    have ha := h a mem_cons_self
    simp [decodeMany, append_assoc, ha (as.flatMap c.encode ++ rest),
      ih (fun b hb => h b (mem_cons_of_mem _ hb))]

theorem vec_reads {as : List α} (hlen : as.length < 2 ^ 64) (h : ∀ a ∈ as, c.Reads a) : (vec c).Reads as := by
  intro rest
  have hn : fromLe (leBytes 8 as.length) = as.length := fromLe_leBytes_of_lt hlen
  simp [vec, uint, hn, decodeMany_flatMap h rest]

def bytes : Coder (List UInt8) where
  encode bs := leBytes 8 bs.length ++ bs
  decode bs := do
    let (n, bs) ← (uint 8).decode bs
    if n ≤ bs.length then some (bs.take n, bs.drop n) else none

theorem bytes_reads {bs : List UInt8} (hlen : bs.length < 2 ^ 64) : bytes.Reads bs := by
  intro rest
  have hn : fromLe (leBytes 8 bs.length) = bs.length := fromLe_leBytes_of_lt hlen
  simp [bytes, uint, hn]

def text : Coder String where
  encode s := bytes.encode s.toUTF8.data.toList
  decode bs := do
    let (utf8, bs) ← bytes.decode bs
    let s ← String.fromUTF8? ⟨utf8.toArray⟩
    some (s, bs)

theorem text_reads {s : String} (hlen : s.utf8ByteSize < 2 ^ 64) : text.Reads s := by
  intro rest
  have hb : bytes.Reads s.toUTF8.data.toList := bytes_reads (by
    rw [Array.length_toList]
    exact hlen)
  have hs : String.fromUTF8? ⟨s.toUTF8.data.toList.toArray⟩ = some s := by
    rw [Array.toArray_toList]
    exact dif_pos s.isValidUTF8
  simp only [text]
  rw [hb rest]
  simp only [Option.bind_eq_bind, Option.bind_some, hs]

end Coder

end H2Database.Reasoning
