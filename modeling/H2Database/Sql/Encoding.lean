import H2Database.Sql.Value
import Mathlib.Data.List.Basic

/-!
# Index keys (`h2-sql/src/executor/encoding.rs`)

The key of an index entry is the memcomparable images of the values of the index's columns, a zero byte
and the row's number.  `Value.exact` marks the values that are read back as they were written.
-/

namespace H2Database.Sql

open Reasoning List Option

def escape (bs : List UInt8) : List UInt8 := bs.flatMap fun b => if b = 0 then [0, 0xFF] else [b]

def unescape : List UInt8 → List UInt8 × List UInt8
  | [] => ([], [])
  | [b] => if b = 0 then ([], []) else ([b], [])
  | b :: c :: rest =>
    if b = 0 then
      if c = 0xFF then (0 :: (unescape rest).1, (unescape rest).2)
      else if c = 0 then ([], rest)
      else ([], c :: rest)
    else (b :: (unescape (c :: rest)).1, (unescape (c :: rest)).2)

def orderF32 (u : UInt32) : UInt32 := if u &&& 0x80000000 ≠ 0 then ~~~u else u ^^^ 0x80000000

def orderF64 (u : UInt64) : UInt64 :=
  if u &&& 0x8000000000000000 ≠ 0 then ~~~u else u ^^^ 0x8000000000000000

def bitsF32 (u : UInt32) : UInt32 := if u &&& 0x80000000 = 0 then ~~~u else u ^^^ 0x80000000

def bitsF64 (u : UInt64) : UInt64 :=
  if u &&& 0x8000000000000000 = 0 then ~~~u else u ^^^ 0x8000000000000000

/-- An unsigned integer of `w` bytes at the front. -/
def takeBe (w : Nat) (bytes : List UInt8) : Option (Nat × List UInt8) :=
  if bytes.length < w then none else some (fromBe (bytes.take w), bytes.drop w)

def utf8 (s : String) : List UInt8 := s.toUTF8.data.toList

def fromUtf8 (bytes : List UInt8) : Option String := String.fromUTF8? ⟨bytes.toArray⟩

section

variable [Crates]

def encodeMemcomparableValue : Value → List UInt8
  | .null => [0x01]
  | .boolean b => [0x02, if b then 1 else 0]
  | .tinyInt i => [0x03, i.toUInt8 ^^^ 0x80]
  | .smallInt i => 0x04 :: beBytes 2 (i.toUInt16 ^^^ 0x8000).toNat
  | .integer i => 0x05 :: beBytes 4 (i.toUInt32 ^^^ 0x80000000).toNat
  | .bigInt i => 0x06 :: beBytes 8 (i.toUInt64 ^^^ 0x8000000000000000).toNat
  | .float u => 0x07 :: beBytes 4 (orderF32 u).toNat
  | .double u => 0x08 :: beBytes 8 (orderF64 u).toNat
  | .string s => 0x09 :: (escape (utf8 s) ++ [0, 0])
  | .date d => 0x0A :: beBytes 4 (d.numDays.toUInt32 ^^^ 0x80000000).toNat
  | .timestamp ts => 0x0B :: beBytes 8 ((ts.nanosOpt.getD 0).toUInt64 ^^^ 0x8000000000000000).toNat
  | .decimal d => 0x0C :: beBytes 8 (orderF64 ((Crates.decimalToF64 d).getD 0)).toNat
  | .bytes b => 0x0D :: (escape b ++ [0, 0])
  | .uuid u => 0x0E :: beBytes 16 u.bits.toNat
  | _ => [0xFF]

def decodeMemcomparableValue : List UInt8 → Option (Value × List UInt8)
  | [] => none
  | tag :: rest =>
    match tag with
    | 0x01 => some (.null, rest)
    | 0x02 => (takeBe 1 rest).map fun p => (.boolean (p.1 != 0), p.2)
    | 0x03 => (takeBe 1 rest).map fun p => (.tinyInt (UInt8.ofNat p.1 ^^^ 0x80).toInt8, p.2)
    | 0x04 => (takeBe 2 rest).map fun p => (.smallInt (UInt16.ofNat p.1 ^^^ 0x8000).toInt16, p.2)
    | 0x05 => (takeBe 4 rest).map fun p => (.integer (UInt32.ofNat p.1 ^^^ 0x80000000).toInt32, p.2)
    | 0x06 =>
      (takeBe 8 rest).map fun p => (.bigInt (UInt64.ofNat p.1 ^^^ 0x8000000000000000).toInt64, p.2)
    | 0x07 => (takeBe 4 rest).map fun p => (.float (bitsF32 (UInt32.ofNat p.1)), p.2)
    | 0x08 => (takeBe 8 rest).map fun p => (.double (bitsF64 (UInt64.ofNat p.1)), p.2)
    | 0x09 => (fromUtf8 (unescape rest).1).map fun s => (.string s, (unescape rest).2)
    | 0x0A => do
      let (u, rest) ← takeBe 4 rest
      let d ← NaiveDate.fromNumDaysFromCeOpt (UInt32.ofNat u ^^^ 0x80000000).toInt32
      some (.date d, rest)
    | 0x0B => (takeBe 8 rest).map fun p =>
        (.timestamp (Timestamp.fromNanos (UInt64.ofNat p.1 ^^^ 0x8000000000000000).toInt64), p.2)
    | 0x0C => (takeBe 8 rest).map fun p =>
        (.decimal ((Crates.decimalFromF64 (bitsF64 (UInt64.ofNat p.1))).getD ⟨0⟩), p.2)
    | 0x0D => some (.bytes (unescape rest).1, (unescape rest).2)
    | 0x0E => (takeBe 16 rest).map fun p => (.uuid ⟨BitVec.ofNat 128 p.1⟩, p.2)
    | _ => none

/-- The values one after the other.  Each takes a byte or more, so the length bounds their number. -/
def decodeMemcomparableValuesIn : Nat → List UInt8 → Option (List Value)
  | _, [] => some []
  | 0, _ :: _ => none
  | n + 1, bytes => do
    let (v, rest) ← decodeMemcomparableValue bytes
    let vals ← decodeMemcomparableValuesIn n rest
    some (v :: vals)

def decodeMemcomparableValues (bytes : List UInt8) : Option (List Value) :=
  decodeMemcomparableValuesIn bytes.length bytes

def encodeIndexPrefix (vals : List Value) : List UInt8 :=
  vals.flatMap encodeMemcomparableValue ++ [0x00]

def encodeCompositeIndexKey (vals : List Value) (rowId : UInt64) : List UInt8 :=
  encodeIndexPrefix vals ++ beBytes 8 rowId.toNat

def encodeIndexKey (val : Value) (rowId : UInt64) : List UInt8 := encodeCompositeIndexKey [val] rowId

def decodeCompositeIndexKey (bytes : List UInt8) : Option (List Value × UInt64) :=
  if bytes.length < 9 then none
  else
    let rowId := UInt64.ofNat (fromBe (bytes.drop (bytes.length - 8)))
    (decodeMemcomparableValues (bytes.take (bytes.length - 9))).map fun vals => (vals, rowId)

/-- A key of one column.  Where no value can be read the answer is NULL with the row's number. -/
def decodeIndexKey (bytes : List UInt8) : Option (Value × UInt64) :=
  if bytes.length < 9 then none
  else
    let rowId := UInt64.ofNat (fromBe (bytes.drop (bytes.length - 8)))
    match decodeMemcomparableValue (bytes.take (bytes.length - 9)) with
    | some (v, _) => some (v, rowId)
    | none => some (.null, rowId)

end

/-- The image stands for this value alone: negative zero equals zero and has another image, a decimal
goes through a floating-point number, a timestamp may be out of range, and times, documents, arrays
have no image. -/
def Value.exact : Value → Bool
  | .float u => u != 0x80000000
  | .double u => u != 0x8000000000000000
  | .timestamp ts => ts.nanosOpt.map Timestamp.fromNanos == some ts
  | .decimal _ | .time _ | .json _ | .array _ => false
  | _ => true

theorem unescape_cons {b : UInt8} (hb : b ≠ 0) (bs : List UInt8) :
    unescape (b :: bs) = (b :: (unescape bs).1, (unescape bs).2) := by
  cases bs <;> simp only [unescape, if_neg hb]

theorem unescape_escape (bs rest : List UInt8) :
    unescape (escape bs ++ ([0, 0] ++ rest)) = (bs, rest) := by
  induction bs with
  | nil => rfl
  | cons b bs ih =>
    unfold escape at ih ⊢
    rw [flatMap_cons, append_assoc]
    split_ifs with hb
    · rw [cons_append, cons_append, nil_append, unescape, if_pos rfl, if_pos rfl, ih, hb]
    · rw [cons_append, nil_append, unescape_cons hb, ih]

theorem takeBe_beBytes {w n : Nat} (h : n < 256 ^ w) (rest : List UInt8) :
    takeBe w (beBytes w n ++ rest) = some (n, rest) := by
  have hl := length_beBytes w n
  unfold takeBe
  rw [if_neg (by rw [length_append]; omega), take_left' hl, drop_left' hl,
    fromBe_beBytes_of_lt h]

theorem fromUtf8_utf8 (s : String) : fromUtf8 (utf8 s) = some s := by
  unfold fromUtf8 utf8
  rw [Array.toArray_toList]
  exact dif_pos s.isValidUTF8

theorem sign32 (u : UInt32) : u &&& 0x80000000 = 0 ↔ u.toBitVec.getLsbD 31 = false := by
  have h : (u &&& 0x80000000).toBitVec = u.toBitVec &&& 0x80000000#32 := rfl
  rw [← UInt32.toBitVec_inj, h, show (0x80000000#32) = BitVec.twoPow 32 31 from rfl, BitVec.and_twoPow]
  cases u.toBitVec.getLsbD 31 <;> decide

theorem sign64 (u : UInt64) : u &&& 0x8000000000000000 = 0 ↔ u.toBitVec.getLsbD 63 = false := by
  have h : (u &&& 0x8000000000000000).toBitVec = u.toBitVec &&& 0x8000000000000000#64 := rfl
  rw [← UInt64.toBitVec_inj, h, show (0x8000000000000000#64) = BitVec.twoPow 64 63 from rfl,
    BitVec.and_twoPow]
  cases u.toBitVec.getLsbD 63 <;> decide

theorem bitsF32_orderF32 (u : UInt32) : bitsF32 (orderF32 u) = u := by
  unfold bitsF32 orderF32
  by_cases h : u &&& 0x80000000 = 0
  · have hb := (sign32 u).mp h
    have h' : ¬(u ^^^ 0x80000000) &&& 0x80000000 = 0 := by
      rw [sign32, UInt32.toBitVec_xor, BitVec.getLsbD_xor, hb]
      decide
    rw [if_neg (not_not.mpr h), if_neg h', UInt32.xor_assoc, UInt32.xor_self, UInt32.xor_zero]
  · have hb := Bool.eq_true_of_not_eq_false (mt (sign32 u).mpr h)
    have h' : ~~~u &&& 0x80000000 = 0 := by
      rw [sign32, UInt32.toBitVec_not, BitVec.getLsbD_not, hb]
      decide
    rw [if_pos h, if_pos h', UInt32.not_not]

theorem bitsF64_orderF64 (u : UInt64) : bitsF64 (orderF64 u) = u := by
  unfold bitsF64 orderF64
  by_cases h : u &&& 0x8000000000000000 = 0
  · have hb := (sign64 u).mp h
    have h' : ¬(u ^^^ 0x8000000000000000) &&& 0x8000000000000000 = 0 := by
      rw [sign64, UInt64.toBitVec_xor, BitVec.getLsbD_xor, hb]
      decide
    rw [if_neg (not_not.mpr h), if_neg h', UInt64.xor_assoc, UInt64.xor_self, UInt64.xor_zero]
  · have hb := Bool.eq_true_of_not_eq_false (mt (sign64 u).mpr h)
    have h' : ~~~u &&& 0x8000000000000000 = 0 := by
      rw [sign64, UInt64.toBitVec_not, BitVec.getLsbD_not, hb]
      decide
    rw [if_pos h, if_pos h', UInt64.not_not]

def Value.kind : Value → Nat
  | .null => 0
  | .boolean _ => 1
  | .tinyInt _ => 2
  | .smallInt _ => 3
  | .integer _ => 4
  | .bigInt _ => 5
  | .float _ => 6
  | .double _ => 7
  | .decimal _ => 8
  | .string _ => 9
  | .bytes _ => 10
  | .date _ => 11
  | .time _ => 12
  | .timestamp _ => 13
  | .uuid _ => 14
  | .json _ => 15
  | .array _ => 16
  | .interval _ => 17

theorem unflip8 (u m : UInt8) : UInt8.ofNat (u ^^^ m).toNat ^^^ m = u := by
  rw [UInt8.ofNat_toNat, UInt8.xor_assoc, UInt8.xor_self, UInt8.xor_zero]

theorem unflip16 (u m : UInt16) : UInt16.ofNat (u ^^^ m).toNat ^^^ m = u := by
  rw [UInt16.ofNat_toNat, UInt16.xor_assoc, UInt16.xor_self, UInt16.xor_zero]

theorem unflip32 (u m : UInt32) : UInt32.ofNat (u ^^^ m).toNat ^^^ m = u := by
  rw [UInt32.ofNat_toNat, UInt32.xor_assoc, UInt32.xor_self, UInt32.xor_zero]

theorem unflip64 (u m : UInt64) : UInt64.ofNat (u ^^^ m).toNat ^^^ m = u := by
  rw [UInt64.ofNat_toNat, UInt64.xor_assoc, UInt64.xor_self, UInt64.xor_zero]

theorem fromNumDaysFromCeOpt_numDays (d : NaiveDate) :
    NaiveDate.fromNumDaysFromCeOpt d.numDays = some d :=
  dif_pos d.valid

variable [Crates]

theorem decode_encode {v : Value} (hexact : v.exact = true) (hrefl : v.eq v = true) (rest : List UInt8) :
    decodeMemcomparableValue (encodeMemcomparableValue v ++ rest) = some (v, rest) := by
  cases v with
  | null => rfl
  | boolean b => cases b <;> rfl
  | tinyInt i =>
    have h : takeBe 1 ([i.toUInt8 ^^^ 0x80] ++ rest) = some ((i.toUInt8 ^^^ 0x80).toNat, rest) := rfl
    simp only [encodeMemcomparableValue, cons_append, decodeMemcomparableValue] at h ⊢
    rw [h, map_some, unflip8, Int8.toInt8_toUInt8]
  | smallInt i =>
    simp only [encodeMemcomparableValue, cons_append, decodeMemcomparableValue]
    rw [takeBe_beBytes (UInt16.toNat_lt _), map_some, unflip16, Int16.toInt16_toUInt16]
  | integer i =>
    simp only [encodeMemcomparableValue, cons_append, decodeMemcomparableValue]
    rw [takeBe_beBytes (UInt32.toNat_lt _), map_some, unflip32, Int32.toInt32_toUInt32]
  | bigInt i =>
    simp only [encodeMemcomparableValue, cons_append, decodeMemcomparableValue]
    rw [takeBe_beBytes (UInt64.toNat_lt _), map_some, unflip64, Int64.toInt64_toUInt64]
  | float u =>
    simp only [encodeMemcomparableValue, cons_append, decodeMemcomparableValue]
    rw [takeBe_beBytes (UInt32.toNat_lt _), map_some, UInt32.ofNat_toNat, bitsF32_orderF32]
  | double u =>
    simp only [encodeMemcomparableValue, cons_append, decodeMemcomparableValue]
    rw [takeBe_beBytes (UInt64.toNat_lt _), map_some, UInt64.ofNat_toNat, bitsF64_orderF64]
  | string s =>
    simp only [encodeMemcomparableValue, cons_append, append_assoc, decodeMemcomparableValue]
    have h := unescape_escape (utf8 s) rest
    simp only [cons_append] at h
    rw [h, fromUtf8_utf8, map_some]
  | date d =>
    simp only [encodeMemcomparableValue, cons_append, decodeMemcomparableValue]
    rw [takeBe_beBytes (UInt32.toNat_lt _)]
    simp only [bind_eq_bind, bind_some, unflip32, Int32.toInt32_toUInt32,
      fromNumDaysFromCeOpt_numDays]
  | timestamp ts =>
    obtain ⟨nanos, hnanos, hts⟩ := map_eq_some_iff.mp (eq_of_beq hexact)
    simp only [encodeMemcomparableValue, cons_append, decodeMemcomparableValue, hnanos,
      getD_some]
    rw [takeBe_beBytes (UInt64.toNat_lt _), map_some, unflip64, Int64.toInt64_toUInt64, hts]
  | bytes b =>
    simp only [encodeMemcomparableValue, cons_append, append_assoc, decodeMemcomparableValue]
    have h := unescape_escape b rest
    simp only [cons_append] at h
    rw [h]
  | uuid u =>
    simp only [encodeMemcomparableValue, cons_append, decodeMemcomparableValue]
    rw [takeBe_beBytes u.bits.isLt, map_some, BitVec.ofNat_toNat, BitVec.setWidth_eq]
  | interval iv => cases hrefl
  | decimal _ | time _ | json _ | array _ => cases hexact

theorem encodeMemcomparableValue_ne_nil (v : Value) : encodeMemcomparableValue v ≠ [] := by
  cases v <;> exact cons_ne_nil _ _

theorem decodeValuesIn_encode {vals : List Value} (hexact : ∀ v ∈ vals, v.exact = true ∧ v.eq v = true)
    {n : Nat} (hn : vals.length ≤ n) :
    decodeMemcomparableValuesIn n (vals.flatMap encodeMemcomparableValue) = some vals := by
  induction vals generalizing n with
  | nil => cases n <;> rfl
  | cons v vals ih =>
    obtain ⟨m, rfl⟩ : ∃ m, n = m + 1 := ⟨n - 1, by rw [length_cons] at hn; omega⟩
    obtain ⟨hv, hrefl⟩ := hexact v mem_cons_self
    have hrest := ih (fun w hw => hexact w (mem_cons_of_mem _ hw))
      (by rw [length_cons] at hn; omega : vals.length ≤ m)
    have hdec := decode_encode hv hrefl (vals.flatMap encodeMemcomparableValue)
    rw [flatMap_cons]
    cases henc : encodeMemcomparableValue v with
    | nil => exact absurd henc (encodeMemcomparableValue_ne_nil v)
    | cons b bs =>
      rw [henc] at hdec
      simp only [cons_append, decodeMemcomparableValuesIn] at hdec ⊢
      rw [hdec]
      simp only [bind_eq_bind, bind_some, hrest]

theorem length_le_flatMap_encode (vals : List Value) :
    vals.length ≤ (vals.flatMap encodeMemcomparableValue).length := by
  induction vals with
  | nil => exact Nat.le_refl _
  | cons v vals ih =>
    have := length_pos_iff.mpr (encodeMemcomparableValue_ne_nil v)
    rw [flatMap_cons, length_append, length_cons]
    omega

@[simp] theorem length_encodeCompositeIndexKey (vals : List Value) (rowId : UInt64) :
    (encodeCompositeIndexKey vals rowId).length =
      (vals.flatMap encodeMemcomparableValue).length + 9 := by
  simp only [encodeCompositeIndexKey, encodeIndexPrefix, length_append, length_beBytes,
    length_singleton]

theorem decode_encodeCompositeIndexKey {vals : List Value}
    (hexact : ∀ v ∈ vals, v.exact = true ∧ v.eq v = true) (rowId : UInt64) :
    decodeCompositeIndexKey (encodeCompositeIndexKey vals rowId) = some (vals, rowId) := by
  set image := vals.flatMap encodeMemcomparableValue with himage
  have hkey : encodeCompositeIndexKey vals rowId = image ++ ([0x00] ++ beBytes 8 rowId.toNat) :=
    append_assoc ..
  have hlen : (encodeCompositeIndexKey vals rowId).length = image.length + 9 :=
    length_encodeCompositeIndexKey vals rowId
  have hrow : (encodeCompositeIndexKey vals rowId).drop (image.length + 9 - 8) = beBytes 8 rowId.toNat := by
    unfold encodeCompositeIndexKey
    refine drop_left' ?_
    rw [encodeIndexPrefix, length_append, length_singleton]
    change image.length + 1 = image.length + 9 - 8
    omega
  have hvals : (encodeCompositeIndexKey vals rowId).take (image.length + 9 - 9) = image := by
    rw [hkey]
    exact take_left' (by omega)
  unfold decodeCompositeIndexKey
  rw [if_neg (by omega)]
  simp only [hlen, hrow, hvals]
  rw [decodeMemcomparableValues, decodeValuesIn_encode hexact (length_le_flatMap_encode vals),
    map_some, fromBe_beBytes_of_lt (UInt64.toNat_lt rowId), UInt64.ofNat_toNat]

theorem rowId_of_encodeCompositeIndexKey {vals vals' : List Value} {rowId rowId' : UInt64}
    (h : encodeCompositeIndexKey vals rowId = encodeCompositeIndexKey vals' rowId') :
    rowId = rowId' := by
  have hbytes := (append_inj' h (by rw [length_beBytes, length_beBytes])).2
  have hnat := congrArg fromBe hbytes
  rw [fromBe_beBytes_of_lt (UInt64.toNat_lt rowId), fromBe_beBytes_of_lt (UInt64.toNat_lt rowId')] at hnat
  exact UInt64.toNat_inj.mp hnat

end H2Database.Sql
