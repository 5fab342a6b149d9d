import H2Database.Sql.Row

/-!
# Rows are read back

The length of a text, a byte string, a document or an array has four bytes, and the times and documents
that are read are checked.  A row whose values keep to that is read back as it was written.
-/

namespace H2Database.Sql

open Reasoning List Option

mutual

def Value.depth : Value → Nat
  | .array items => depthAll items + 1
  | _ => 0

def Value.depthAll : List Value → Nat
  | [] => 0
  | v :: vals => max v.depth (depthAll vals)

end

mutual

theorem depth_lt_length (v : Value) : v.depth < (encodeValue v).length := by
  cases v with
  | array items =>
    have h := depthAll_le_length items
    simp only [Value.depth, encodeValue, length_cons, length_append, length_leBytes]
    omega
  | _ =>
    simp only [Value.depth, encodeValue, length_cons]
    omega

theorem depthAll_le_length (vals : List Value) : Value.depthAll vals ≤ (encodeValues vals).length := by
  cases vals with
  | nil => exact Nat.le_refl _
  | cons v vals =>
    have hv := depth_lt_length v
    have hrest := depthAll_le_length vals
    simp only [Value.depthAll, encodeValues, length_append]
    omega

end

theorem takeLe_leBytes {w n : Nat} (h : n < 256 ^ w) (rest : List UInt8) :
    takeLe w (leBytes w n ++ rest) = some (n, rest) := by
  have hl := length_leBytes w n
  unfold takeLe
  rw [if_neg (by rw [length_append]; omega), take_left' hl, drop_left' hl,
    fromLe_leBytes_of_lt h]

theorem takeBytes_append (b rest : List UInt8) : takeBytes b.length (b ++ rest) = some (b, rest) := by
  unfold takeBytes
  rw [if_neg (by rw [length_append]; omega), take_left, drop_left]

theorem take_lengthAndBytes {b : List UInt8} (h : b.length < 2 ^ 32) (rest : List UInt8) :
    takeLe 4 (lengthAndBytes b ++ rest) = some (b.length, b ++ rest) := by
  unfold lengthAndBytes
  rw [append_assoc, takeLe_leBytes (by simpa using h)]

/-! ## Values that can be stored -/

variable [Crates]

mutual

def Value.Storable : Value → Prop
  | .string s => (utf8 s).length < 2 ^ 32
  | .bytes b => b.length < 2 ^ 32
  | .json j => j.text.length < 2 ^ 32 ∧ Crates.jsonFromSlice j.text = some j
  | .time t => Crates.validTime t = true
  | .timestamp ts => Crates.validTimestamp ts = true
  | .array items => items.length < 2 ^ 32 ∧ StorableAll items
  | _ => True

def Value.StorableAll : List Value → Prop
  | [] => True
  | v :: vals => v.Storable ∧ StorableAll vals

end

mutual

theorem decodeValue_encodeValue {v : Value} (hv : v.Storable) {depth : Nat} (hdepth : v.depth ≤ depth)
    (rest : List UInt8) : decodeValue depth (encodeValue v ++ rest) = some (v, rest) := by
  cases v with
  | null =>
    simp only [encodeValue, cons_append, decodeValue]
    rfl
  | boolean b =>
    have h : takeLe 1 ((if b then 1 else 0) :: rest) = some (if b then 1 else 0, rest) := by
      cases b <;> exact takeLe_leBytes (w := 1) (by decide) rest
    simp only [encodeValue, cons_append, nil_append, decodeValue]
    rw [h]
    cases b <;> rfl
  | tinyInt i =>
    have h := takeLe_leBytes (w := 1) (n := i.toUInt8.toNat) (UInt8.toNat_lt _) rest
    have hbyte : leBytes 1 i.toUInt8.toNat = [i.toUInt8] := by
      simp [leBytes]
    rw [hbyte] at h
    simp only [encodeValue, cons_append, decodeValue] at h ⊢
    rw [h, map_some, UInt8.ofNat_toNat, Int8.toInt8_toUInt8]
  | smallInt i =>
    simp only [encodeValue, cons_append, decodeValue]
    rw [takeLe_leBytes (UInt16.toNat_lt _), map_some, UInt16.ofNat_toNat, Int16.toInt16_toUInt16]
  | integer i =>
    simp only [encodeValue, cons_append, decodeValue]
    rw [takeLe_leBytes (UInt32.toNat_lt _), map_some, UInt32.ofNat_toNat, Int32.toInt32_toUInt32]
  | bigInt i =>
    simp only [encodeValue, cons_append, decodeValue]
    rw [takeLe_leBytes (UInt64.toNat_lt _), map_some, UInt64.ofNat_toNat, Int64.toInt64_toUInt64]
  | float u =>
    simp only [encodeValue, cons_append, decodeValue]
    rw [takeLe_leBytes (UInt32.toNat_lt _), map_some, UInt32.ofNat_toNat]
  | double u =>
    simp only [encodeValue, cons_append, decodeValue]
    rw [takeLe_leBytes (UInt64.toNat_lt _), map_some, UInt64.ofNat_toNat]
  | decimal d =>
    simp only [encodeValue, cons_append, decodeValue]
    rw [takeLe_leBytes d.image.isLt, map_some, BitVec.ofNat_toNat, BitVec.setWidth_eq]
  | string s =>
    simp only [encodeValue, cons_append, decodeValue]
    rw [take_lengthAndBytes hv]
    simp only [bind_eq_bind, bind_some, takeBytes_append, fromUtf8_utf8]
  | bytes b =>
    simp only [encodeValue, cons_append, decodeValue]
    rw [take_lengthAndBytes hv]
    simp only [bind_eq_bind, bind_some, takeBytes_append]
  | date d =>
    simp only [encodeValue, cons_append, decodeValue]
    rw [takeLe_leBytes (UInt32.toNat_lt _)]
    simp only [bind_eq_bind, bind_some, UInt32.ofNat_toNat, Int32.toInt32_toUInt32,
      fromNumDaysFromCeOpt_numDays]
  | time t =>
    have hvalid : Crates.validTime ⟨t.secs, t.nanos⟩ = true := hv
    simp only [encodeValue, cons_append, append_assoc, decodeValue]
    rw [takeLe_leBytes (UInt32.toNat_lt _)]
    simp only [bind_eq_bind, bind_some]
    rw [takeLe_leBytes (UInt32.toNat_lt _)]
    simp only [bind_some, UInt32.ofNat_toNat, hvalid, if_true]
  | timestamp ts =>
    have hvalid : Crates.validTimestamp ⟨ts.secs, ts.nanos⟩ = true := hv
    simp only [encodeValue, cons_append, append_assoc, decodeValue]
    rw [takeLe_leBytes (UInt64.toNat_lt _)]
    simp only [bind_eq_bind, bind_some]
    rw [takeLe_leBytes (UInt32.toNat_lt _)]
    simp only [bind_some, UInt32.ofNat_toNat, UInt64.ofNat_toNat, Int64.toInt64_toUInt64, hvalid,
      if_true]
  | uuid u =>
    simp only [encodeValue, cons_append, decodeValue]
    rw [takeBe_beBytes u.bits.isLt, map_some, BitVec.ofNat_toNat, BitVec.setWidth_eq]
  | json j =>
    simp only [encodeValue, cons_append, decodeValue]
    rw [take_lengthAndBytes hv.1]
    simp only [bind_eq_bind, bind_some, takeBytes_append, hv.2]
  | array items =>
    obtain ⟨hlength, hitems⟩ : items.length < 2 ^ 32 ∧ Value.StorableAll items := hv
    have hdeep : Value.depthAll items + 1 ≤ depth := hdepth
    obtain ⟨inner, rfl⟩ : ∃ inner, depth = inner + 1 := ⟨depth - 1, by omega⟩
    simp only [encodeValue, cons_append, append_assoc, decodeValue]
    rw [takeLe_leBytes (by simpa using hlength)]
    simp only [bind_eq_bind, bind_some]
    rw [decodeTimes_encodeValues hitems (by omega)]
    rfl
  | interval iv =>
    simp only [encodeValue, cons_append, append_assoc, decodeValue]
    rw [takeLe_leBytes (UInt32.toNat_lt _)]
    simp only [bind_eq_bind, bind_some]
    rw [takeLe_leBytes (UInt32.toNat_lt _)]
    simp only [bind_some]
    rw [takeLe_leBytes (UInt64.toNat_lt _)]
    simp only [bind_some, UInt32.ofNat_toNat, UInt64.ofNat_toNat, Int32.toInt32_toUInt32,
      Int64.toInt64_toUInt64]

theorem decodeTimes_encodeValues {vals : List Value} (hvals : Value.StorableAll vals) {depth : Nat}
    (hdepth : Value.depthAll vals ≤ depth) (rest : List UInt8) :
    decodeTimes (decodeValue depth) vals.length (encodeValues vals ++ rest) = some (vals, rest) := by
  cases vals with
  | nil => rfl
  | cons v vals =>
    obtain ⟨hv, hrest⟩ : v.Storable ∧ Value.StorableAll vals := hvals
    rw [Value.depthAll] at hdepth
    rw [encodeValues, append_assoc, length_cons, decodeTimes,
      decodeValue_encodeValue hv (Nat.le_trans (Nat.le_max_left _ _) hdepth)]
    simp only [bind_eq_bind, bind_some]
    rw [decodeTimes_encodeValues hrest (Nat.le_trans (Nat.le_max_right _ _) hdepth)]
    rfl

end

def Row.Storable (row : Row) : Prop := row.length < 2 ^ 32 ∧ Value.StorableAll row

theorem Row.fromBytes_toBytes {row : Row} (h : row.Storable) : Row.fromBytes row.toBytes = .ok row := by
  have hread := decodeTimes_encodeValues h.2 (depthAll_le_length row) []
  rw [append_nil] at hread
  simp only [Row.fromBytes, Row.toBytes]
  rw [if_neg (by decide), takeLe_leBytes (by simpa using h.1)]
  simp only [hread]

end H2Database.Sql
