import H2Database.Sql.Careful
import H2Database.Sql.RoundTrip

/-!
# The offsets of the row codec (`h2-sql/src/row.rs`)

`from_bytes` and `decode_value` go through a buffer by offsets.  Here every index and every slice is an
access that fails outside the buffer.  None does, and what is read is what `Row.fromBytes` says, unless the
process is aborted: where there is no room for as many values as the bytes announce, or no stack for another
call.
-/

namespace H2Database.Sql

open Reasoning List Nat

/-- How a read ends without an answer. -/
inductive Fault where
  | outOfBounds
  | exhausted
  deriving DecidableEq, Repr

abbrev ByteRead := Except Fault

/-- Whether `with_capacity` has room for so many values, and whether the stack has room for a call that is
nested so deep. -/
class Memory where
  room : Nat → Bool
  stack : Nat → Bool

@[reducible] def unlimited : Memory := ⟨fun _ => true, fun _ => true⟩

/-- `bytes[i]`. -/
def byteAt (bytes : List UInt8) (i : Nat) : ByteRead UInt8 :=
  if h : i < bytes.length then .ok (bytes.get ⟨i, h⟩) else .error .outOfBounds

/-- `bytes[a..b]`. -/
def slice (bytes : List UInt8) (a b : Nat) : ByteRead (List UInt8) :=
  if a ≤ b ∧ b ≤ bytes.length then .ok ((bytes.take b).drop a) else .error .outOfBounds

/-- `bytes[a..]`. -/
def sliceFrom (bytes : List UInt8) (a : Nat) : ByteRead (List UInt8) := slice bytes a bytes.length

theorem byteAt_zero (tag : UInt8) (rest : List UInt8) : byteAt (tag :: rest) 0 = .ok tag := by
  have h : 0 < (tag :: rest).length := succ_pos _
  rw [byteAt, dif_pos h]
  rfl

variable {bytes : List UInt8}

theorem slice_of_le {a b : Nat} (hab : a ≤ b) (hb : b ≤ bytes.length) :
    slice bytes a b = .ok ((bytes.take b).drop a) := by
  rw [slice, if_pos ⟨hab, hb⟩]

theorem slice_cons {tag : UInt8} {rest : List UInt8} {a b : Nat} (hab : a ≤ b) (hb : b ≤ rest.length) :
    slice (tag :: rest) (a + 1) (b + 1) = .ok ((rest.drop a).take (b - a)) := by
  have hbytes : b + 1 ≤ (tag :: rest).length := succ_le_succ hb
  rw [slice_of_le (succ_le_succ hab) hbytes, take_succ_cons, drop_succ_cons, drop_take]

theorem ok_bind {α β : Type} (a : α) (f : α → ByteRead β) : ((.ok a : ByteRead α) >>= f) = f a := rfl

theorem sliceFrom_of_le {a : Nat} (h : a ≤ bytes.length) :
    sliceFrom bytes a = .ok (bytes.drop a) := by
  rw [sliceFrom, slice_of_le h (le_refl _), take_length]

/-- A value in the first `size` bytes, behind its tag. -/
def decodeFixed (bytes : List UInt8) (size : Nat) (f : List UInt8 → Option Value) :
    ByteRead (Option (Value × Nat)) :=
  if bytes.length < size then pure none
  else do
    let field ← slice bytes 1 size
    pure ((f field).map fun v => (v, size))

def decodeSized (bytes : List UInt8) (f : List UInt8 → Option Value) : ByteRead (Option (Value × Nat)) :=
  if bytes.length < 5 then pure none
  else do
    let len := fromLe (← slice bytes 1 5)
    if bytes.length < 5 + len then pure none
    else do
      let field ← slice bytes 5 (5 + len)
      pure ((f field).map fun v => (v, 5 + len))

/-- Values one after the other from an offset on, and the offset behind them. -/
def decodeTimesAt (decode : List UInt8 → ByteRead (Option (Value × Nat))) (bytes : List UInt8) :
    Nat → Nat → ByteRead (Option (List Value × Nat))
  | 0, offset => pure (some ([], offset))
  | n + 1, offset => do
    let rest ← sliceFrom bytes offset
    match ← decode rest with
    | none => pure none
    | some (v, consumed) =>
      match ← decodeTimesAt decode bytes n (offset + consumed) with
      | none => pure none
      | some (vals, offset) => pure (some (v :: vals, offset))

def rowResult : Option (List Value × Nat) → H2Result (Row × Nat)
  | none => .error (.serialization "Corrupted binary row value")
  | some (row, offset) => .ok (row, offset)

section

variable [Memory]

/-- `Vec::with_capacity`. -/
def withCapacity (count : Nat) : ByteRead Unit := if Memory.room count then .ok () else .error .exhausted

def decodeArray (decode : List UInt8 → ByteRead (Option (Value × Nat))) (bytes : List UInt8) :
    ByteRead (Option (Value × Nat)) :=
  if bytes.length < 5 then pure none
  else do
    let count := fromLe (← slice bytes 1 5)
    withCapacity count
    match ← decodeTimesAt decode bytes count 5 with
    | none => pure none
    | some (arr, offset) => pure (some (.array arr, offset))

variable [Crates]

/-- `decode_value`, in a call that is nested `level` deep: the value at the front and the bytes that it
takes. -/
def decodeValueAt (depth level : Nat) (bytes : List UInt8) : ByteRead (Option (Value × Nat)) :=
  if !Memory.stack level then .error .exhausted
  else if bytes.isEmpty then pure none
  else do
    match ← byteAt bytes 0 with
    | 0 => pure (some (.null, 1))
    | 1 => decodeFixed bytes 2 fun b => some (.boolean (fromLe b != 0))
    | 2 => decodeFixed bytes 2 fun b => some (.tinyInt (UInt8.ofNat (fromLe b)).toInt8)
    | 3 => decodeFixed bytes 3 fun b => some (.smallInt (UInt16.ofNat (fromLe b)).toInt16)
    | 4 => decodeFixed bytes 5 fun b => some (.integer (UInt32.ofNat (fromLe b)).toInt32)
    | 5 => decodeFixed bytes 9 fun b => some (.bigInt (UInt64.ofNat (fromLe b)).toInt64)
    | 6 => decodeFixed bytes 5 fun b => some (.float (UInt32.ofNat (fromLe b)))
    | 7 => decodeFixed bytes 9 fun b => some (.double (UInt64.ofNat (fromLe b)))
    | 8 => decodeFixed bytes 17 fun b => some (.decimal ⟨BitVec.ofNat 128 (fromLe b)⟩)
    | 9 => decodeSized bytes fun b => (fromUtf8 b).map .string
    | 10 => decodeSized bytes fun b => some (.bytes b)
    | 11 => decodeFixed bytes 5 fun b =>
      (NaiveDate.fromNumDaysFromCeOpt (UInt32.ofNat (fromLe b)).toInt32).map .date
    | 12 =>
      if bytes.length < 9 then pure none
      else do
        let secs ← slice bytes 1 5
        let nano ← slice bytes 5 9
        let t : NaiveTime := ⟨UInt32.ofNat (fromLe secs), UInt32.ofNat (fromLe nano)⟩
        pure (if Crates.validTime t then some (.time t, 9) else none)
    | 13 =>
      if bytes.length < 13 then pure none
      else do
        let secs ← slice bytes 1 9
        let nano ← slice bytes 9 13
        let ts : Timestamp := ⟨(UInt64.ofNat (fromLe secs)).toInt64, UInt32.ofNat (fromLe nano)⟩
        pure (if Crates.validTimestamp ts then some (.timestamp ts, 13) else none)
    | 14 => decodeFixed bytes 17 fun b => some (.uuid ⟨BitVec.ofNat 128 (fromBe b)⟩)
    | 15 => decodeSized bytes fun b => (Crates.jsonFromSlice b).map .json
    | 16 =>
      match depth with
      | 0 => pure none
      | depth + 1 => decodeArray (decodeValueAt depth (level + 1)) bytes
    | 17 =>
      if bytes.length < 17 then pure none
      else do
        let months ← slice bytes 1 5
        let days ← slice bytes 5 9
        let micros ← slice bytes 9 17
        pure (some (.interval ⟨(UInt32.ofNat (fromLe months)).toInt32, (UInt32.ofNat (fromLe days)).toInt32,
          (UInt64.ofNat (fromLe micros)).toInt64⟩, 17))
    | _ => pure none

/-- `from_bytes`: the row, and the offset behind its last value. -/
def rowFromBytesAt (bytes : List UInt8) : ByteRead (H2Result (Row × Nat)) :=
  if bytes.isEmpty then pure (.error (.serialization "Empty row bytes"))
  else do
    let magic ← byteAt bytes 0
    if magic ≠ 0xAA ∨ bytes.length < 5 then
      pure (.error (.serialization "Invalid binary row format: missing magic byte"))
    else do
      let count := fromLe (← slice bytes 1 5)
      withCapacity count
      return rowResult (← decodeTimesAt (decodeValueAt bytes.length 0) bytes count 5)

end

/-! ## Offsets and rests

`Located` compares a read that answers an offset with a read that answers the bytes behind it. -/

section

variable {α : Type}

/-- Nothing on both sides, or one value that takes at least `lo` bytes, and the rest begins at the offset.
Where the memory is ample only a read without an answer is aborted. -/
def Located (ample : Prop) (lo : Nat) (bytes : List UInt8) :
    ByteRead (Option (α × Nat)) → Option (α × List UInt8) → Prop
  | .error .exhausted, y => ample → y = none
  | .ok none, none => True
  | .ok (some (v, n)), some (w, rest) => v = w ∧ lo ≤ n ∧ n ≤ bytes.length ∧ rest = bytes.drop n
  | _, _ => False

variable {ample : Prop} {lo : Nat} {bytes : List UInt8}

theorem located_none : Located ample lo bytes (pure none : ByteRead (Option (α × Nat))) none := trivial

theorem located_some {rest : List UInt8} {v : α} {n : Nat} (hlo : lo ≤ n) (hn : n ≤ bytes.length)
    (hrest : rest = bytes.drop n) : Located ample lo bytes (pure (some (v, n))) (some (v, rest)) :=
  ⟨rfl, hlo, hn, hrest⟩

variable {x : ByteRead (Option (α × Nat))} {y : Option (α × List UInt8)}

theorem located_cases (h : Located ample lo bytes x y) :
    x = .error .exhausted ∧ (ample → y = none) ∨ x = .ok none ∧ y = none ∨
      ∃ v n, x = .ok (some (v, n)) ∧ y = some (v, bytes.drop n) ∧ lo ≤ n ∧ n ≤ bytes.length := by
  cases x with
  | error e =>
    cases e with
    | outOfBounds => cases h
    | exhausted => exact .inl ⟨rfl, h⟩
  | ok o =>
    cases o with
    | none =>
      cases y with
      | none => exact .inr (.inl ⟨rfl, rfl⟩)
      | some q => cases h
    | some p =>
      cases y with
      | none => cases h
      | some q =>
        cases p with
        | mk v n =>
          cases q with
          | mk w rest =>
            obtain ⟨hv, hlo, hn, hrest⟩ : v = w ∧ lo ≤ n ∧ n ≤ bytes.length ∧ rest = bytes.drop n := h
            rw [hv, hrest]
            exact .inr (.inr ⟨w, n, rfl, rfl, hlo, hn⟩)

theorem located_mono {ample' : Prop} (hample : ample' → ample)
    (h : Located ample lo bytes x y) : Located ample' lo bytes x y := by
  rcases located_cases h with ⟨hx, hy⟩ | ⟨hx, hy⟩ | ⟨v, n, hx, hy, hlo, hn⟩
  · rw [hx]
    exact fun hample' => hy (hample hample')
  · rw [hx, hy]
    exact located_none
  · rw [hx, hy]
    exact located_some hlo hn rfl

end

variable {ample : Prop} (tag : UInt8) (rest : List UInt8)

theorem located_decodeFixed (w : Nat) (f : List UInt8 → Option Value) :
    Located ample 1 (tag :: rest) (decodeFixed (tag :: rest) (w + 1) f)
      (if rest.length < w then none else (f (rest.take w)).map fun v => (v, rest.drop w)) := by
  unfold decodeFixed
  rw [length_cons]
  by_cases h : rest.length < w
  · rw [if_pos h, if_pos (succ_lt_succ h)]
    exact located_none
  · have hslice : slice (tag :: rest) 1 (w + 1) = .ok (rest.take w) :=
      slice_cons (Nat.zero_le w) (Nat.le_of_not_lt h)
    rw [if_neg h, if_neg (by omega), hslice]
    show Located ample 1 (tag :: rest) (pure ((f (rest.take w)).map fun v => (v, w + 1))) _
    cases f (rest.take w) with
    | none => exact located_none
    | some v => exact located_some (by omega) (by rw [length_cons]; omega) rfl

theorem located_decodeFixed_le (w : Nat) (g : Nat → Value) :
    Located ample 1 (tag :: rest) (decodeFixed (tag :: rest) (w + 1) fun b => some (g (fromLe b)))
      ((takeLe w rest).map fun p => (g p.1, p.2)) := by
  have h : Located ample 1 (tag :: rest) _ _ := located_decodeFixed tag rest w fun b => some (g (fromLe b))
  unfold takeLe
  split_ifs at h ⊢ <;> exact h

theorem located_decodeSized (f : List UInt8 → Option Value) :
    Located ample 1 (tag :: rest) (decodeSized (tag :: rest) f)
      ((takeLe 4 rest).bind fun p => (takeBytes p.1 p.2).bind fun q => (f q.1).map fun v => (v, q.2)) := by
  unfold decodeSized takeLe
  rw [length_cons]
  by_cases h : rest.length < 4
  · rw [if_pos h, if_pos (by omega)]
    exact located_none
  · have hlen : slice (tag :: rest) 1 5 = .ok (rest.take 4) :=
      slice_cons (Nat.zero_le 4) (Nat.le_of_not_lt h)
    rw [if_neg h, if_neg (by omega), hlen]
    show Located ample 1 (tag :: rest) (if rest.length + 1 < 5 + fromLe (rest.take 4) then pure none else _)
      ((takeBytes (fromLe (rest.take 4)) (rest.drop 4)).bind _)
    generalize fromLe (rest.take 4) = len
    have hdrop : (rest.drop 4).length = rest.length - 4 := length_drop
    unfold takeBytes
    by_cases hbytes : rest.length < 4 + len
    · rw [if_pos (by omega), if_pos (by omega)]
      exact located_none
    · have hoffset : 5 + len = 4 + len + 1 := by omega
      have hslice : slice (tag :: rest) 5 (4 + len + 1) = .ok ((rest.drop 4).take (4 + len - 4)) :=
        slice_cons (by omega) (Nat.le_of_not_lt hbytes)
      have hwidth : 4 + len - 4 = len := by omega
      rw [if_neg (by omega), if_neg (by omega), hoffset, hslice, hwidth]
      show Located ample 1 (tag :: rest) (pure ((f ((rest.drop 4).take len)).map fun v => (v, 4 + len + 1)))
        ((f ((rest.drop 4).take len)).map fun v => (v, (rest.drop 4).drop len))
      cases f ((rest.drop 4).take len) with
      | none => exact located_none
      | some v =>
        apply located_some
        · omega
        · rw [length_cons]
          omega
        · rw [drop_drop, drop_succ_cons]

theorem takeLe_of_le {w : Nat} (h : w ≤ bytes.length) :
    takeLe w bytes = some (fromLe (bytes.take w), bytes.drop w) := by
  rw [takeLe, if_neg (not_lt.mpr h)]

theorem takeLe_of_lt {w : Nat} (h : bytes.length < w) : takeLe w bytes = none := by
  rw [takeLe, if_pos h]

theorem takeLe_takeLe (w₁ w₂ : Nat) {α : Type} (f : Nat → Nat → List UInt8 → Option α) :
    ((takeLe w₁ rest).bind fun p => (takeLe w₂ p.2).bind fun q => f p.1 q.1 q.2) =
      if rest.length < w₁ + w₂ then none
      else f (fromLe (rest.take w₁)) (fromLe ((rest.drop w₁).take w₂)) (rest.drop (w₁ + w₂)) := by
  have hdrop : (rest.drop w₁).length = rest.length - w₁ := length_drop
  by_cases h₁ : rest.length < w₁
  · rw [takeLe_of_lt h₁, if_pos (by omega)]
    rfl
  · rw [takeLe_of_le (Nat.le_of_not_lt h₁)]
    show ((takeLe w₂ (rest.drop w₁)).bind fun q => f (fromLe (rest.take w₁)) q.1 q.2) = _
    by_cases h₂ : rest.length < w₁ + w₂
    · rw [takeLe_of_lt (by omega), if_pos h₂]
      rfl
    · rw [takeLe_of_le (by omega), if_neg h₂, ← drop_drop]
      rfl

theorem located_pair (w₁ w₂ : Nat) (c : Nat → Nat → Bool) (g : Nat → Nat → Value) :
    Located ample 1 (tag :: rest)
      (if (tag :: rest).length < w₁ + w₂ + 1 then pure none
        else do
          let a ← slice (tag :: rest) 1 (w₁ + 1)
          let b ← slice (tag :: rest) (w₁ + 1) (w₁ + w₂ + 1)
          pure (if c (fromLe a) (fromLe b) then some (g (fromLe a) (fromLe b), w₁ + w₂ + 1) else none))
      ((takeLe w₁ rest).bind fun p => (takeLe w₂ p.2).bind fun q =>
        if c p.1 q.1 then some (g p.1 q.1, q.2) else none) := by
  rw [takeLe_takeLe rest w₁ w₂ fun a b r => if c a b then some (g a b, r) else none, length_cons]
  by_cases h : rest.length < w₁ + w₂
  · rw [if_pos h, if_pos (by omega)]
    exact located_none
  · have hfirst : slice (tag :: rest) 1 (w₁ + 1) = .ok (rest.take w₁) :=
      slice_cons (zero_le w₁) (by omega)
    have hsecond : slice (tag :: rest) (w₁ + 1) (w₁ + w₂ + 1) = .ok ((rest.drop w₁).take w₂) := by
      rw [slice_cons (Nat.le_add_right w₁ w₂) (Nat.le_of_not_lt h), Nat.add_sub_cancel_left]
    rw [if_neg h, if_neg (by omega), hfirst, ok_bind, hsecond, ok_bind]
    split
    · exact located_some (by omega) (by rw [length_cons]; omega) rfl
    · exact located_none

theorem located_interval :
    Located ample 1 (tag :: rest)
      (if (tag :: rest).length < 17 then pure none
        else do
          let months ← slice (tag :: rest) 1 5
          let days ← slice (tag :: rest) 5 9
          let micros ← slice (tag :: rest) 9 17
          pure (some (Value.interval ⟨(UInt32.ofNat (fromLe months)).toInt32,
            (UInt32.ofNat (fromLe days)).toInt32, (UInt64.ofNat (fromLe micros)).toInt64⟩, 17)))
      ((takeLe 4 rest).bind fun p => (takeLe 4 p.2).bind fun q => (takeLe 8 q.2).bind fun r =>
        some (.interval ⟨(UInt32.ofNat p.1).toInt32, (UInt32.ofNat q.1).toInt32,
          (UInt64.ofNat r.1).toInt64⟩, r.2)) := by
  rw [takeLe_takeLe rest 4 4 fun m d bytes => (takeLe 8 bytes).bind fun r =>
    some (Value.interval ⟨(UInt32.ofNat m).toInt32, (UInt32.ofNat d).toInt32,
      (UInt64.ofNat r.1).toInt64⟩, r.2), length_cons]
  have hdrop : (rest.drop (4 + 4)).length = rest.length - (4 + 4) := length_drop
  by_cases h : rest.length < 16
  · rw [if_pos (by omega)]
    split
    · exact located_none
    · rw [takeLe_of_lt (by omega)]
      exact located_none
  · have hmonths : slice (tag :: rest) 1 5 = .ok (rest.take 4) := slice_cons (zero_le 4) (by omega)
    have hdays : slice (tag :: rest) 5 9 = .ok ((rest.drop 4).take 4) := slice_cons (by omega) (by omega)
    have hmicros : slice (tag :: rest) 9 17 = .ok ((rest.drop 8).take 8) :=
      slice_cons (by omega) (by omega)
    rw [if_neg (by omega), if_neg (by omega), hmonths, ok_bind, hdays, ok_bind, hmicros, ok_bind,
      takeLe_of_le (by omega), drop_drop]
    exact located_some (by omega) (by rw [length_cons]; omega) rfl

theorem bind_pair {α : Type} (o : Option α) (g : α → Value) (bytes : List UInt8) :
    (o.bind fun x => some (g x, bytes)) = (o.map g).map fun v => (v, bytes) := by
  cases o <;> rfl

variable {decodeAt : List UInt8 → ByteRead (Option (Value × Nat))}
  {decode : List UInt8 → Option (Value × List UInt8)} {m : Nat}

theorem located_decodeTimesAt
    (h : ∀ bytes : List UInt8, bytes.length ≤ m → Located ample 1 bytes (decodeAt bytes) (decode bytes))
    (bytes : List UInt8) (n : Nat) {offset : Nat} (hoffset : offset ≤ bytes.length)
    (hm : bytes.length ≤ offset + m) :
    Located ample (offset + n) bytes (decodeTimesAt decodeAt bytes n offset)
      (decodeTimes decode n (bytes.drop offset)) := by
  induction n generalizing offset with
  | zero => exact located_some (le_refl _) hoffset rfl
  | succ n ih =>
    have hfirst := h (bytes.drop offset) (by rw [length_drop]; omega)
    rw [decodeTimesAt, decodeTimes, sliceFrom_of_le hoffset, ok_bind]
    rcases located_cases hfirst with ⟨hx, hy⟩ | ⟨hx, hy⟩ | ⟨v, consumed, hx, hy, hpos, hconsumed⟩
    · rw [hx]
      intro hample
      rw [hy hample]
      rfl
    · rw [hx, hy]
      exact located_none
    · rw [length_drop] at hconsumed
      rw [drop_drop] at hy
      rw [hx, hy, ok_bind]
      show Located ample _ bytes (decodeTimesAt decodeAt bytes n (offset + consumed) >>= _)
        ((decodeTimes decode n (bytes.drop (offset + consumed))).bind _)
      have hnext : offset + consumed ≤ bytes.length := by omega
      rcases located_cases (ih hnext (by omega)) with
        ⟨hxs, hys⟩ | ⟨hxs, hys⟩ | ⟨vals, end', hxs, hys, hlo, hend⟩
      · rw [hxs]
        intro hample
        rw [hys hample]
        rfl
      · rw [hxs, hys]
        exact located_none
      · rw [hxs, hys]
        exact located_some (by omega) hend rfl

theorem decodeTimes_congr {decode' : List UInt8 → Option (Value × List UInt8)}
    (heq : ∀ bytes : List UInt8, bytes.length ≤ m → decode bytes = decode' bytes)
    (hrest : ∀ bytes v rest, decode bytes = some (v, rest) → rest.length ≤ bytes.length)
    (n : Nat) (h : bytes.length ≤ m) :
    decodeTimes decode n bytes = decodeTimes decode' n bytes := by
  induction n generalizing bytes with
  | zero => rfl
  | succ n ih =>
    rw [decodeTimes, decodeTimes, ← heq bytes h]
    cases hread : decode bytes with
    | none => rfl
    | some p =>
      cases p with
      | mk v rest =>
        have hle := hrest bytes v rest hread
        show ((decodeTimes decode n rest).bind fun q => some (v :: q.1, q.2)) =
          (decodeTimes decode' n rest).bind fun q => some (v :: q.1, q.2)
        rw [ih (le_trans hle h)]

section

variable [Memory]

/-- Room for as many values as `n` bytes can hold, and stack for calls that are nested in them. -/
def Ample (level n : Nat) : Prop :=
  (∀ k ≤ n, Memory.room k = true) ∧ ∀ l ≤ level + n, Memory.stack l = true

/-- The values behind a count.  As many as there is no room for are not in these bytes. -/
theorem located_counted (hroom : ample → ∀ k ≤ bytes.length, Memory.room k = true)
    (h : ∀ bytes : List UInt8, bytes.length ≤ m → Located ample 1 bytes (decodeAt bytes) (decode bytes))
    (count : Nat) {offset : Nat} (hoffset : offset ≤ bytes.length) (hm : bytes.length ≤ offset + m) :
    Located ample offset bytes (do withCapacity count; decodeTimesAt decodeAt bytes count offset)
      (decodeTimes decode count (bytes.drop offset)) := by
  have hcases := located_cases (located_decodeTimesAt h bytes count hoffset hm)
  unfold withCapacity
  by_cases hcapacity : Memory.room count = true
  · rw [if_pos hcapacity, ok_bind]
    rcases hcases with ⟨hx, hy⟩ | ⟨hx, hy⟩ | ⟨vals, n, hx, hy, hlo, hn⟩
    · rw [hx]
      exact hy
    · rw [hx, hy]
      exact located_none
    · rw [hx, hy]
      exact located_some (by omega) hn rfl
  · rw [if_neg hcapacity]
    intro hample
    rcases hcases with ⟨-, hy⟩ | ⟨-, hy⟩ | ⟨vals, n, -, -, hlo, hn⟩
    · exact hy hample
    · exact hy
    · exact absurd (hroom hample count (by omega)) hcapacity

theorem located_array (hroom : ample → ∀ k ≤ (tag :: rest).length, Memory.room k = true)
    (h : ∀ bytes : List UInt8, bytes.length ≤ rest.length →
      Located ample 1 bytes (decodeAt bytes) (decode bytes)) :
    Located ample 1 (tag :: rest) (decodeArray decodeAt (tag :: rest))
      ((takeLe 4 rest).bind fun p => (decodeTimes decode p.1 p.2).bind fun q => some (.array q.1, q.2)) := by
  have hlength : (tag :: rest).length = rest.length + 1 := length_cons
  unfold decodeArray
  by_cases hshort : rest.length < 4
  · rw [takeLe_of_lt hshort, if_pos (by omega)]
    exact located_none
  · have hcount : slice (tag :: rest) 1 5 = .ok (rest.take 4) :=
      slice_cons (Nat.zero_le 4) (Nat.le_of_not_lt hshort)
    have hloop : Located ample 5 (tag :: rest) _ _ :=
      located_counted hroom h (fromLe (rest.take 4)) (by omega) (by omega)
    rw [drop_succ_cons] at hloop
    rw [takeLe_of_le (Nat.le_of_not_lt hshort), if_neg (by omega), hcount, ok_bind, Option.bind_some,
      ← bind_assoc]
    dsimp only
    rcases located_cases hloop with ⟨hx, hy⟩ | ⟨hx, hy⟩ | ⟨vals, offset, hx, hy, hlo, hoffset⟩
    · rw [hx]
      intro hample
      rw [hy hample]
      rfl
    · rw [hx, hy]
      exact located_none
    · rw [hx, hy]
      exact located_some (by omega) hoffset rfl

variable [Crates]

theorem located_decodeValueAt (depth level : Nat) (bytes : List UInt8) :
    Located (Ample level bytes.length) 1 bytes (decodeValueAt depth level bytes)
      (decodeValue depth bytes) := by
  induction depth using Nat.strong_induction_on generalizing level bytes with
  | _ depth ih =>
    unfold decodeValueAt
    cases hstack : Memory.stack level with
    | false =>
      intro hample
      rw [hample.2 level (le_add_right _ _)] at hstack
      cases hstack
    | true =>
      rw [if_neg (by decide)]
      cases bytes with
      | nil =>
        unfold decodeValue
        exact located_none
      | cons tag rest =>
        unfold decodeValue
        rw [isEmpty_cons, if_neg Bool.false_ne_true, byteAt_zero, ok_bind]
        generalize hample : Ample level (tag :: rest).length = ample
        split <;> try dsimp only
        · exact located_some (le_refl _) (succ_pos _) rfl
        · exact located_decodeFixed_le 1 rest 1 fun n => .boolean (n != 0)
        · exact located_decodeFixed_le 2 rest 1 fun n => .tinyInt (UInt8.ofNat n).toInt8
        · exact located_decodeFixed_le 3 rest 2 fun n => .smallInt (UInt16.ofNat n).toInt16
        · exact located_decodeFixed_le 4 rest 4 fun n => .integer (UInt32.ofNat n).toInt32
        · exact located_decodeFixed_le 5 rest 8 fun n => .bigInt (UInt64.ofNat n).toInt64
        · exact located_decodeFixed_le 6 rest 4 fun n => .float (UInt32.ofNat n)
        · exact located_decodeFixed_le 7 rest 8 fun n => .double (UInt64.ofNat n)
        · exact located_decodeFixed_le 8 rest 16 fun n => .decimal ⟨BitVec.ofNat 128 n⟩
        · have h : Located ample 1 _ _ _ :=
            located_decodeSized 9 rest fun b => (fromUtf8 b).map Value.string
          simp only [← bind_pair] at h
          exact h
        · exact located_decodeSized 10 rest fun b => some (.bytes b)
        · have h : Located ample 1 _ _ _ := located_decodeFixed 11 rest 4 fun b =>
            (NaiveDate.fromNumDaysFromCeOpt (UInt32.ofNat (fromLe b)).toInt32).map Value.date
          unfold takeLe
          rw [← bind_pair] at h
          split_ifs at h ⊢ <;> exact h
        · exact located_pair 12 rest 4 4
            (fun secs nanos => Crates.validTime ⟨UInt32.ofNat secs, UInt32.ofNat nanos⟩)
            fun secs nanos => .time ⟨UInt32.ofNat secs, UInt32.ofNat nanos⟩
        · exact located_pair 13 rest 8 4
            (fun secs nanos => Crates.validTimestamp ⟨(UInt64.ofNat secs).toInt64, UInt32.ofNat nanos⟩)
            fun secs nanos => .timestamp ⟨(UInt64.ofNat secs).toInt64, UInt32.ofNat nanos⟩
        · have h : Located ample 1 _ _ _ :=
            located_decodeFixed 14 rest 16 fun b => some (Value.uuid ⟨BitVec.ofNat 128 (fromBe b)⟩)
          unfold takeBe
          split_ifs at h ⊢ <;> exact h
        · have h : Located ample 1 _ _ _ :=
            located_decodeSized 15 rest fun b => (Crates.jsonFromSlice b).map Value.json
          simp only [← bind_pair] at h
          exact h
        · cases depth with
          | zero => exact located_none
          | succ depth =>
            rw [← hample]
            apply located_array 16 rest And.left
            intro bytes hbytes
            have hlength : (16 :: rest).length = rest.length + 1 := length_cons
            -- the nested call is one deeper and has fewer bytes
            apply located_mono _ (ih depth (lt_succ_self depth) (level + 1) bytes)
            intro hample
            exact ⟨fun k hk => hample.1 k (by omega), fun l hl => hample.2 l (by omega)⟩
        · exact located_interval 17 rest
        · simp_all [located_none]

end

/-! ## The depth that is enough -/

section

variable [Crates]

theorem length_of_decodeValue {depth : Nat} {bytes rest : List UInt8} {v : Value}
    (h : decodeValue depth bytes = some (v, rest)) : rest.length ≤ bytes.length := by
  have hlocated := @located_decodeValueAt unlimited _ depth 0 bytes
  rcases located_cases hlocated with ⟨-, hy⟩ | ⟨-, hy⟩ | ⟨w, n, -, hy, -⟩
  · rw [hy ⟨fun _ _ => rfl, fun _ _ => rfl⟩] at h
    cases h
  · rw [hy] at h
    cases h
  · rw [hy] at h
    cases h
    rw [length_drop]
    exact sub_le _ _

theorem decodeValue_of_length_le {d d' : Nat} (hd : bytes.length ≤ d)
    (hd' : bytes.length ≤ d') : decodeValue d bytes = decodeValue d' bytes := by
  induction d using Nat.strong_induction_on generalizing bytes d' with
  | _ d ih =>
    cases bytes with
    | nil =>
      unfold decodeValue
      rfl
    | cons tag rest =>
      rw [length_cons] at hd hd'
      have hone : 0 < d := by omega
      have hone' : 0 < d' := by omega
      obtain ⟨e, rfl⟩ : ∃ e, d = e + 1 := ⟨d - 1, by omega⟩
      obtain ⟨e', rfl⟩ : ∃ e', d' = e' + 1 := ⟨d' - 1, by omega⟩
      have harray : ∀ n, decodeTimes (decodeValue e) n (rest.drop 4) =
          decodeTimes (decodeValue e') n (rest.drop 4) := by
        intro n
        apply decodeTimes_congr (m := rest.length)
        · intro bytes hbytes
          exact ih e (lt_succ_self e) (by omega) (by omega)
        · intro bytes v rest h
          exact length_of_decodeValue h
        · rw [length_drop]
          exact sub_le _ _
      unfold decodeValue
      split <;> dsimp only
      · unfold takeLe
        split
        · rfl
        · simp only [Option.bind_eq_bind, Option.bind_some, harray]

variable [Memory]

theorem rowFromBytesAt_cons {rest : List UInt8} (h : 4 ≤ rest.length) :
    rowFromBytesAt (0xAA :: rest) = rowResult <$> (do
      withCapacity (fromLe (rest.take 4))
      decodeTimesAt (decodeValueAt (0xAA :: rest).length 0) (0xAA :: rest) (fromLe (rest.take 4)) 5) := by
  have hcount : slice (0xAA :: rest) 1 5 = .ok (rest.take 4) := slice_cons (zero_le 4) h
  have hheader : ¬ ((0xAA : UInt8) ≠ 0xAA ∨ (0xAA :: rest).length < 5) := by
    rw [length_cons, not_or]
    exact ⟨not_not_intro rfl, by omega⟩
  rw [rowFromBytesAt, isEmpty_cons, if_neg Bool.false_ne_true, byteAt_zero, ok_bind, if_neg hheader,
    hcount, ok_bind, map_bind]
  rfl

theorem located_row {rest : List UInt8} (h : 4 ≤ rest.length) (count : Nat) {depth : Nat}
    (hdepth : (rest.drop 4).length ≤ depth) :
    Located (Ample 0 (0xAA :: rest).length) 5 (0xAA :: rest)
      (do
        withCapacity count
        decodeTimesAt (decodeValueAt (0xAA :: rest).length 0) (0xAA :: rest) count 5)
      (decodeTimes (decodeValue depth) count (rest.drop 4)) := by
  have hlength : (0xAA :: rest).length = rest.length + 1 := length_cons
  have hdrop : (rest.drop 4).length = rest.length - 4 := length_drop
  have hcongr : decodeTimes (decodeValue (0xAA :: rest).length) count (rest.drop 4) =
      decodeTimes (decodeValue depth) count (rest.drop 4) := by
    apply decodeTimes_congr (m := (rest.drop 4).length)
    · intro bytes hbytes
      exact decodeValue_of_length_le (by omega) (le_trans hbytes hdepth)
    · intro bytes v rest h
      exact length_of_decodeValue h
    · exact le_refl _
  rw [← hcongr]
  apply located_counted (m := rest.length) And.left _ count (by omega) (by omega)
  intro bytes hbytes
  apply located_mono _ (located_decodeValueAt (0xAA :: rest).length 0 bytes)
  intro hample
  exact ⟨fun k hk => hample.1 k (by omega), fun l hl => hample.2 l (by omega)⟩

theorem rowFromBytesAt_eq (bytes : List UInt8) :
    rowFromBytesAt bytes = .error .exhausted ∨
      ∃ r, rowFromBytesAt bytes = .ok r ∧ r.map Prod.fst = Row.fromBytes bytes := by
  cases bytes with
  | nil => exact .inr ⟨_, rfl, rfl⟩
  | cons magic rest =>
    by_cases hmagic : magic = 0xAA
    · by_cases h : 4 ≤ rest.length
      · rw [hmagic, rowFromBytesAt_cons h]
        simp only [Row.fromBytes]
        rw [if_neg (by decide), takeLe_of_le h]
        dsimp only
        rcases located_cases (located_row h (fromLe (rest.take 4)) (le_refl _)) with
          ⟨hx, -⟩ | ⟨hx, hy⟩ | ⟨vals, n, hx, hy, -⟩
        · rw [hx]
          exact .inl rfl
        · rw [hx, hy]
          exact .inr ⟨_, rfl, rfl⟩
        · rw [hx, hy]
          exact .inr ⟨_, rfl, rfl⟩
      · have hshort : magic ≠ 0xAA ∨ (magic :: rest).length < 5 := by
          rw [length_cons]
          omega
        have hread : takeLe 4 rest = none := takeLe_of_lt (Nat.lt_of_not_le h)
        rw [rowFromBytesAt, isEmpty_cons, if_neg Bool.false_ne_true, byteAt_zero, ok_bind,
          if_pos hshort]
        simp only [Row.fromBytes]
        rw [if_neg (not_not_intro hmagic), hread]
        exact .inr ⟨_, rfl, rfl⟩
    · rw [rowFromBytesAt, isEmpty_cons, if_neg Bool.false_ne_true, byteAt_zero, ok_bind,
        if_pos (.inl hmagic)]
      simp only [Row.fromBytes]
      rw [if_pos hmagic]
      exact .inr ⟨_, rfl, rfl⟩

theorem rowFromBytesAt_of_storable {row : Row} (h : row.Storable) (hample : Ample 0 row.toBytes.length) :
    rowFromBytesAt row.toBytes = .ok (.ok (row, row.toBytes.length)) := by
  have hfour : 4 ≤ (leBytes 4 row.length ++ encodeValues row).length := by
    rw [length_append, length_leBytes]
    omega
  have hcount : fromLe ((leBytes 4 row.length ++ encodeValues row).take 4) = row.length := by
    rw [take_left' (length_leBytes 4 row.length), fromLe_leBytes_of_lt h.1]
  have hdrop : (leBytes 4 row.length ++ encodeValues row).drop 4 = encodeValues row :=
    drop_left' (length_leBytes 4 row.length)
  have hread := decodeTimes_encodeValues h.2 (depthAll_le_length row) []
  rw [append_nil] at hread
  unfold Row.toBytes at hample ⊢
  rw [rowFromBytesAt_cons hfour, hcount]
  have hdepth : ((leBytes 4 row.length ++ encodeValues row).drop 4).length ≤ (encodeValues row).length :=
    le_of_eq (congrArg List.length hdrop)
  rcases located_cases (located_row hfour row.length hdepth) with
    ⟨-, hy⟩ | ⟨-, hy⟩ | ⟨vals, n, hx, hy, -, hn⟩
  · have hnone := hy hample
    rw [hdrop, hread] at hnone
    cases hnone
  · rw [hdrop, hread] at hy
    cases hy
  · rw [hdrop, hread] at hy
    obtain ⟨hvals, hrest⟩ := Prod.mk.inj (Option.some.inj hy)
    -- nothing is left, so the offset is the end
    have hend : n = (0xAA :: (leBytes 4 row.length ++ encodeValues row)).length := by
      have hlength := congrArg List.length hrest
      rw [length_drop, length_nil] at hlength
      omega
    rw [hx, ← hvals, hend]
    rfl

/-- A count is believed before a value is read. -/
theorem rowFromBytesAt_noRoom (h : Memory.room (2 ^ 32 - 1) = false) :
    rowFromBytesAt [0xAA, 0xFF, 0xFF, 0xFF, 0xFF] = .error .exhausted := by
  have hcons := @rowFromBytesAt_cons _ _ [0xFF, 0xFF, 0xFF, 0xFF] (le_refl 4)
  have hcount : fromLe (List.take 4 [0xFF, 0xFF, 0xFF, 0xFF]) = 2 ^ 32 - 1 := by decide
  rw [hcons, hcount, withCapacity, h]
  rfl

end

section

variable [Crates]

attribute [local instance] unlimited

theorem storableAll_nulls (n : Nat) : Value.StorableAll (List.replicate n .null) := by
  induction n with
  | zero => trivial
  | succ n ih => exact ⟨trivial, ih⟩

theorem rowFromBytesAt_of_mod {row : Row} (h : row.length % 2 ^ 32 = 0) :
    rowFromBytesAt row.toBytes = .ok (.ok ([], 5)) := by
  have hfour : 4 ≤ (leBytes 4 row.length ++ encodeValues row).length := by
    rw [length_append, length_leBytes]
    omega
  have hcount : fromLe ((leBytes 4 row.length ++ encodeValues row).take 4) = 0 := by
    rw [take_left' (length_leBytes 4 row.length), fromLe_leBytes]
    exact h
  unfold Row.toBytes
  rw [rowFromBytesAt_cons hfour, hcount]
  rfl

end

section

attribute [local instance] unlimited plainCrates

end

end H2Database.Sql
