import H2Database.Sql.Encoding

/-!
# Rows as bytes (`h2-sql/src/row.rs`)

A row is stored as a magic byte, the number of its values and the values, each behind a tag.  Lengths
and the number of values have four bytes.
-/

namespace H2Database.Sql

open Reasoning

abbrev Row := List Value

/-- An unsigned little-endian integer of `w` bytes at the front. -/
def takeLe (w : Nat) (bytes : List UInt8) : Option (Nat × List UInt8) :=
  if bytes.length < w then none else some (fromLe (bytes.take w), bytes.drop w)

def takeBytes (n : Nat) (bytes : List UInt8) : Option (List UInt8 × List UInt8) :=
  if bytes.length < n then none else some (bytes.take n, bytes.drop n)

def lengthAndBytes (b : List UInt8) : List UInt8 := leBytes 4 b.length ++ b

mutual

def encodeValue : Value → List UInt8
  | .null => [0]
  | .boolean b => [1, if b then 1 else 0]
  | .tinyInt i => [2, i.toUInt8]
  | .smallInt i => 3 :: leBytes 2 i.toUInt16.toNat
  | .integer i => 4 :: leBytes 4 i.toUInt32.toNat
  | .bigInt i => 5 :: leBytes 8 i.toUInt64.toNat
  | .float u => 6 :: leBytes 4 u.toNat
  | .double u => 7 :: leBytes 8 u.toNat
  | .decimal d => 8 :: leBytes 16 d.image.toNat
  | .string s => 9 :: lengthAndBytes (utf8 s)
  | .bytes b => 10 :: lengthAndBytes b
  | .date d => 11 :: leBytes 4 d.numDays.toUInt32.toNat
  | .time t => 12 :: (leBytes 4 t.secs.toNat ++ leBytes 4 t.nanos.toNat)
  | .timestamp ts => 13 :: (leBytes 8 ts.secs.toUInt64.toNat ++ leBytes 4 ts.nanos.toNat)
  | .uuid u => 14 :: beBytes 16 u.bits.toNat
  | .json j => 15 :: lengthAndBytes j.text
  | .array arr => 16 :: (leBytes 4 arr.length ++ encodeValues arr)
  | .interval iv =>
    17 :: (leBytes 4 iv.months.toUInt32.toNat ++ leBytes 4 iv.days.toUInt32.toNat ++
      leBytes 8 iv.microseconds.toUInt64.toNat)

def encodeValues : List Value → List UInt8
  | [] => []
  | v :: vals => encodeValue v ++ encodeValues vals

end

def decodeTimes (decode : List UInt8 → Option (Value × List UInt8)) :
    Nat → List UInt8 → Option (List Value × List UInt8)
  | 0, bytes => some ([], bytes)
  | n + 1, bytes => do
    let (v, bytes) ← decode bytes
    let (vals, bytes) ← decodeTimes decode n bytes
    some (v :: vals, bytes)

def Row.toBytes (row : Row) : List UInt8 := 0xAA :: (leBytes 4 row.length ++ encodeValues row)

variable [Crates]

/-- The value at the front; `depth` bounds how deep arrays are nested. -/
def decodeValue (depth : Nat) : List UInt8 → Option (Value × List UInt8)
  | [] => none
  | tag :: rest =>
    match tag with
    | 0 => some (.null, rest)
    | 1 => (takeLe 1 rest).map fun p => (.boolean (p.1 != 0), p.2)
    | 2 => (takeLe 1 rest).map fun p => (.tinyInt (UInt8.ofNat p.1).toInt8, p.2)
    | 3 => (takeLe 2 rest).map fun p => (.smallInt (UInt16.ofNat p.1).toInt16, p.2)
    | 4 => (takeLe 4 rest).map fun p => (.integer (UInt32.ofNat p.1).toInt32, p.2)
    | 5 => (takeLe 8 rest).map fun p => (.bigInt (UInt64.ofNat p.1).toInt64, p.2)
    | 6 => (takeLe 4 rest).map fun p => (.float (UInt32.ofNat p.1), p.2)
    | 7 => (takeLe 8 rest).map fun p => (.double (UInt64.ofNat p.1), p.2)
    | 8 => (takeLe 16 rest).map fun p => (.decimal ⟨BitVec.ofNat 128 p.1⟩, p.2)
    | 9 => do
      let (len, rest) ← takeLe 4 rest
      let (b, rest) ← takeBytes len rest
      let s ← fromUtf8 b
      some (.string s, rest)
    | 10 => do
      let (len, rest) ← takeLe 4 rest
      let (b, rest) ← takeBytes len rest
      some (.bytes b, rest)
    | 11 => do
      let (days, rest) ← takeLe 4 rest
      let d ← NaiveDate.fromNumDaysFromCeOpt (UInt32.ofNat days).toInt32
      some (.date d, rest)
    | 12 => do
      let (secs, rest) ← takeLe 4 rest
      let (nanos, rest) ← takeLe 4 rest
      let t : NaiveTime := ⟨UInt32.ofNat secs, UInt32.ofNat nanos⟩
      if Crates.validTime t then some (.time t, rest) else none
    | 13 => do
      let (secs, rest) ← takeLe 8 rest
      let (nanos, rest) ← takeLe 4 rest
      let ts : Timestamp := ⟨(UInt64.ofNat secs).toInt64, UInt32.ofNat nanos⟩
      if Crates.validTimestamp ts then some (.timestamp ts, rest) else none
    | 14 => (takeBe 16 rest).map fun p => (.uuid ⟨BitVec.ofNat 128 p.1⟩, p.2)
    | 15 => do
      let (len, rest) ← takeLe 4 rest
      let (b, rest) ← takeBytes len rest
      let j ← Crates.jsonFromSlice b
      some (.json j, rest)
    | 16 =>
      match depth with
      | 0 => none
      | depth + 1 => do
        let (count, rest) ← takeLe 4 rest
        let (arr, rest) ← decodeTimes (decodeValue depth) count rest
        some (.array arr, rest)
    | 17 => do
      let (months, rest) ← takeLe 4 rest
      let (days, rest) ← takeLe 4 rest
      let (micros, rest) ← takeLe 8 rest
      some (.interval ⟨(UInt32.ofNat months).toInt32, (UInt32.ofNat days).toInt32,
        (UInt64.ofNat micros).toInt64⟩, rest)
    | _ => none

def Row.fromBytes (bytes : List UInt8) : H2Result Row :=
  match bytes with
  | [] => .error (.serialization "Empty row bytes")
  | magic :: rest =>
    if magic ≠ 0xAA then .error (.serialization "Invalid binary row format: missing magic byte")
    else match takeLe 4 rest with
      | none => .error (.serialization "Invalid binary row format: missing magic byte")
      | some (count, rest) =>
        match decodeTimes (decodeValue rest.length) count rest with
        | none => .error (.serialization "Corrupted binary row value")
        | some (row, _) => .ok row

end H2Database.Sql
