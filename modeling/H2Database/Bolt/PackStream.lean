import H2Database.Sql.RowBytes

/-!
# PackStream (`h2-bolt/src/packstream.rs`)

The values of the Bolt protocol, as bytes and back.  In `decode` every index and every slice is an
access that fails outside the buffer, and what is reserved for a count has to have room.
-/

namespace H2Database.Bolt

open Reasoning Sql Nat

/-- A value.  A float is its 64 bits, and a map has its entries in the order in which it is iterated. -/
inductive PackValue where
  | null
  | boolean (b : Bool)
  | integer (i : Int64)
  | float (f : UInt64)
  | string (s : String)
  | bytes (b : List UInt8)
  | list (items : List PackValue)
  | map (entries : List (String × PackValue))
  | struct (tag : UInt8) (fields : List PackValue)

namespace PackValue

/-! ## Serializer -/

def encodeInteger (i : Int64) : List UInt8 :=
  if -16 ≤ i.toInt ∧ i.toInt ≤ 127 then [i.toInt8.toUInt8]
  else if -128 ≤ i.toInt ∧ i.toInt ≤ 127 then [0xC8, i.toInt8.toUInt8]
  else if -32768 ≤ i.toInt ∧ i.toInt ≤ 32767 then 0xC9 :: beBytes 2 i.toInt16.toUInt16.toNat
  else if -2147483648 ≤ i.toInt ∧ i.toInt ≤ 2147483647 then 0xCA :: beBytes 4 i.toInt32.toUInt32.toNat
  else 0xCB :: beBytes 8 i.toUInt64.toNat

/-- The marker of `len` bytes, items or entries: in the low bits of `tiny`, or behind the marker of a
size class. -/
def sizeMarker (tiny m8 m16 m32 : UInt8) (len : Nat) : List UInt8 :=
  if len ≤ 15 then [tiny ||| UInt8.ofNat len]
  else if len ≤ 255 then [m8, UInt8.ofNat len]
  else if len ≤ 65535 then m16 :: beBytes 2 len
  else m32 :: beBytes 4 len

def encodeString (s : String) : List UInt8 := sizeMarker 0x80 0xD0 0xD1 0xD2 (utf8 s).length ++ utf8 s

def encodeBytes (b : List UInt8) : List UInt8 :=
  if b.length ≤ 255 then 0xCC :: UInt8.ofNat b.length :: b
  else if b.length ≤ 65535 then 0xCD :: beBytes 2 b.length ++ b
  else 0xCE :: beBytes 4 b.length ++ b

def structMarker (len : Nat) : List UInt8 :=
  if len ≤ 15 then [0xB0 ||| UInt8.ofNat len]
  else if len ≤ 255 then [0xDC, UInt8.ofNat len]
  else 0xDD :: beBytes 2 len

mutual

/-- `encode`: the bytes that it appends to the buffer. -/
def encode : PackValue → List UInt8
  | .null => [0xC0]
  | .boolean false => [0xC2]
  | .boolean true => [0xC3]
  | .integer i => encodeInteger i
  | .float f => 0xC1 :: beBytes 8 f.toNat
  | .string s => encodeString s
  | .bytes b => encodeBytes b
  | .list items => sizeMarker 0x90 0xD4 0xD5 0xD6 items.length ++ encodeItems items
  | .map entries => sizeMarker 0xA0 0xD8 0xD9 0xDA entries.length ++ encodeEntries entries
  | .struct tag fields => structMarker fields.length ++ tag :: encodeItems fields

def encodeItems : List PackValue → List UInt8
  | [] => []
  | item :: items => encode item ++ encodeItems items

def encodeEntries : List (String × PackValue) → List UInt8
  | [] => []
  | (key, v) :: entries => encodeString key ++ (encode v ++ encodeEntries entries)

end

/-! ## Deserializer -/

/-- What reads a buffer: it panics outside the buffer, or it answers an error or a result. -/
abbrev PackRead := ExceptT H2Error ByteRead

/-- `&buf[a..]`, and how many bytes it has. -/
def restFrom (buf : List UInt8) (a : Nat) : ByteRead {rest : List UInt8 // rest.length + a = buf.length} :=
  if h : a ≤ buf.length then .ok ⟨buf.drop a, by rw [List.length_drop]; omega⟩ else .error .outOfBounds

/-- The big-endian number of `w` bytes behind the marker. -/
def numberAt (buf : List UInt8) (w : Nat) (truncated : String) : PackRead Nat :=
  if buf.length < w + 1 then throw (.execution truncated)
  else do
    let bytes ← slice buf 1 (w + 1)
    pure (fromBe bytes)

def beginsChar (bytes : List UInt8) : Bool :=
  [1, 2, 3].any fun n =>
    (fromUtf8 (bytes ++ List.replicate n 0x80)).isSome || (fromUtf8 (bytes ++ List.replicate n 0xBF)).isSome

/-- The text of a `FromUtf8Error`: where the valid part ends, and the length of what is wrong there. -/
def utf8ErrorText (bytes : List UInt8) : String :=
  let validUpTo := ((List.range bytes.length).reverse.find? fun n => (fromUtf8 (bytes.take n)).isSome).getD 0
  let rest := bytes.drop validUpTo
  if beginsChar rest then s!"incomplete utf-8 byte sequence from index {validUpTo}"
  else
    let errorLen := ([3, 2].find? fun n => beginsChar (rest.take n)).getD 1
    s!"invalid utf-8 sequence of {errorLen} bytes from index {validUpTo}"

def decodeStringContent (buf : List UInt8) (len headerLen : Nat) : PackRead (PackValue × Nat) :=
  if buf.length < len then throw (.execution "Truncated string data")
  else do
    let bytes ← slice buf 0 len
    match fromUtf8 bytes with
    | none => throw (.execution s!"Invalid UTF-8 string: {utf8ErrorText bytes}")
    | some s => pure (.string s, headerLen + len)

/-- `HashMap::insert`: a key that is there keeps its place. -/
def insertEntry (entries : List (String × PackValue)) (key : String) (v : PackValue) :
    List (String × PackValue) :=
  if entries.any fun entry => entry.1 == key then
    entries.map fun entry => if entry.1 == key then (key, v) else entry
  else entries ++ [(key, v)]

def mapKey : PackValue → PackRead String
  | .string s => pure s
  | _ => throw (.execution "Map key must be String")

/-- `{marker:#x}`. -/
def hexText (marker : Nat) : String := "0x" ++ String.ofList (Nat.toDigits 16 marker)

section

variable [Memory]

/-- A call that is nested `level` deep. -/
def enterCall (level : Nat) : ByteRead Unit := if Memory.stack level then .ok () else .error .exhausted

mutual

/-- `decode`, in a call that is nested `level` deep: the value at the front and the bytes that it takes. -/
def decode (level : Nat) (buf : List UInt8) : PackRead (PackValue × Nat) := do
  enterCall level
  if buf.isEmpty then throw (.execution "Empty buffer in PackStream decode")
  else do
    let marker := (← byteAt buf 0).toNat
    if marker = 0xC0 then pure (.null, 1)
    else if marker = 0xC2 then pure (.boolean false, 1)
    else if marker = 0xC3 then pure (.boolean true, 1)
    else if marker = 0xC1 then do
      let n ← numberAt buf 8 "Truncated float"
      pure (.float (UInt64.ofNat n), 9)
    else if marker ≤ 0x7F then pure (.integer (Int64.ofNat marker), 1)
    else if 0xF0 ≤ marker then pure (.integer (UInt8.ofNat marker).toInt8.toInt64, 1)
    else if marker = 0xC8 then do
      let n ← numberAt buf 1 "Truncated Int8"
      pure (.integer (UInt8.ofNat n).toInt8.toInt64, 2)
    else if marker = 0xC9 then do
      let n ← numberAt buf 2 "Truncated Int16"
      pure (.integer (UInt16.ofNat n).toInt16.toInt64, 3)
    else if marker = 0xCA then do
      let n ← numberAt buf 4 "Truncated Int32"
      pure (.integer (UInt32.ofNat n).toInt32.toInt64, 5)
    else if marker = 0xCB then do
      let n ← numberAt buf 8 "Truncated Int64"
      pure (.integer (UInt64.ofNat n).toInt64, 9)
    else if 0x80 ≤ marker ∧ marker ≤ 0x8F then do
      let rest ← restFrom buf 1
      decodeStringContent rest.1 (marker &&& 0x0F) 1
    else if marker = 0xD0 then do
      let len ← numberAt buf 1 "Truncated String8"
      let rest ← restFrom buf 2
      decodeStringContent rest.1 len 2
    else if marker = 0xD1 then do
      let len ← numberAt buf 2 "Truncated String16"
      let rest ← restFrom buf 3
      decodeStringContent rest.1 len 3
    else if marker = 0xD2 then do
      let len ← numberAt buf 4 "Truncated String32"
      let rest ← restFrom buf 5
      decodeStringContent rest.1 len 5
    else if 0x90 ≤ marker ∧ marker ≤ 0x9F then do
      let rest ← restFrom buf 1
      decodeListContent level rest.1 (marker &&& 0x0F) 1
    else if marker = 0xD4 then do
      let count ← numberAt buf 1 "Truncated List8"
      let rest ← restFrom buf 2
      decodeListContent level rest.1 count 2
    else if marker = 0xD5 then do
      let count ← numberAt buf 2 "Truncated List16"
      let rest ← restFrom buf 3
      decodeListContent level rest.1 count 3
    else if marker = 0xD6 then do
      let count ← numberAt buf 4 "Truncated List32"
      let rest ← restFrom buf 5
      decodeListContent level rest.1 count 5
    else if 0xA0 ≤ marker ∧ marker ≤ 0xAF then do
      let rest ← restFrom buf 1
      decodeMapContent level rest.1 (marker &&& 0x0F) 1
    else if marker = 0xD8 then do
      let count ← numberAt buf 1 "Truncated Map8"
      let rest ← restFrom buf 2
      decodeMapContent level rest.1 count 2
    else if marker = 0xD9 then do
      let count ← numberAt buf 2 "Truncated Map16"
      let rest ← restFrom buf 3
      decodeMapContent level rest.1 count 3
    else if marker = 0xDA then do
      let count ← numberAt buf 4 "Truncated Map32"
      let rest ← restFrom buf 5
      decodeMapContent level rest.1 count 5
    else if 0xB0 ≤ marker ∧ marker ≤ 0xBF then do
      let rest ← restFrom buf 1
      decodeStructContent level rest.1 (marker &&& 0x0F) 1
    else if marker = 0xDC then do
      let count ← numberAt buf 1 "Truncated Struct8"
      let rest ← restFrom buf 2
      decodeStructContent level rest.1 count 2
    else if marker = 0xDD then do
      let count ← numberAt buf 2 "Truncated Struct16"
      let rest ← restFrom buf 3
      decodeStructContent level rest.1 count 3
    else throw (.execution s!"Unknown PackStream marker: {hexText marker}")
  termination_by (buf.length, 0)
  decreasing_by
    all_goals
      apply Prod.Lex.left
      have := rest.2
      omega

def decodeListContent (level : Nat) (buf : List UInt8) (count headerLen : Nat) :
    PackRead (PackValue × Nat) := do
  withCapacity count
  let (items, offset) ← decodeItems level buf 0 count
  pure (.list items, headerLen + offset)
  termination_by (buf.length, count + 2)

def decodeMapContent (level : Nat) (buf : List UInt8) (count headerLen : Nat) :
    PackRead (PackValue × Nat) := do
  withCapacity count
  let (entries, offset) ← decodeEntries level buf [] 0 count
  pure (.map entries, headerLen + offset)
  termination_by (buf.length, count + 2)

def decodeStructContent (level : Nat) (buf : List UInt8) (count headerLen : Nat) :
    PackRead (PackValue × Nat) :=
  if buf.isEmpty then throw (.execution "Truncated structure tag")
  else do
    let tag ← byteAt buf 0
    withCapacity count
    let (fields, offset) ← decodeItems level buf 1 count
    pure (.struct tag fields, headerLen + offset)
  termination_by (buf.length, count + 2)

/-- The loop over the items of a list or the fields of a structure, and the offset behind them. -/
def decodeItems (level : Nat) (buf : List UInt8) (offset : Nat) : Nat → PackRead (List PackValue × Nat)
  | 0 => pure ([], offset)
  | count + 1 => do
    let rest ← restFrom buf offset
    let (item, consumed) ← decode (level + 1) rest.1
    let (items, offset) ← decodeItems level buf (offset + consumed) count
    pure (item :: items, offset)
  termination_by count => (buf.length, count + 1)
  decreasing_by
    · have := rest.2
      rcases lt_or_eq_of_le (Nat.le.intro this) with h | h
      · exact Prod.Lex.left _ _ h
      · rw [h]
        exact Prod.Lex.right _ (succ_pos _)
    · exact Prod.Lex.right _ (lt_succ_self _)

def decodeEntries (level : Nat) (buf : List UInt8) (entries : List (String × PackValue)) (offset : Nat) :
    Nat → PackRead (List (String × PackValue) × Nat)
  | 0 => pure (entries, offset)
  | count + 1 => do
    let rest ← restFrom buf offset
    let (keyVal, kConsumed) ← decode (level + 1) rest.1
    let key ← mapKey keyVal
    let valRest ← restFrom buf (offset + kConsumed)
    let (val, vConsumed) ← decode (level + 1) valRest.1
    decodeEntries level buf (insertEntry entries key val) (offset + kConsumed + vConsumed) count
  termination_by count => (buf.length, count + 1)
  decreasing_by
    · have := rest.2
      rcases lt_or_eq_of_le (Nat.le.intro this) with h | h
      · exact Prod.Lex.left _ _ h
      · rw [h]
        exact Prod.Lex.right _ (succ_pos _)
    · have := valRest.2
      rcases lt_or_eq_of_le (Nat.le.intro this) with h | h
      · exact Prod.Lex.left _ _ h
      · rw [h]
        exact Prod.Lex.right _ (succ_pos _)
    · exact Prod.Lex.right _ (lt_succ_self _)

end

end

end PackValue

end H2Database.Bolt
