import H2Database.Types.Error
import H2Database.Reasoning.Coder

/-!
# The codecs under the file formats

`bincode` is a third-party crate: a `Bincode α` is the pair of its functions for one type, and what
the store relies on is `Bincode.RoundTrips`.  `crc32` is the CRC-32 of `crc32fast` (polynomial
`0xEDB88320` reflected, start value and final xor all ones).
-/

namespace H2Database.Mvstore

/-- `bincode::serialize` and `bincode::deserialize` at one type; an error is the crate's text. -/
structure Bincode (α : Type) where
  serialize : α → Except String (List UInt8)
  deserialize : List UInt8 → Except String α

/-- The value `a` is encoded as `bytes` and read back from them. -/
def Bincode.RoundTrips {α : Type} (bc : Bincode α) (a : α) (bytes : List UInt8) : Prop :=
  bc.serialize a = .ok bytes ∧ bc.deserialize bytes = .ok a

/-- The crate's functions at a type whose layout is known: `deserialize` takes the value from the
front and lets trailing bytes be. -/
def Bincode.ofCoder {α : Type} (c : Reasoning.Coder α) : Bincode α where
  serialize a := .ok (c.encode a)
  deserialize bytes :=
    match c.decode bytes with
    | some (a, _) => .ok a
    | none => .error "io error: unexpected end of file"

theorem Bincode.ofCoder_roundTrips {α : Type} {c : Reasoning.Coder α} {a : α} (h : c.Reads a) :
    (Bincode.ofCoder c).RoundTrips a (c.encode a) := by
  refine ⟨rfl, ?_⟩
  have hd : c.decode (c.encode a) = some (a, []) := by simpa using h []
  simp only [Bincode.ofCoder, hd]

def crcBit (c : UInt32) : UInt32 :=
  if c &&& 1 = 1 then (c >>> 1) ^^^ 0xEDB88320 else c >>> 1

def crcByte (c : UInt32) (b : UInt8) : UInt32 :=
  crcBit (crcBit (crcBit (crcBit (crcBit (crcBit (crcBit (crcBit (c ^^^ b.toUInt32))))))))

/-- `Hasher::new(); update(bytes); finalize()`. -/
def crc32 (bytes : List UInt8) : Nat :=
  (bytes.foldl crcByte 0xFFFFFFFF ^^^ 0xFFFFFFFF).toNat

theorem crc32_lt (bytes : List UInt8) : crc32 bytes < 256 ^ 4 :=
  UInt32.toNat_lt _

-- The check value of the CRC-32 standard: the digits "123456789".
example : crc32 [49, 50, 51, 52, 53, 54, 55, 56, 57] = 0xCBF43926 := by decide +kernel

end H2Database.Mvstore
