import H2Database.Mvstore.Codec
import H2Database.Reasoning.DiskFile

/-!
# Slotted pages (`h2-mvstore/src/buffer_pool/slotted_page.rs`)

A page is an array of 8192 bytes with a header, an array of slots and the tuples at its end; integers are
big-endian.  An access outside the page, at which the source panics, leaves the page as it is.
-/

namespace H2Database.Mvstore

open Reasoning

def pageSize : Nat := 8192

/-- `[u8; PAGE_SIZE]`. -/
abbrev Page8K := { bs : List UInt8 // bs.length = pageSize }

namespace SlottedPage

def pageHeaderSize : Nat := 32

def slotSize : Nat := 4

def zeroed : Page8K := ⟨List.replicate pageSize 0, List.length_replicate⟩

def copyTo (buf : Page8K) (off : Nat) (bs : List UInt8) : Page8K :=
  if h : off + bs.length ≤ pageSize then
    ⟨writeAt buf.1 off bs, by
      have hoff : off ≤ buf.1.length := by rw [buf.2]; omega
      rw [length_writeAt bs hoff, buf.2]
      omega⟩
  else buf

/-- `BigEndian::write_u16`, `write_u32` and `write_u64`. -/
def writeUInt (buf : Page8K) (off w n : Nat) : Page8K := copyTo buf off (leBytes w n).reverse

def readUInt (buf : Page8K) (off w : Nat) : Nat := fromLe (readAt buf.1 off w).reverse

/-! ## Pages -/

def init (pageId : Nat) (pageType : UInt8) : Page8K :=
  let buf := writeUInt zeroed 0 4 pageId
  let buf := writeUInt buf 4 8 0
  let buf := copyTo buf 12 [pageType]
  let buf := copyTo buf 13 [0]
  let buf := writeUInt buf 14 2 0
  let buf := writeUInt buf 16 2 pageHeaderSize
  let buf := writeUInt buf 18 2 pageSize
  writeUInt buf 20 4 0

def getPageId (buf : Page8K) : Nat := readUInt buf 0 4

def getTupleCount (buf : Page8K) : Nat := readUInt buf 14 2

def getFreeSpaceLower (buf : Page8K) : Nat := readUInt buf 16 2

def getFreeSpaceUpper (buf : Page8K) : Nat := readUInt buf 18 2

def getFreeSpace (buf : Page8K) : Nat :=
  if getFreeSpaceLower buf ≤ getFreeSpaceUpper buf then getFreeSpaceUpper buf - getFreeSpaceLower buf
  else 0

/-- Where the tuple of a slot stands, unless it is deleted or out of bounds. -/
def slot (buf : Page8K) (slotId : Nat) : Option (Nat × Nat) :=
  let slotOffset := pageHeaderSize + slotId * slotSize
  let offset := readUInt buf slotOffset 2
  let len := readUInt buf (slotOffset + 2) 2
  if offset ≠ 0 ∧ len ≠ 0 ∧ offset + len ≤ pageSize then some (offset, len) else none

def insertTuple (buf : Page8K) (data : List UInt8) : Option (Nat × Page8K) :=
  if getFreeSpace buf < data.length + slotSize then none
  else
    let lower := getFreeSpaceLower buf
    let upper := getFreeSpaceUpper buf
    let newUpper := upper - data.length
    let newLower := lower + slotSize
    let buf := copyTo buf newUpper data
    let buf := writeUInt buf lower 2 newUpper
    let buf := writeUInt buf (lower + 2) 2 data.length
    let tupleCount := getTupleCount buf
    let buf := writeUInt buf 14 2 (tupleCount + 1)
    let buf := writeUInt buf 16 2 newLower
    let buf := writeUInt buf 18 2 newUpper
    some (tupleCount, buf)

def getTuple (buf : Page8K) (slotId : Nat) : Option (List UInt8) :=
  if getTupleCount buf ≤ slotId then none
  else (slot buf slotId).map fun p => readAt buf.1 p.1 p.2

def deleteTuple (buf : Page8K) (slotId : Nat) : Bool × Page8K :=
  if getTupleCount buf ≤ slotId then (false, buf)
  else
    let slotOffset := pageHeaderSize + slotId * slotSize
    (true, writeUInt (writeUInt buf slotOffset 2 0) (slotOffset + 2) 2 0)

def liveTupleCount (buf : Page8K) : Nat :=
  ((List.range (getTupleCount buf)).filter fun slotId => (slot buf slotId).isSome).length

def isAllDead (buf : Page8K) : Bool := liveTupleCount buf == 0

def markAsFree (buf : Page8K) : Page8K := init (getPageId buf) 2

def liveTuples (buf : Page8K) : List (Nat × List UInt8) :=
  (List.range (getTupleCount buf)).filterMap fun slotId =>
    (slot buf slotId).map fun p => (slotId, readAt buf.1 p.1 p.2)

def moveTuple (acc : Page8K × Nat) (tuple : Nat × List UInt8) : Page8K × Nat :=
  let currentUpper := acc.2 - tuple.2.length
  let slotOffset := pageHeaderSize + tuple.1 * slotSize
  let buf := copyTo acc.1 currentUpper tuple.2
  let buf := writeUInt buf slotOffset 2 currentUpper
  (writeUInt buf (slotOffset + 2) 2 tuple.2.length, currentUpper)

def defragment (buf : Page8K) : Page8K :=
  let (moved, currentUpper) := (liveTuples buf).foldl moveTuple (buf, pageSize)
  writeUInt moved 18 2 currentUpper

def computeAndWriteChecksum (buf : Page8K) : Page8K :=
  let cleared := writeUInt buf 20 4 0
  writeUInt cleared 20 4 (crc32 cleared.1)

def verifyChecksum (buf : Page8K) : Bool :=
  let storedChecksum := readUInt buf 20 4
  storedChecksum == 0 || crc32 (writeUInt buf 20 4 0).1 == storedChecksum

end SlottedPage

end H2Database.Mvstore
