import H2Database.Mvstore.Chunk
import H2Database.Reasoning.DiskFile
import Mathlib.Data.Finset.Card
import Mathlib.Order.Interval.Finset.Nat

/-!
# The checkpoint file (`h2-mvstore/src/file_store.rs`)

The file starts with a 4096-byte header area with two slots of 28 bytes: the primary at offset 0 and
the shadow at 2048.  A slot names the last checkpoint record; a delta record names the record before
it, so that the records form a chain back to a full chunk.  `publishSteps` is the ordered series of
writes with which a record becomes part of the chain.
-/

namespace H2Database.Mvstore

open Reasoning List

/-! ## Header slots -/

structure Header where
  version : Nat
  lastChunkOffset : Nat
  lastChunkLength : Nat
  deriving DecidableEq, Repr

def headerSize : Nat := 4096
def shadowHeaderOffset : Nat := 2048
def headerRecordSize : Nat := 28

namespace Header

/-- `b"H2RS"`. -/
def magic : List UInt8 := [0x48, 0x32, 0x52, 0x53]

/-- The checksummed fields: `buf[0..24]`. -/
def fields (h : Header) : List UInt8 :=
  magic ++ leBytes 8 h.version ++ leBytes 8 h.lastChunkOffset ++ leBytes 4 h.lastChunkLength

/-- The `HEADER_RECORD_SIZE` bytes of a slot, `buf[..28]`. -/
def record (h : Header) : List UInt8 := h.fields ++ leBytes 4 (crc32 h.fields)

def serialize (h : Header) : List UInt8 :=
  h.record ++ List.replicate (headerSize - headerRecordSize) 0

/-- Only the first 28 bytes of `buf` are read. -/
def deserialize (buf : List UInt8) : H2Result Header :=
  if buf.take 4 ≠ magic then .error (.corrupted "Invalid header magic bytes")
  else if crc32 (buf.take 24) ≠ fromLe ((buf.drop 24).take 4) then
    .error (.corrupted "Header checksum mismatch")
  else .ok {
    version := fromLe ((buf.drop 4).take 8)
    lastChunkOffset := fromLe ((buf.drop 12).take 8)
    lastChunkLength := fromLe ((buf.drop 20).take 4) }

structure InRange (h : Header) : Prop where
  version : h.version < 2 ^ 64
  offset : h.lastChunkOffset < 2 ^ 64
  length : h.lastChunkLength < 2 ^ 32

@[simp] theorem length_fields (h : Header) : h.fields.length = 24 := by
  simp [fields, magic]

@[simp] theorem length_record (h : Header) : h.record.length = 28 := by
  simp [record]

theorem deserialize_record {h : Header} (hr : h.InRange) : deserialize h.record = .ok h := by
  -- the fields at their places: magic 0, version 4, offset 12, length 20, checksum 24
  have hmagic : h.record.take 4 = magic := by
    simp only [record, fields, append_assoc]
    exact take_left' rfl
  have hcrc : fromLe ((h.record.drop 24).take 4) = crc32 h.fields := by
    rw [record, drop_left' (length_fields h), take_of_length_le (by simp)]
    exact fromLe_leBytes_of_lt (crc32_lt _)
  have hfields : h.record.take 24 = h.fields := by
    rw [record, take_left' (length_fields h)]
  have hversion : fromLe ((h.record.drop 4).take 8) = h.version := by
    simp only [record, fields, append_assoc]
    rw [drop_left' (show magic.length = 4 from rfl), take_left' (length_leBytes 8 _)]
    exact fromLe_leBytes_of_lt hr.version
  have hoffset : fromLe ((h.record.drop 12).take 8) = h.lastChunkOffset := by
    simp only [record, fields, append_assoc]
    rw [← append_assoc magic, drop_left' (by simp [magic]),
      take_left' (length_leBytes 8 _)]
    exact fromLe_leBytes_of_lt hr.offset
  have hlength : fromLe ((h.record.drop 20).take 4) = h.lastChunkLength := by
    simp only [record, fields, append_assoc]
    rw [← append_assoc magic, ← append_assoc (magic ++ _),
      drop_left' (by simp [magic]), take_left' (length_leBytes 4 _)]
    exact fromLe_leBytes_of_lt hr.length
  unfold deserialize
  rw [if_neg (by rw [hmagic]; simp), hfields, hcrc, if_neg (by simp), hversion, hoffset, hlength]

end Header

/-- The open file with the header in use; `file` is `none` for an in-memory store. -/
structure FileStore where
  file : Option (List UInt8)
  header : Header
  syncOnCommit : Bool
  deriving DecidableEq, Repr

namespace FileStore

def slot (f : List UInt8) (off : Nat) : List UInt8 := readAt f off headerRecordSize

/-- The choice between the two slots: the shadow wins only with a larger version. -/
def selectHeader (primary shadow : H2Result Header) : H2Result Header :=
  match primary, shadow with
  | .ok first, .ok second => .ok (if first.version < second.version then second else first)
  | .ok first, .error _ => .ok first
  | .error _, .ok second => .ok second
  | .error e, .error _ => .error e

/-- `FileStore::open`: `path` is the content of the database file if it exists, `backup` that of the
`.compact_bak` file an interrupted rewrite leaves.  A new or short file gets an initial header. -/
def openAt (path backup : Option (List UInt8)) (syncOnCommit : Bool) : H2Result FileStore :=
  let file := (path.or backup).getD []
  if file.length < headerSize then
    let initial : Header := ⟨0, 0, 0⟩
    .ok ⟨some (writeAt file 0 initial.serialize), initial, syncOnCommit⟩
  else
    match selectHeader (Header.deserialize (slot file 0))
        (Header.deserialize (slot file shadowHeaderOffset)) with
    | .error e => .error e
    | .ok header => .ok ⟨some file, header, syncOnCommit⟩

/-! ## The chain of records -/

variable {P R V : Type}

/-- The `bincode` functions of the two kinds of record. -/
structure Codecs (P R V : Type) where
  chunk : Bincode (ChunkPayload P)
  delta : Bincode (DeltaPayload R V)

variable (bc : Codecs P R V)

abbrev Chain (P R V : Type) := Option (ChunkPayload P) × List (DeltaPayload R V)

inductive Append (P R V : Type) where
  | chunk (payload : ChunkPayload P)
  | delta (payload : DeltaPayload R V)

def decodeRecord (bytes : List UInt8) : H2Result (Append P R V) :=
  if DeltaPayload.isDelta bytes then
    match DeltaPayload.deserialize bc.delta bytes with
    | .error e => .error e
    | .ok delta => .ok (.delta delta)
  else
    match ChunkPayload.deserialize bc.chunk bytes with
    | .error e => .error e
    | .ok base => .ok (.chunk base)

/-- The loop of `read_checkpoint_chain`; `deltas` are the deltas met so far, oldest first. -/
def walk (file : List UInt8) (offset length : Nat) (visited : Finset Nat)
    (deltas : List (DeltaPayload R V)) : H2Result (Chain P R V) :=
  if length = 0 then .ok (none, deltas)
  else if _h : offset ∈ visited ∨ offset < headerSize ∨ 2 ^ 64 ≤ offset + length ∨
      file.length < offset + length then
    .error (.corrupted "Invalid checkpoint chain offset")
  else
    match decodeRecord bc (readAt file offset length) with
    | .error e => .error e
    | .ok (.delta delta) =>
      walk file delta.previousOffset delta.previousLength (insert offset visited) (delta :: deltas)
    | .ok (.chunk base) => .ok (some base, deltas)
termination_by (Finset.range (file.length + 1) \ visited).card
decreasing_by
  -- the offset is inside the file and new, so fewer offsets are left
  apply Finset.card_lt_card
  refine ⟨Finset.sdiff_subset_sdiff (Finset.Subset.refl _) (Finset.subset_insert _ _), fun hsub => ?_⟩
  have hmem : offset ∈ Finset.range (file.length + 1) \ visited := by
    rw [Finset.mem_sdiff, Finset.mem_range]
    exact ⟨by omega, fun hv => _h (Or.inl hv)⟩
  have hin := hsub hmem
  rw [Finset.mem_sdiff] at hin
  exact hin.2 (Finset.mem_insert_self _ _)

/-- The chain a header of `file` leads to. -/
def chainAt (file : List UInt8) (header : Header) : H2Result (Chain P R V) :=
  walk bc file header.lastChunkOffset header.lastChunkLength ∅ []

def readCheckpointChain (fs : FileStore) : H2Result (Chain P R V) :=
  match fs.file with
  | none => .ok (none, [])
  | some file => chainAt bc file fs.header

/-! ## Appending a record -/

def syncIf (sync : Bool) : List DiskStep := if sync then [.sync] else []

/-- `write_header_slots`: the shadow first, then the primary. -/
def writeHeaderSlots (header : Header) (sync : Bool) : List DiskStep :=
  [.write shadowHeaderOffset header.record] ++ syncIf sync ++
    [.write 0 header.record] ++ syncIf sync

/-- The writes that append `record` to `file` and switch the header to it. -/
def publishSteps (file record : List UInt8) (header : Header) (sync : Bool) : List DiskStep :=
  [.write file.length record] ++ syncIf sync ++ writeHeaderSlots header sync

namespace Append

variable {bc}

def version : Append P R V → Nat
  | .chunk payload => payload.chunkMeta.version
  | .delta payload => payload.version

def link (op : Append P R V) (header : Header) : Append P R V :=
  match op with
  | .chunk payload => .chunk payload
  | .delta payload => .delta { payload with
      previousOffset := header.lastChunkOffset
      previousLength := header.lastChunkLength }

def extend (op : Append P R V) (chain : Chain P R V) : Chain P R V :=
  match op with
  | .chunk payload => (some payload, [])
  | .delta payload => (chain.1, chain.2 ++ [payload])

variable (bc) in
def serialize (op : Append P R V) : H2Result (List UInt8) :=
  match op with
  | .chunk payload => payload.serialize bc.chunk
  | .delta payload => payload.serialize bc.delta

end Append

/-- The header that names a record appended to `file`; its length is kept as a `u32`. -/
def nextHeader (op : Append P R V) (file record : List UInt8) : Header :=
  ⟨op.version, file.length, record.length % 2 ^ 32⟩

end FileStore

end H2Database.Mvstore
