import H2Database.Mvstore.Codec

/-!
# Checkpoint records (`h2-mvstore/src/chunk.rs`, `delta.rs`)

A checkpoint is written either as a `ChunkPayload` (the metadata tree with every map's root) or as a
`DeltaPayload` (the changes since the record before it).  Both are framed by their length and the
CRC-32 of their `bincode` image; a delta also starts with the magic `H2D1`.  The payloads are generic
in the type `P` of root pages, the type `R` of serialized map roots and the type `V` of values.
-/

namespace H2Database.Mvstore

open Reasoning List

structure ChunkMeta where
  id : Nat
  version : Nat
  pageCount : Nat
  dataSize : Nat
  deriving DecidableEq, Repr

structure ChunkPayload (P : Type) where
  chunkMeta : ChunkMeta
  rootPage : P
  deriving DecidableEq, Repr

def ChunkPayload.new {P : Type} (id version : Nat) (root : P) : ChunkPayload P :=
  ⟨⟨id, version, 1, 0⟩, root⟩

structure MapDelta (R V : Type) where
  name : String
  replaceRoot : Option R
  clear : Bool
  changes : List (List UInt8 × Option V)
  deriving DecidableEq, Repr

structure DeltaPayload (R V : Type) where
  version : Nat
  previousOffset : Nat
  previousLength : Nat
  removedMaps : List String
  maps : List (MapDelta R V)
  deriving DecidableEq, Repr

variable {P R V : Type}

/-! ## The `bincode` layout -/

def chunkPayloadCoder (page : Coder P) : Coder (ChunkPayload P) :=
  Coder.iso
    (.pair (.pair (.uint 4) (.pair (.uint 8) (.pair (.uint 4) (.uint 8)))) page)
    (fun p => ⟨⟨p.1.1, p.1.2.1, p.1.2.2.1, p.1.2.2.2⟩, p.2⟩)
    (fun c => ((c.chunkMeta.id, c.chunkMeta.version, c.chunkMeta.pageCount, c.chunkMeta.dataSize),
      c.rootPage))

def mapDeltaCoder : Coder (MapDelta (List UInt8) (List UInt8)) :=
  Coder.iso
    (.pair .text (.pair (.option .bytes) (.pair .bool (.vec (.pair .bytes (.option .bytes))))))
    (fun p => ⟨p.1, p.2.1, p.2.2.1, p.2.2.2⟩)
    (fun m => (m.name, m.replaceRoot, m.clear, m.changes))

def deltaPayloadCoder : Coder (DeltaPayload (List UInt8) (List UInt8)) :=
  Coder.iso
    (.pair (.uint 8) (.pair (.uint 8) (.pair (.uint 4) (.pair (.vec .text) (.vec mapDeltaCoder)))))
    (fun p => ⟨p.1, p.2.1, p.2.2.1, p.2.2.2.1, p.2.2.2.2⟩)
    (fun d => (d.version, d.previousOffset, d.previousLength, d.removedMaps, d.maps))

structure ChunkMeta.InRange (m : ChunkMeta) : Prop where
  id : m.id < 2 ^ 32
  version : m.version < 2 ^ 64
  pageCount : m.pageCount < 2 ^ 32
  dataSize : m.dataSize < 2 ^ 64

theorem chunkPayloadCoder_reads {page : Coder P} {chunk : ChunkPayload P}
    (hm : chunk.chunkMeta.InRange) (hp : page.Reads chunk.rootPage) :
    (chunkPayloadCoder page).Reads chunk :=
  Coder.iso_reads
    (Coder.pair_reads
      (Coder.pair_reads (Coder.uint_reads hm.id)
        (Coder.pair_reads (Coder.uint_reads hm.version)
          (Coder.pair_reads (Coder.uint_reads hm.pageCount) (Coder.uint_reads hm.dataSize)))) hp)
    rfl

structure MapDelta.InRange (m : MapDelta (List UInt8) (List UInt8)) : Prop where
  name : m.name.utf8ByteSize < 2 ^ 64
  root : ∀ r ∈ m.replaceRoot, r.length < 2 ^ 64
  count : m.changes.length < 2 ^ 64
  keys : ∀ c ∈ m.changes, c.1.length < 2 ^ 64
  values : ∀ c ∈ m.changes, ∀ v ∈ c.2, v.length < 2 ^ 64

theorem mapDeltaCoder_reads {m : MapDelta (List UInt8) (List UInt8)} (h : m.InRange) :
    mapDeltaCoder.Reads m := by
  refine Coder.iso_reads (Coder.pair_reads (Coder.text_reads h.name) (Coder.pair_reads
    (Coder.option_reads fun r hr => Coder.bytes_reads (h.root r hr)) (Coder.pair_reads
      (Coder.bool_reads _) (Coder.vec_reads h.count fun c hc => ?_)))) rfl
  exact Coder.pair_reads (Coder.bytes_reads (h.keys c hc))
    (Coder.option_reads fun v hv => Coder.bytes_reads (h.values c hc v hv))

structure DeltaPayload.InRange (d : DeltaPayload (List UInt8) (List UInt8)) : Prop where
  version : d.version < 2 ^ 64
  offset : d.previousOffset < 2 ^ 64
  length : d.previousLength < 2 ^ 32
  removedCount : d.removedMaps.length < 2 ^ 64
  removed : ∀ n ∈ d.removedMaps, n.utf8ByteSize < 2 ^ 64
  mapCount : d.maps.length < 2 ^ 64
  maps : ∀ m ∈ d.maps, m.InRange

theorem deltaPayloadCoder_reads {d : DeltaPayload (List UInt8) (List UInt8)} (h : d.InRange) :
    deltaPayloadCoder.Reads d :=
  Coder.iso_reads (Coder.pair_reads (Coder.uint_reads h.version) (Coder.pair_reads
    (Coder.uint_reads h.offset) (Coder.pair_reads (Coder.uint_reads h.length) (Coder.pair_reads
      (Coder.vec_reads h.removedCount fun n hn => Coder.text_reads (h.removed n hn))
      (Coder.vec_reads h.mapCount fun m hm => mapDeltaCoder_reads (h.maps m hm)))))) rfl

/-! ## Framing -/

namespace ChunkPayload

variable (bc : Bincode (ChunkPayload P))

/-- `len as u32 ‖ payload ‖ crc`. -/
def frame (payload : List UInt8) : List UInt8 :=
  leBytes 4 payload.length ++ payload ++ leBytes 4 (crc32 payload)

def serialize (chunk : ChunkPayload P) : H2Result (List UInt8) :=
  match bc.serialize chunk with
  | .error e => .error (.serialization e)
  | .ok payload => .ok (frame payload)

def deserialize (data : List UInt8) : H2Result (ChunkPayload P) :=
  if data.length < 8 then .error (.corrupted "Chunk data too short")
  else
    let length := fromLe (data.take 4)
    if data.length < 4 + length + 4 then .error (.corrupted "Chunk buffer size mismatch")
    else
      let payload := (data.drop 4).take length
      let expected := fromLe ((data.drop (4 + length)).take 4)
      let actual := crc32 payload
      if expected ≠ actual then
        .error (.corrupted s!"CRC32 mismatch: expected {expected}, got {actual}")
      else
        match bc.deserialize payload with
        | .error e => .error (.serialization e)
        | .ok chunk => .ok chunk

theorem length_frame (payload : List UInt8) : (frame payload).length = payload.length + 8 := by
  simp only [frame, length_append, length_leBytes]
  omega

theorem deserialize_frame {chunk : ChunkPayload P} {payload : List UInt8}
    (h : bc.RoundTrips chunk payload) (hfits : payload.length < 2 ^ 32) :
    deserialize bc (frame payload) = .ok chunk := by
  have hl := length_leBytes 4 payload.length
  have hlen : fromLe ((frame payload).take 4) = payload.length := by
    rw [frame, append_assoc, take_left' hl]
    exact fromLe_leBytes_of_lt hfits
  have hpay : ((frame payload).drop 4).take payload.length = payload := by
    rw [frame, append_assoc, drop_left' hl, take_left]
  have hcrc : fromLe (((frame payload).drop (4 + payload.length)).take 4) = crc32 payload := by
    rw [frame, drop_left' (by rw [length_append, hl]),
      take_of_length_le (by rw [length_leBytes])]
    exact fromLe_leBytes_of_lt (crc32_lt payload)
  have hsize := length_frame payload
  unfold deserialize
  rw [if_neg (by omega)]
  simp only [hlen, hpay, hcrc, h.2]
  rw [if_neg (by omega), if_neg (by simp)]

end ChunkPayload

namespace DeltaPayload

variable (bc : Bincode (DeltaPayload R V))

/-- `b"H2D1"`. -/
def magic : List UInt8 := [0x48, 0x32, 0x44, 0x31]

def isDelta (data : List UInt8) : Bool := magic.isPrefixOf data

/-- `H2D1 ‖ len as u32 ‖ payload ‖ crc`. -/
def frame (payload : List UInt8) : List UInt8 :=
  magic ++ leBytes 4 payload.length ++ payload ++ leBytes 4 (crc32 payload)

def serialize (delta : DeltaPayload R V) : H2Result (List UInt8) :=
  match bc.serialize delta with
  | .error e => .error (.serialization e)
  | .ok payload => .ok (frame payload)

def deserialize (data : List UInt8) : H2Result (DeltaPayload R V) :=
  if data.length < 12 ∨ isDelta data = false then .error (.corrupted "Invalid delta checkpoint")
  else
    let length := fromLe ((data.drop 4).take 4)
    if data.length ≠ length + 12 then .error (.corrupted "Delta checkpoint size mismatch")
    else
      let payload := (data.drop 8).take length
      let expected := fromLe (data.drop (8 + length))
      if crc32 payload ≠ expected then
        .error (.corrupted "Delta checkpoint checksum mismatch")
      else
        match bc.deserialize payload with
        | .error e => .error (.serialization e)
        | .ok delta => .ok delta

theorem length_frame (payload : List UInt8) : (frame payload).length = payload.length + 12 := by
  simp only [frame, length_append, length_leBytes, magic, length_cons, length_nil]
  omega

theorem isDelta_frame (payload : List UInt8) : isDelta (frame payload) = true := by
  simp [isDelta, frame, magic, List.isPrefixOf]

theorem deserialize_frame {delta : DeltaPayload R V} {payload : List UInt8}
    (h : bc.RoundTrips delta payload) (hfits : payload.length < 2 ^ 32) :
    deserialize bc (frame payload) = .ok delta := by
  have hl := length_leBytes 4 payload.length
  have hm : magic.length = 4 := rfl
  have hlen : fromLe (((frame payload).drop 4).take 4) = payload.length := by
    simp only [frame, append_assoc]
    rw [drop_left' hm, take_left' hl]
    exact fromLe_leBytes_of_lt hfits
  have hpay : ((frame payload).drop 8).take payload.length = payload := by
    rw [frame, append_assoc, drop_left' (by rw [length_append, hl, hm]),
      take_left]
  have hcrc : fromLe ((frame payload).drop (8 + payload.length)) = crc32 payload := by
    rw [frame, drop_left' (by rw [length_append, length_append, hl, hm])]
    exact fromLe_leBytes_of_lt (crc32_lt payload)
  have hsize := length_frame payload
  unfold deserialize
  rw [if_neg (by rw [isDelta_frame]; simp; omega)]
  simp only [hlen, hpay, hcrc, hsize, ne_eq, not_true_eq_false, if_false, h.2]

end DeltaPayload

theorem isDelta_chunkFrame (payload : List UInt8) (hfits : payload.length < 2 ^ 32) :
    DeltaPayload.isDelta (ChunkPayload.frame payload) = true ↔ payload.length = 0x31443248 := by
  have hl := length_leBytes 4 payload.length
  have hp : DeltaPayload.isDelta (ChunkPayload.frame payload) = true ↔
      leBytes 4 payload.length = DeltaPayload.magic := by
    rw [DeltaPayload.isDelta, isPrefixOf_iff_prefix, prefix_iff_eq_take,
      ChunkPayload.frame, append_assoc, take_left' (by rw [hl]; rfl)]
    exact eq_comm
  rw [hp]
  constructor
  · intro h
    have hn := congrArg fromLe h
    rw [fromLe_leBytes_of_lt hfits] at hn
    rw [hn]
    decide
  · intro h
    rw [h]
    decide

end H2Database.Mvstore
