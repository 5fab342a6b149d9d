import H2Database.Mvstore.FileStore
import Mathlib.Logic.Relation

/-!
# The walk along the checkpoint chain (`h2-mvstore/src/file_store.rs`, `read_checkpoint_chain`)

The loop turn by turn, over any bytes: every turn reads inside the file or none, and the offsets it has
been to bound the number of turns.  Which decoder a record comes to depends on its first four bytes, which
are a magic or the length of a chunk.
-/

namespace H2Database.Mvstore

open Reasoning Finset

namespace FileStore

variable {P R V : Type} (bc : Codecs P R V)

structure Walking (R V : Type) where
  offset : Nat
  length : Nat
  visited : Finset Nat
  deltas : List (DeltaPayload R V)

def Walking.start (header : Header) : Walking R V :=
  ⟨header.lastChunkOffset, header.lastChunkLength, ∅, []⟩

def Walking.invalid (w : Walking R V) (file : List UInt8) : Prop :=
  w.offset ∈ w.visited ∨ w.offset < headerSize ∨ 2 ^ 64 ≤ w.offset + w.length ∨
    file.length < w.offset + w.length

instance decidableInvalid (w : Walking R V) (file : List UInt8) : Decidable (w.invalid file) :=
  inferInstanceAs (Decidable (_ ∨ _))

def Walking.reads (w : Walking R V) (file : List UInt8) : Option (Nat × Nat) :=
  if w.length = 0 ∨ w.invalid file then none else some (w.offset, w.length)

def turn (file : List UInt8) (w : Walking R V) : H2Result (Chain P R V) ⊕ Walking R V :=
  if w.length = 0 then .inl (.ok (none, w.deltas))
  else if w.invalid file then .inl (.error (.corrupted "Invalid checkpoint chain offset"))
  else
    match decodeRecord bc (readAt file w.offset w.length) with
    | .error e => .inl (.error e)
    | .ok (.delta delta) =>
      .inr ⟨delta.previousOffset, delta.previousLength, insert w.offset w.visited, delta :: w.deltas⟩
    | .ok (.chunk base) => .inl (.ok (some base, w.deltas))

def turns (file : List UInt8) : Nat → Walking R V → Option (H2Result (Chain P R V))
  | 0, _ => none
  | n + 1, w =>
    match turn bc file w with
    | .inl answer => some answer
    | .inr w' => turns file n w'

variable {bc} {file : List UInt8} {w w' : Walking R V}

theorem walk_of_turn : walk bc file w.offset w.length w.visited w.deltas =
    match turn bc file w with
    | .inl answer => answer
    | .inr w' => walk bc file w'.offset w'.length w'.visited w'.deltas := by
  rw [walk, turn]
  by_cases hzero : w.length = 0
  · rw [if_pos hzero, if_pos hzero]
  · rw [if_neg hzero, if_neg hzero]
    by_cases hinvalid : w.invalid file
    · have hcheck := hinvalid
      unfold Walking.invalid at hcheck
      rw [dif_pos hcheck, if_pos hinvalid]
    · have hcheck := hinvalid
      unfold Walking.invalid at hcheck
      rw [dif_neg hcheck, if_neg hinvalid]
      cases decodeRecord bc (readAt file w.offset w.length) with
      | error e => rfl
      | ok record => cases record <;> rfl

theorem visited_of_turn (h : turn bc file w = .inr w') :
    w'.visited = insert w.offset w.visited ∧ w.offset ∉ w.visited ∧
      w.offset ∈ Finset.Ico headerSize file.length := by
  unfold turn at h
  split_ifs at h with hzero hinvalid
  have hvalid := hinvalid
  unfold Walking.invalid at hvalid
  push Not at hvalid
  cases hdec : decodeRecord bc (readAt file w.offset w.length) with
  | error e =>
    rw [hdec] at h
    cases h
  | ok record =>
    rw [hdec] at h
    cases record with
    | chunk base => cases h
    | delta delta =>
      cases h
      exact ⟨rfl, hvalid.1, mem_Ico.mpr ⟨hvalid.2.1, by omega⟩⟩

theorem turns_eq_walk (n : Nat) (hn : (Finset.Ico headerSize file.length \ w.visited).card < n) :
    turns bc file n w = some (walk bc file w.offset w.length w.visited w.deltas) := by
  induction n generalizing w with
  | zero => omega
  | succ n ih =>
    rw [turns, walk_of_turn]
    cases hturn : turn bc file w with
    | inl answer => rfl
    | inr w' =>
      obtain ⟨hvisited, hnew, hin⟩ := visited_of_turn hturn
      refine ih ?_
      have hless : Finset.Ico headerSize file.length \ w'.visited ⊂
          Finset.Ico headerSize file.length \ w.visited := by
        rw [hvisited, sdiff_insert]
        exact erase_ssubset (mem_sdiff.mpr ⟨hin, hnew⟩)
      have := card_lt_card hless
      omega

/-- The walk comes to an answer, after no more turns than there are bytes behind the header area, and in
none of them does it read outside the file. -/
theorem readCheckpointChain_total (bc : Codecs P R V) (file : List UInt8) (header : Header) (sync : Bool) :
    turns bc file (file.length - headerSize + 1) (.start header) =
      some (readCheckpointChain bc ⟨some file, header, sync⟩) ∧
    ∀ w, Relation.ReflTransGen (fun w w' => turn bc file w = .inr w') (.start header) w →
      ∀ offset length, w.reads file = some (offset, length) →
        headerSize ≤ offset ∧ offset + length ≤ file.length := by
  refine ⟨turns_eq_walk _ ?_, fun w _ offset length hreads => ?_⟩
  · rw [← Nat.card_Ico]
    exact Nat.lt_succ_of_le (card_le_card sdiff_subset)
  · unfold Walking.reads at hreads
    split_ifs at hreads with hnone
    cases hreads
    unfold Walking.invalid at hnone
    push Not at hnone
    omega

/-! ## Which decoder a record comes to -/

namespace Append

def RoundTrips (bc : Codecs P R V) : Append P R V → List UInt8 → Prop
  | .chunk payload, image => bc.chunk.RoundTrips payload image
  | .delta payload, image => bc.delta.RoundTrips payload image

def deserialize (bc : Codecs P R V) (data : List UInt8) : Append P R V → H2Result (Append P R V)
  | .chunk _ => (ChunkPayload.deserialize bc.chunk data).map .chunk
  | .delta _ => (DeltaPayload.deserialize bc.delta data).map .delta

def isDelta : Append P R V → Bool
  | .chunk _ => false
  | .delta _ => true

/-- What is written is read back by its own decoder, told apart by `is_delta`, and read back by the walk. -/
def Unambiguous (bc : Codecs P R V) (op : Append P R V) : Prop :=
  ∃ record, op.serialize bc = .ok record ∧ deserialize bc record op = .ok op ∧
    DeltaPayload.isDelta record = op.isDelta ∧ decodeRecord bc record = .ok op

/-- The payload of a chunk whose length spells `H2D1`. -/
def SpellsMagic (op : Append P R V) (image : List UInt8) : Prop :=
  op.isDelta = false ∧ image.length = 0x31443248

theorem isDelta_of_unambiguous {bc : Codecs P R V} {chunk : ChunkPayload P} {image : List UInt8}
    (himage : bc.chunk.RoundTrips chunk image) (h : Unambiguous bc (.chunk chunk)) :
    DeltaPayload.isDelta (ChunkPayload.frame image) = false := by
  obtain ⟨record, hrecord, -, hdelta, -⟩ := h
  simp only [Append.serialize, ChunkPayload.serialize, himage.1] at hrecord
  cases hrecord
  exact hdelta

/-- A record is unambiguous unless it is a chunk with 826 552 904 bytes. -/
theorem unambiguous_iff (bc : Codecs P R V) (op : Append P R V) (image : List UInt8)
    (himage : op.RoundTrips bc image) (hfits : image.length < 2 ^ 32) :
    op.Unambiguous bc ↔ ¬op.SpellsMagic image := by
  cases op with
  | delta payload =>
    refine iff_of_true ⟨DeltaPayload.frame image, ?_⟩ fun h => Bool.noConfusion h.1
    have hback := DeltaPayload.deserialize_frame bc.delta himage hfits
    refine ⟨?_, ?_, DeltaPayload.isDelta_frame image, ?_⟩
    · simp only [Append.serialize, DeltaPayload.serialize, himage.1]
    · rw [deserialize, hback]
      rfl
    · rw [decodeRecord, if_pos (DeltaPayload.isDelta_frame image), hback]
  | chunk payload =>
    have hmagic := isDelta_chunkFrame image hfits
    constructor
    · intro h hspells
      exact Bool.noConfusion ((hmagic.mpr hspells.2).symm.trans (isDelta_of_unambiguous himage h))
    · intro hspells
      have hdelta : DeltaPayload.isDelta (ChunkPayload.frame image) = false := by
        rw [← Bool.not_eq_true, hmagic]
        exact fun hlength => hspells ⟨rfl, hlength⟩
      have hback := ChunkPayload.deserialize_frame bc.chunk himage hfits
      refine ⟨ChunkPayload.frame image, ?_, ?_, hdelta, ?_⟩
      · simp only [Append.serialize, ChunkPayload.serialize, himage.1]
      · rw [deserialize, hback]
        rfl
      · rw [decodeRecord, if_neg (by rw [hdelta]; exact Bool.false_ne_true), hback]

/-- The crate's layout, with a root page that is written as a byte string. -/
def plainCodecs : Codecs (List UInt8) (List UInt8) (List UInt8) :=
  ⟨.ofCoder (chunkPayloadCoder .bytes), .ofCoder deltaPayloadCoder⟩

theorem plainCodecs_roundTrips {n : Nat} (hn : n < 2 ^ 64) :
    RoundTrips plainCodecs (.chunk (.new 1 1 (List.replicate n 0)))
      ((chunkPayloadCoder .bytes).encode (.new 1 1 (List.replicate n 0))) := by
  have hroot : Coder.bytes.Reads (List.replicate n 0) :=
    Coder.bytes_reads (by rwa [List.length_replicate])
  have hmeta : ChunkMeta.InRange ⟨1, 1, 1, 0⟩ := ⟨by decide, by decide, by decide, by decide⟩
  have hreads : (chunkPayloadCoder .bytes).Reads (ChunkPayload.new 1 1 (List.replicate n 0)) :=
    chunkPayloadCoder_reads hmeta hroot
  have hback := Bincode.ofCoder_roundTrips hreads
  exact hback

theorem length_plainImage (n : Nat) :
    ((chunkPayloadCoder .bytes).encode (.new 1 1 (List.replicate n 0))).length = n + 32 := by
  simp only [chunkPayloadCoder, Coder.iso, Coder.pair, Coder.uint, Coder.bytes, List.length_append,
    length_leBytes, ChunkPayload.new, List.length_replicate]
  omega

theorem unambiguous_leaf : Unambiguous plainCodecs (.chunk (.new 1 1 (List.replicate 8 0))) :=
  (unambiguous_iff plainCodecs _ _ (plainCodecs_roundTrips (by decide))
    (by rw [length_plainImage]; decide)).mpr fun h => absurd h.2 (by rw [length_plainImage]; decide)

/-- A root page of 826 552 872 bytes makes a chunk that is taken for a delta. -/
theorem chunk_taken_for_delta : ¬∀ (op : Append (List UInt8) (List UInt8) (List UInt8)) image,
    op.RoundTrips plainCodecs image → image.length < 2 ^ 32 → op.Unambiguous plainCodecs := by
  intro h
  have hlength := length_plainImage 826552872
  have hroundTrips := plainCodecs_roundTrips (n := 826552872) (by omega)
  have hdelta := isDelta_of_unambiguous hroundTrips (h _ _ hroundTrips (by rw [hlength]; omega))
  rw [(isDelta_chunkFrame _ (by rw [hlength]; omega)).mpr hlength] at hdelta
  exact Bool.noConfusion hdelta

end Append

end FileStore

end H2Database.Mvstore
