import H2Database.Mvstore.Codec
import Mathlib.Data.List.Basic

/-!
# The write-ahead log (`h2-mvstore/src/wal.rs`)

`WalManager` over the bytes of the `.wal` file.  A frame is `len (4) ‖ crc (4) ‖ payload`; the
payload is the `bincode` image of a `WalRecord`.  The record is generic in the type `V` of the values
a change carries.
-/

namespace H2Database.Mvstore

open Reasoning List Nat

/-- A put (`some`) or a delete (`none`) of one key of one map. -/
structure WalChange (V : Type) where
  mapName : String
  key : List UInt8
  value : Option V
  deriving DecidableEq, Repr

structure WalRecord (V : Type) where
  txId : Nat
  commitVersion : Nat
  changes : List (WalChange V)
  timestampNanos : Int := 0
  deriving DecidableEq, Repr

/-- The `bincode` layout of a change of raw values. -/
def walChangeCoder : Coder (WalChange (List UInt8)) :=
  Coder.iso (.pair .text (.pair .bytes (.option .bytes)))
    (fun p => ⟨p.1, p.2.1, p.2.2⟩) (fun c => (c.mapName, c.key, c.value))

def walRecordCoder : Coder (WalRecord (List UInt8)) :=
  Coder.iso (.pair (.uint 8) (.pair (.uint 8) (.pair (.vec walChangeCoder) (.sint 8))))
    (fun p => ⟨p.1, p.2.1, p.2.2.1, p.2.2.2⟩)
    (fun r => (r.txId, r.commitVersion, r.changes, r.timestampNanos))

structure WalChange.InRange (c : WalChange (List UInt8)) : Prop where
  name : c.mapName.utf8ByteSize < 2 ^ 64
  key : c.key.length < 2 ^ 64
  value : ∀ v ∈ c.value, v.length < 2 ^ 64

structure WalRecord.InRange (r : WalRecord (List UInt8)) : Prop where
  txId : r.txId < 2 ^ 64
  commitVersion : r.commitVersion < 2 ^ 64
  count : r.changes.length < 2 ^ 64
  changes : ∀ c ∈ r.changes, c.InRange
  timestamp : -2 ^ 63 ≤ r.timestampNanos ∧ r.timestampNanos < 2 ^ 63

theorem walChangeCoder_reads {c : WalChange (List UInt8)} (h : c.InRange) :
    walChangeCoder.Reads c :=
  Coder.iso_reads (Coder.pair_reads (Coder.text_reads h.name)
    (Coder.pair_reads (Coder.bytes_reads h.key)
      (Coder.option_reads fun v hv => Coder.bytes_reads (h.value v hv)))) rfl

theorem walRecordCoder_reads {r : WalRecord (List UInt8)} (h : r.InRange) :
    walRecordCoder.Reads r := by
  have ht : (Coder.sint 8).Reads r.timestampNanos := by
    have hlo := h.timestamp.1
    have hhi := h.timestamp.2
    exact Coder.sint_reads (by norm_num; omega) (by norm_num; omega)
  exact Coder.iso_reads (Coder.pair_reads (Coder.uint_reads h.txId)
    (Coder.pair_reads (Coder.uint_reads h.commitVersion)
      (Coder.pair_reads (Coder.vec_reads h.count fun c hc => walChangeCoder_reads (h.changes c hc))
        ht))) rfl

/-- `file` is `none` for an in-memory store. -/
structure WalManager where
  file : Option (List UInt8)
  syncOnCommit : Bool
  deriving DecidableEq, Repr

namespace WalManager

variable {V : Type} (bc : Bincode (WalRecord V))

/-- The bytes one append writes: `len as u32`, the checksum of the payload, the payload. -/
def frame (payload : List UInt8) : List UInt8 :=
  leBytes 4 payload.length ++ leBytes 4 (crc32 payload) ++ payload

/-- `append_unsynced`: the frame goes to the end of the file. -/
def appendUnsynced (wal : WalManager) (record : WalRecord V) : H2Result WalManager :=
  match wal.file with
  | none => .ok wal
  | some file =>
    match bc.serialize record with
    | .error e => .error (.serialization e)
    | .ok payload => .ok { wal with file := some (file ++ frame payload) }

def appendAll (wal : WalManager) : List (WalRecord V) → H2Result WalManager
  | [] => .ok wal
  | record :: records => do
    let wal ← wal.appendUnsynced bc record
    wal.appendAll records

/-- `set_len(len)` followed by a seek there. -/
def truncateTo (wal : WalManager) (len : Nat) : WalManager :=
  { wal with file := wal.file.map (List.take len) }

def clear (wal : WalManager) : WalManager := wal.truncateTo 0

def len (wal : WalManager) : Nat := (wal.file.getD []).length

/-- The loop of `read_all_records` on the unread bytes `rest`, which start at offset `validEnd`.
Its exits are the source's `break`s: a short header, a length past the end of the file, a checksum
that does not match and a payload that does not decode. -/
def readLoop (rest : List UInt8) (validEnd : Nat) : List (WalRecord V) × Nat :=
  if _h : 8 ≤ rest.length then
    let len := fromLe (rest.take 4)
    let expectedCrc := fromLe ((rest.drop 4).take 4)
    let body := rest.drop 8
    if body.length < len then ([], validEnd)
    else if crc32 (body.take len) ≠ expectedCrc then ([], validEnd)
    else
      match bc.deserialize (body.take len) with
      | .error _ => ([], validEnd)
      | .ok record =>
        let (records, finalEnd) := readLoop (body.drop len) (validEnd + 8 + len)
        (record :: records, finalEnd)
  else ([], validEnd)
termination_by rest.length
decreasing_by simp only [length_drop]; omega

/-- `read_all_records`: the readable records, with the file cut back to their end. -/
def readAllRecords (wal : WalManager) : List (WalRecord V) × WalManager :=
  match wal.file with
  | none => ([], wal)
  | some file =>
    let (records, validEnd) := readLoop bc file 0
    (records, if validEnd < file.length then wal.truncateTo validEnd else wal)

/-! ## One frame -/

/-- What the log needs to know of an appended record: `bincode` reads its image back and the image
fits the four-byte length field. -/
structure Loggable (record : WalRecord V) (payload : List UInt8) : Prop where
  roundTrips : bc.RoundTrips record payload
  fits : payload.length < 2 ^ 32

theorem length_frame (payload : List UInt8) : (frame payload).length = 8 + payload.length := by
  simp only [frame, length_append, length_leBytes]

theorem readLoop_short {rest : List UInt8} (h : rest.length < 8) (validEnd : Nat) :
    readLoop bc rest validEnd = ([], validEnd) := by
  rw [readLoop, dif_neg (by omega)]

variable {payload : List UInt8}

theorem readLoop_frame {record : WalRecord V}
    (h : Loggable bc record payload) (rest : List UInt8) (validEnd : Nat) :
    readLoop bc (frame payload ++ rest) validEnd =
      (record :: (readLoop bc rest (validEnd + (frame payload).length)).1,
        (readLoop bc rest (validEnd + (frame payload).length)).2) := by
  have hlen : fromLe ((frame payload ++ rest).take 4) = payload.length := by
    simp only [frame, append_assoc]
    rw [take_left' (length_leBytes 4 _)]
    exact fromLe_leBytes_of_lt h.fits
  have hcrc : fromLe (((frame payload ++ rest).drop 4).take 4) = crc32 payload := by
    simp only [frame, append_assoc]
    rw [drop_left' (length_leBytes 4 _), take_left' (length_leBytes 4 _)]
    exact fromLe_leBytes_of_lt (crc32_lt payload)
  have hbody : (frame payload ++ rest).drop 8 = payload ++ rest := by
    rw [frame, append_assoc, drop_left' (by simp)]
  have h8 : 8 ≤ (frame payload ++ rest).length := by
    rw [length_append, length_frame]; omega
  -- none of the four exits is taken: header whole, payload whole, checksum right, record decodes
  rw [readLoop, dif_pos h8]
  simp only [hlen, hcrc, hbody, take_left', drop_left', h.roundTrips.2]
  rw [if_neg (by rw [length_append]; omega), if_neg (by simp), length_frame,
    add_assoc validEnd 8]

theorem readLoop_cut (hfits : payload.length < 2 ^ 32) {cut : Nat}
    (hcut : cut < (frame payload).length) (validEnd : Nat) :
    readLoop bc ((frame payload).take cut) validEnd = ([], validEnd) := by
  have hl : ((frame payload).take cut).length = cut := by rw [length_take]; omega
  by_cases h8 : cut < 8
  · exact readLoop_short bc (by omega) validEnd
  · have hlen : fromLe (((frame payload).take cut).take 4) = payload.length := by
      rw [take_take, min_eq_left (by omega), frame, append_assoc,
        take_left' (length_leBytes 4 _)]
      exact fromLe_leBytes_of_lt hfits
    rw [readLoop, dif_pos (by omega)]
    simp only [hlen, length_drop, hl]
    rw [length_frame] at hcut
    rw [if_pos (by omega)]

/-! ## A whole log -/

def image : List (WalRecord V) → List UInt8
  | [] => []
  | record :: records =>
    (match bc.serialize record with
      | .ok payload => frame payload
      | .error _ => []) ++ image records

theorem image_cons {record : WalRecord V} (h : Loggable bc record payload) (records : List (WalRecord V)) :
    image bc (record :: records) = frame payload ++ image bc records := by
  rw [image, h.roundTrips.1]

theorem image_append (records more : List (WalRecord V)) :
    image bc (records ++ more) = image bc records ++ image bc more := by
  induction records with
  | nil => rfl
  | cons record records ih => rw [cons_append, image, image, ih, append_assoc]

variable {records : List (WalRecord V)}

section

variable (hlog : ∀ r ∈ records, ∃ payload, Loggable bc r payload)

include hlog

theorem appendAll_eq (file : List UInt8) (sync : Bool) :
    appendAll bc ⟨some file, sync⟩ records = .ok ⟨some (file ++ image bc records), sync⟩ := by
  induction records generalizing file with
  | nil => simp [appendAll, image]
  | cons record records ih =>
    obtain ⟨payload, hp⟩ := hlog record mem_cons_self
    have hstep : appendUnsynced bc ⟨some file, sync⟩ record =
        .ok ⟨some (file ++ frame payload), sync⟩ := by
      simp only [appendUnsynced, hp.roundTrips.1]
    rw [appendAll, hstep, image_cons bc hp, ← append_assoc]
    exact ih (fun r hr => hlog r (mem_cons_of_mem _ hr)) _

theorem readLoop_image (rest : List UInt8) (validEnd : Nat) :
    readLoop bc (image bc records ++ rest) validEnd =
      (records ++ (readLoop bc rest (validEnd + (image bc records).length)).1,
        (readLoop bc rest (validEnd + (image bc records).length)).2) := by
  induction records generalizing validEnd with
  | nil => simp [image]
  | cons record records ih =>
    obtain ⟨payload, hp⟩ := hlog record mem_cons_self
    rw [image_cons bc hp, append_assoc, readLoop_frame bc hp,
      ih (fun r hr => hlog r (mem_cons_of_mem _ hr))]
    simp only [length_append, cons_append, add_assoc]

theorem readAllRecords_image (sync : Bool) :
    readAllRecords bc ⟨some (image bc records), sync⟩ =
      (records, ⟨some (image bc records), sync⟩) := by
  have h := readLoop_image bc hlog [] 0
  rw [readLoop_short bc (show ([] : List UInt8).length < 8 by decide), append_nil,
    append_nil, zero_add] at h
  simp only [readAllRecords, h, lt_irrefl, if_false]

theorem image_take {cut : Nat} (hcut : cut ≤ (image bc records).length) :
    ∃ m ≤ records.length, (image bc (records.take m)).length ≤ cut ∧
      (m < records.length → cut < (image bc (records.take (m + 1))).length) ∧
      ∃ torn, (image bc records).take cut = image bc (records.take m) ++ torn ∧
        ∀ validEnd, readLoop bc torn validEnd = ([], validEnd) := by
  induction records generalizing cut with
  | nil =>
    refine ⟨0, le_refl _, zero_le _, fun h => absurd h (by simp), [], by simp [image], ?_⟩
    exact fun validEnd => readLoop_short bc (by simp) validEnd
  | cons record records ih =>
    obtain ⟨payload, hp⟩ := hlog record mem_cons_self
    rw [image_cons bc hp, length_append] at hcut
    by_cases hin : cut < (frame payload).length
    · -- the cut is inside the first frame: no record survives
      refine ⟨0, zero_le _, zero_le _, fun _ => ?_, (frame payload).take cut, ?_,
        fun validEnd => readLoop_cut bc hp.fits hin validEnd⟩
      · rw [take_succ_cons, take_zero, image_cons bc hp, length_append]
        omega
      · rw [image_cons bc hp, take_append_of_le_length (by omega)]
        rfl
    · -- the first frame survives whole, and the rest of the cut falls into the other records
      obtain ⟨m, hm, hle, hmax, torn, htake, hstop⟩ :=
        ih (fun r hr => hlog r (mem_cons_of_mem _ hr))
          (show cut - (frame payload).length ≤ _ by omega)
      refine ⟨m + 1, succ_le_succ hm, ?_, fun hlt => ?_, torn, ?_, hstop⟩
      · rw [take_succ_cons, image_cons bc hp, length_append]
        omega
      · have := hmax (lt_of_succ_lt_succ hlt)
        rw [take_succ_cons, image_cons bc hp, length_append]
        omega
      · rw [take_succ_cons, image_cons bc hp, image_cons bc hp, take_append,
          take_of_length_le (by omega), htake, append_assoc]

end

/-- Torn-tail recovery.  A log written by any appends and cut at any byte is read as the maximal
prefix of whole records, the file is cut back to exactly that prefix, and whatever is appended
afterwards is read behind it. -/
theorem readAllRecords_tornTail (records more : List (WalRecord V)) (sync : Bool)
    (hlog : ∀ r ∈ records ++ more, ∃ payload, Loggable bc r payload) :
    ∃ wal, appendAll bc ⟨some [], sync⟩ records = .ok wal ∧
      ∀ cut ≤ wal.len, ∃ m ≤ records.length, ∃ kept,
        appendAll bc ⟨some [], sync⟩ (records.take m) = .ok kept ∧ kept.len ≤ cut ∧
        (m < records.length → ∃ next,
          appendAll bc ⟨some [], sync⟩ (records.take (m + 1)) = .ok next ∧ cut < next.len) ∧
        readAllRecords bc (wal.truncateTo cut) = (records.take m, kept) ∧
        ∃ grown, appendAll bc kept more = .ok grown ∧
          readAllRecords bc grown = (records.take m ++ more, grown) := by
  have hrec : ∀ r ∈ records, ∃ payload, Loggable bc r payload :=
    fun r hr => hlog r (mem_append_left _ hr)
  have htake : ∀ m, ∀ r ∈ records.take m, ∃ payload, Loggable bc r payload :=
    fun m r hr => hrec r (mem_of_mem_take hr)
  refine ⟨_, appendAll_eq bc hrec [] sync, fun cut hcut => ?_⟩
  -- `m` whole records and a torn one at which the loop stops
  obtain ⟨m, hm, hle, hmax, torn, hsplit, hstop⟩ := image_take bc hrec (by simpa [len] using hcut)
  refine ⟨m, hm, _, appendAll_eq bc (htake m) [] sync, by simpa [len] using hle,
    fun hlt => ⟨_, appendAll_eq bc (htake (m + 1)) [] sync, by simpa [len] using hmax hlt⟩, ?_, ?_⟩
  · have hread := readLoop_image bc (htake m) torn 0
    rw [hstop, ← hsplit, append_nil, zero_add] at hread
    simp only [truncateTo, readAllRecords, Option.map_some, nil_append, hread]
    -- the file is cut only when something is left behind the last whole record
    by_cases hend : (image bc (records.take m)).length < ((image bc records).take cut).length
    · rw [if_pos hend, hsplit, take_left]
    · have hnil : torn = [] := by
        rw [hsplit, length_append] at hend
        exact eq_nil_of_length_eq_zero (by omega)
      rw [if_neg hend, hsplit, hnil, append_nil]
  · -- later appends start at the end of the kept prefix, so they make up the image of a longer log
    have hmore : ∀ r ∈ records.take m ++ more, ∃ payload, Loggable bc r payload := by
      intro r hr
      rcases mem_append.mp hr with h | h
      · exact htake m r h
      · exact hlog r (mem_append_right _ h)
    have hgrow := appendAll_eq bc (fun r hr => hlog r (mem_append_right _ hr))
      (image bc (records.take m)) sync
    refine ⟨_, hgrow, ?_⟩
    rw [← image_append]
    exact readAllRecords_image bc hmore sync

theorem loggable_onePut {txId commitVersion : Nat} (htx : txId < 2 ^ 64) (hv : commitVersion < 2 ^ 64)
    (k b : UInt8) {t : Int} (ht : -2 ^ 63 ≤ t ∧ t < 2 ^ 63) :
    Loggable (Bincode.ofCoder walRecordCoder) ⟨txId, commitVersion, [⟨"items", [k], some [b]⟩], t⟩
      (walRecordCoder.encode ⟨txId, commitVersion, [⟨"items", [k], some [b]⟩], t⟩) := by
  have hin : WalRecord.InRange ⟨txId, commitVersion, [⟨"items", [k], some [b]⟩], t⟩ := by
    refine ⟨htx, hv, by simp, ?_, ht⟩
    intro c hc
    rw [mem_singleton.mp hc]
    exact ⟨by change "items".utf8ByteSize < 2 ^ 64; decide, by simp, by simp⟩
  refine ⟨Bincode.ofCoder_roundTrips (walRecordCoder_reads hin), ?_⟩
  simp [walRecordCoder, walChangeCoder, Coder.iso, Coder.pair, Coder.vec, Coder.uint, Coder.sint,
    Coder.text, Coder.bytes, Coder.option]
  decide

/-- Two one-change records, the second cut in its payload, and a third one appended. -/
theorem readAllRecords_tornTail_sample :
    let put (v : Nat) : WalRecord (List UInt8) :=
      { txId := v, commitVersion := v, changes := [⟨"items", [UInt8.ofNat v], some [7]⟩] }
    let bc := Bincode.ofCoder walRecordCoder
    ∃ wal, appendAll bc ⟨some [], true⟩ [put 1, put 2] = .ok wal ∧
      ∀ cut ≤ wal.len, ∃ m ≤ 2, ∃ kept,
        appendAll bc ⟨some [], true⟩ ([put 1, put 2].take m) = .ok kept ∧ kept.len ≤ cut ∧
        (m < 2 → ∃ next,
          appendAll bc ⟨some [], true⟩ ([put 1, put 2].take (m + 1)) = .ok next ∧ cut < next.len) ∧
        readAllRecords bc (wal.truncateTo cut) = ([put 1, put 2].take m, kept) ∧
        ∃ grown, appendAll bc kept [put 3] = .ok grown ∧
          readAllRecords bc grown = ([put 1, put 2].take m ++ [put 3], grown) := by
  intro put bc
  have hloggable : ∀ v < 256, Loggable bc (put v) (walRecordCoder.encode (put v)) :=
    fun v hv => loggable_onePut (by omega) (by omega) _ _ (by decide)
  refine readAllRecords_tornTail bc [put 1, put 2] [put 3] true ?_
  intro r hr
  simp only [cons_append, nil_append, mem_cons, not_mem_nil, or_false] at hr
  rcases hr with rfl | rfl | rfl
  · exact ⟨_, hloggable 1 (by decide)⟩
  · exact ⟨_, hloggable 2 (by decide)⟩
  · exact ⟨_, hloggable 3 (by decide)⟩

end WalManager

end H2Database.Mvstore
