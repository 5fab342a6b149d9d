import H2Database.Mvstore.Codec

/-!
# Multi-version values (`h2-mvstore/src/tx/versioned_value.rs`)

The value a transactional map stores under a key: an optional uncommitted record with its writer, and
the committed records, newest first.  A tree stores the `bincode` image of such a value; `Stored` is
what `from_bytes` makes of stored bytes, and `readVisibleRaw_encode` connects the byte-level fast path
of a read with it.
-/

namespace H2Database.Mvstore

open Reasoning

/-- `None` as a value is a deletion. -/
structure VersionRecord where
  value : Option (List UInt8)
  commitVersion : Nat
  deriving DecidableEq, Repr

structure UncommittedRecord where
  txId : Nat
  value : Option (List UInt8)
  deriving DecidableEq, Repr

structure VersionedValue where
  uncommitted : Option UncommittedRecord
  committedHistory : List VersionRecord
  deriving DecidableEq, Repr

namespace VersionedValue

def newCommitted (value : List UInt8) (commitVersion : Nat) : VersionedValue :=
  ⟨none, [⟨some value, commitVersion⟩]⟩

def visibleRecord (history : List VersionRecord) (snapshotVersion : Nat) : Option VersionRecord :=
  history.find? fun r => decide (r.commitVersion ≤ snapshotVersion)

def readCommitted (vv : VersionedValue) (snapshotVersion : Nat) : Option (List UInt8) :=
  (visibleRecord vv.committedHistory snapshotVersion).bind VersionRecord.value

/-- A transaction's own uncommitted change comes first, then the newest record of the snapshot. -/
def readVisible (vv : VersionedValue) (readerTxId snapshotVersion : Nat) : Option (List UInt8) :=
  match vv.uncommitted with
  | some u => if u.txId = readerTxId then u.value else vv.readCommitted snapshotVersion
  | none => vv.readCommitted snapshotVersion

def activeTxId (vv : VersionedValue) : Option Nat := vv.uncommitted.map UncommittedRecord.txId

/-- The uncommitted record becomes the newest of at most 32 committed ones. -/
def commitUncommitted (vv : VersionedValue) (commitVersion : Nat) : VersionedValue :=
  match vv.uncommitted with
  | none => vv
  | some u => ⟨none, (⟨u.value, commitVersion⟩ :: vv.committedHistory).take 32⟩

def rollbackUncommitted (vv : VersionedValue) : VersionedValue := { vv with uncommitted := none }

/-- No snapshot from `horizonVersion` on sees anything but a deletion. -/
def isDead (vv : VersionedValue) (horizonVersion : Nat) : Bool :=
  match vv.uncommitted, vv.committedHistory with
  | some _, _ => false
  | none, [] => true
  | none, first :: _ => decide (first.commitVersion ≤ horizonVersion) && first.value.isNone

/-- Cut the history behind the first record at or below the horizon, if that drops anything. -/
def pruneOldVersions (vv : VersionedValue) (horizonVersion : Nat) : Option VersionedValue :=
  if vv.committedHistory.length ≤ 1 then none
  else
    match vv.committedHistory.findIdx? fun r => decide (r.commitVersion ≤ horizonVersion) with
    | none => none
    | some i =>
      if i + 1 < vv.committedHistory.length then
        some { vv with committedHistory := vv.committedHistory.take (i + 1) }
      else none

/-! ## The byte image -/

def versionRecordCoder : Coder VersionRecord :=
  Coder.iso (.pair (.option .bytes) (.uint 8)) (fun p => ⟨p.1, p.2⟩)
    (fun r => (r.value, r.commitVersion))

def uncommittedRecordCoder : Coder UncommittedRecord :=
  Coder.iso (.pair (.uint 8) (.option .bytes)) (fun p => ⟨p.1, p.2⟩) (fun u => (u.txId, u.value))

/-- The `bincode` layout. -/
def coder : Coder VersionedValue :=
  Coder.iso (.pair (.option uncommittedRecordCoder) (.vec versionRecordCoder))
    (fun p => ⟨p.1, p.2⟩) (fun vv => (vv.uncommitted, vv.committedHistory))

def toBytes (vv : VersionedValue) : List UInt8 := coder.encode vv

def fromBytes (bytes : List UInt8) : H2Result VersionedValue :=
  if bytes.isEmpty then .error (.serialization "Empty versioned value bytes")
  else
    match (Bincode.ofCoder coder).deserialize bytes with
    | .error e => .error (.serialization e)
    | .ok vv => .ok vv

structure InRange (vv : VersionedValue) : Prop where
  txId : ∀ u ∈ vv.uncommitted, u.txId < 2 ^ 64
  own : ∀ u ∈ vv.uncommitted, ∀ v ∈ u.value, v.length < 2 ^ 63
  count : vv.committedHistory.length < 2 ^ 64
  versions : ∀ r ∈ vv.committedHistory, r.commitVersion < 2 ^ 64
  values : ∀ r ∈ vv.committedHistory, ∀ v ∈ r.value, v.length < 2 ^ 63

variable {vv : VersionedValue}

theorem coder_reads (h : vv.InRange) : coder.Reads vv := by
  refine Coder.iso_reads (Coder.pair_reads (Coder.option_reads fun u hu => ?_)
    (Coder.vec_reads h.count fun r hr => ?_)) rfl
  · exact Coder.iso_reads (Coder.pair_reads (Coder.uint_reads (h.txId u hu))
      (Coder.option_reads fun v hv => Coder.bytes_reads
        (Nat.lt_trans (h.own u hu v hv) (by decide)))) rfl
  · exact Coder.iso_reads (Coder.pair_reads
      (Coder.option_reads fun v hv => Coder.bytes_reads
        (Nat.lt_trans (h.values r hr v hv) (by decide))) (Coder.uint_reads (h.versions r hr))) rfl

theorem toBytes_ne_nil (vv : VersionedValue) : toBytes vv ≠ [] := by
  cases hu : vv.uncommitted <;> simp [toBytes, coder, Coder.iso, Coder.pair, Coder.option, hu]

theorem fromBytes_of_reads (h : coder.Reads vv) :
    fromBytes (toBytes vv) = .ok vv := by
  have hne : (toBytes vv).isEmpty = false := by
    rw [List.isEmpty_eq_false_iff]
    exact toBytes_ne_nil vv
  have hd := (Bincode.ofCoder_roundTrips h).2
  rw [← toBytes] at hd
  simp only [fromBytes, hne, hd, Bool.false_eq_true, if_false]

theorem fromBytes_toBytes (h : vv.InRange) :
    fromBytes (toBytes vv) = .ok vv := fromBytes_of_reads (coder_reads h)

/-! ## The fast path of a read -/

/-- `read_visible_raw`: a value with one committed record and nothing uncommitted is read in place.
The sum of lengths is a `usize`. -/
def readVisibleRaw (bytes : List UInt8) (_readerTxId snapshotVersion : Nat) :
    Option (List UInt8) :=
  if 26 ≤ bytes.length ∧ bytes[0]? = some 0 then
    if fromLe ((bytes.drop 1).take 8) = 1 ∧ bytes[9]? = some 1 then
      let valLen := fromLe ((bytes.drop 10).take 8)
      if bytes.length = (18 + valLen + 8) % 2 ^ 64 then
        if fromLe ((bytes.drop (18 + valLen)).take 8) ≤ snapshotVersion then
          some ((bytes.drop 18).take valLen)
        else none
      else none
    else none
  else none

def readSingle (vv : VersionedValue) (snapshotVersion : Nat) : Option (List UInt8) :=
  match vv.uncommitted, vv.committedHistory with
  | none, [⟨some v, cv⟩] => if cv ≤ snapshotVersion then some v else none
  | _, _ => none

theorem readSingle_readVisible {sv : Nat} {v : List UInt8}
    (h : vv.readSingle sv = some v) (reader : Nat) : vv.readVisible reader sv = some v := by
  obtain ⟨uncommitted, history⟩ := vv
  unfold readSingle at h
  split at h
  · rename_i v' cv hu hh
    cases hu
    cases hh
    split_ifs at h with hle
    cases h
    simp [readVisible, readCommitted, visibleRecord, hle]
  · cases h

theorem toBytes_none (history : List VersionRecord) :
    toBytes ⟨none, history⟩ =
      0 :: (leBytes 8 history.length ++ history.flatMap versionRecordCoder.encode) := by
  simp [toBytes, coder, Coder.iso, Coder.pair, Coder.option, Coder.vec]

theorem toBytes_single (v : List UInt8) (cv : Nat) : toBytes ⟨none, [⟨some v, cv⟩]⟩ =
    (0 :: leBytes 8 1) ++ ((1 :: leBytes 8 v.length) ++ (v ++ leBytes 8 cv)) := by
  simp [toBytes_none, versionRecordCoder, Coder.iso, Coder.pair, Coder.option, Coder.bytes, Coder.uint]

end VersionedValue

/-- Stored bytes: the image of a versioned value, or whatever else a map was given. -/
inductive Stored where
  | versioned (vv : VersionedValue)
  | raw (bytes : List UInt8)
  deriving DecidableEq, Repr

namespace Stored

def bytes : Stored → List UInt8
  | .versioned vv => vv.toBytes
  | .raw bs => bs

/-- `VersionedValue::from_bytes`; on an image it is the round trip `fromBytes_toBytes`. -/
def fromBytes : Stored → H2Result VersionedValue
  | .versioned vv => .ok vv
  | .raw bytes => VersionedValue.fromBytes bytes

/-- `VersionedValue::read_visible_raw`; on an image it is `readVisibleRaw_toBytes`. -/
def readVisibleRaw : Stored → Nat → Nat → Option (List UInt8)
  | .versioned vv, _, snapshotVersion => vv.readSingle snapshotVersion
  | .raw bytes, readerTxId, snapshotVersion =>
    VersionedValue.readVisibleRaw bytes readerTxId snapshotVersion

end Stored

end H2Database.Mvstore
