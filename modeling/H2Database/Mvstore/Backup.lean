import H2Database.Mvstore.Page
import H2Database.Mvstore.Codec
import H2Database.Reasoning.DiskFile
import Mathlib.Data.List.AList

/-!
# Binary backups (`h2-mvstore/src/backup.rs`)

A backup file is a header of 64 bytes, one section for each map in the order of the names, and a trailer
of 24 bytes.  Header, sections and the series of sections carry a CRC-32 each.  Both hashers of the
reader are fed with the bytes in the order in which they are read, so each checksum is that of the part
of the file read so far.
-/

namespace H2Database.Mvstore

open Reasoning List

/-- The entries of every map: `HashMap<String, Vec<(Vec<u8>, Vec<u8>)>>`. -/
abbrev BackupData := AList fun _ : String => List (Key × List UInt8)

structure BackupMetadata where
  formatVersion : Nat
  backupId : String
  snapshotVersion : Nat
  timestampNanos : Int
  isReplica : Bool
  totalMaps : Nat
  totalRecords : Nat
  totalBytes : Nat
  checksum : Nat
  deriving DecidableEq, Repr

namespace Backup

/-- `H2BK`. -/
def backupMagic : List UInt8 := [72, 50, 66, 75]

/-- `H2EF`. -/
def backupTrailerMagic : List UInt8 := [72, 50, 69, 70]

def currentBackupVersion : Nat := 1

def headerSize : Nat := 64

def trailerSize : Nat := 24

/-! ## Writing -/

/-- `i64::to_le_bytes`: two's complement. -/
def leBytesOfInt (i : Int) : List UInt8 := leBytes 8 (i % 2 ^ 64).toNat

def backupIdBytes (timestampNanos : Int) (snapshotVersion : Nat) : List UInt8 :=
  leBytesOfInt timestampNanos ++ leBytes 8 snapshotVersion

/-- A digit of `{:02x}`. -/
def hexDigit (n : Nat) : Char := Nat.digitChar (n % 16)

/-- `hex::encode`. -/
def hexEncode (bytes : List UInt8) : String :=
  String.ofList (bytes.flatMap fun b => [hexDigit (b.toNat / 16), hexDigit b.toNat])

/-- The fields of the header in front of its checksum: magic, version, id, version of the store, time,
role, kind of checksum (CRC-32), number of maps, and 14 bytes in reserve. -/
def headerFields (snapshotVersion : Nat) (timestampNanos : Int) (isReplica : Bool) (totalMaps : Nat) :
    List (List UInt8) :=
  [backupMagic, leBytes 4 currentBackupVersion, backupIdBytes timestampNanos snapshotVersion,
    leBytes 8 snapshotVersion, leBytesOfInt timestampNanos, [if isReplica then 1 else 0], [1],
    leBytes 4 totalMaps, List.replicate 14 0]

def headerBytes (snapshotVersion : Nat) (timestampNanos : Int) (isReplica : Bool) (totalMaps : Nat) :
    List UInt8 :=
  let fields := headerFields snapshotVersion timestampNanos isReplica totalMaps
  (fields ++ [leBytes 4 (crc32 fields.flatten)]).flatten

def entryBytes (e : Key × List UInt8) : List UInt8 :=
  leBytes 4 e.1.length ++ e.1 ++ (leBytes 4 e.2.length ++ e.2)

def sectionBody (name : String) (entries : List (Key × List UInt8)) : List UInt8 :=
  leBytes 4 name.toUTF8.data.toList.length ++ name.toUTF8.data.toList ++
    (leBytes 8 entries.length ++ entries.flatMap entryBytes)

def sectionBytes (name : String) (entries : List (Key × List UInt8)) : List UInt8 :=
  sectionBody name entries ++ leBytes 4 (crc32 (sectionBody name entries))

def sortedMapNames (maps : BackupData) : List String :=
  maps.keys.mergeSort fun a b => decide (a ≤ b)

def entriesOf (maps : BackupData) (name : String) : List (Key × List UInt8) :=
  (maps.lookup name).getD []

def payloadBytes (maps : BackupData) : List UInt8 :=
  (sortedMapNames maps).flatMap fun name => sectionBytes name (entriesOf maps name)

def recordCount (maps : BackupData) : Nat :=
  ((sortedMapNames maps).map fun name => (entriesOf maps name).length).sum

def trailerBytes (payload : List UInt8) (totalRecords : Nat) : List UInt8 :=
  [leBytes 8 payload.length, leBytes 4 (crc32 payload), leBytes 8 totalRecords,
    backupTrailerMagic].flatten

/-- `write_binary_backup` at the time `timestampNanos`: the bytes of the file and what is reported. -/
def writeBinaryBackup (timestampNanos : Int) (snapshotVersion : Nat) (isReplica : Bool)
    (maps : BackupData) : List UInt8 × BackupMetadata :=
  let payload := payloadBytes maps
  (headerBytes snapshotVersion timestampNanos isReplica maps.keys.length ++
      (payload ++ trailerBytes payload (recordCount maps)),
    { formatVersion := currentBackupVersion
      backupId := hexEncode (backupIdBytes timestampNanos snapshotVersion)
      snapshotVersion := snapshotVersion
      timestampNanos := timestampNanos
      isReplica := isReplica
      totalMaps := maps.keys.length
      totalRecords := recordCount maps
      totalBytes := headerSize + payload.length + trailerSize
      checksum := crc32 payload })

/-- What is read from the front of the unread bytes, and the bytes behind it. -/
abbrev Reader (α : Type) := List UInt8 → H2Result (α × List UInt8)

/-- `read_exact`. -/
def readExact (n : Nat) : Reader (List UInt8) := fun bs =>
  if n ≤ bs.length then .ok (bs.take n, bs.drop n) else .error (.io "failed to fill whole buffer")

/-- `read_u32` and `read_u64`. -/
def readUInt (w : Nat) : Reader Nat := fun bs => do
  let (field, bs) ← readExact w bs
  pure (fromLe field, bs)

def readEntry : Reader (Key × List UInt8) := fun bs => do
  let (kLen, bs) ← readUInt 4 bs
  let (key, bs) ← readExact kLen bs
  let (vLen, bs) ← readUInt 4 bs
  let (val, bs) ← readExact vLen bs
  pure ((key, val), bs)

def readEntries : Nat → Reader (List (Key × List UInt8))
  | 0, bs => pure ([], bs)
  | n + 1, bs => do
    let (e, bs) ← readEntry bs
    let (es, bs) ← readEntries n bs
    pure (e :: es, bs)

/-- The eight digits of `{:08X}`. -/
def hex08 (n : Nat) : String :=
  String.ofList (((List.range 8).reverse.map fun i => (hexDigit (n / 16 ^ i)).toUpper))

/-- The name and the entries of one section.  Of the error for a name that is not UTF-8 the decoder's
own text is left out. -/
def readSection : Reader (String × List (Key × List UInt8)) := fun start => do
  let (nameLen, bs) ← readUInt 4 start
  let (nameBytes, bs) ← readExact nameLen bs
  let some mapName := String.fromUTF8? ⟨nameBytes.toArray⟩
    | .error (.storage "Invalid map name in backup: ")
  let (entryCount, bs) ← readUInt 8 bs
  let (entries, bs) ← readEntries entryCount bs
  let calculatedMapCrc := crc32 (start.take (start.length - bs.length))
  let (storedMapCrc, bs) ← readUInt 4 bs
  if storedMapCrc ≠ calculatedMapCrc then
    .error (.storage (s!"Checksum mismatch in map '{mapName}': stored 0x{hex08 storedMapCrc}" ++
      s!", calculated 0x{hex08 calculatedMapCrc}"))
  pure ((mapName, entries), bs)

/-- The loop over the sections: the maps read so far and the number of their records. -/
def readSections : Nat → BackupData → Nat → Reader (BackupData × Nat)
  | 0, maps, records, bs => pure ((maps, records), bs)
  | n + 1, maps, records, bs => do
    let ((name, entries), bs) ← readSection bs
    readSections n (maps.insert name entries) (records + entries.length) bs

/-- `i64::from_le_bytes`. -/
def intOfLe (bs : List UInt8) : Int :=
  let n := fromLe bs
  if n < 2 ^ 63 then (n : Int) else n - 2 ^ 64

def readHeader : Reader (List UInt8) := fun file => do
  let (magic, _) ← match readExact 4 file with
    | .ok r => pure r
    | .error _ => .error (.storage (
        "Invalid backup file: file too short or unreadable: failed to fill whole buffer"))
  if magic ≠ backupMagic then
    .error (.storage (s!"Invalid backup magic: expected {backupMagic.map UInt8.toNat}" ++
      s!", found {magic.map UInt8.toNat}"))
  let (header, bs) ← readExact headerSize file
  let formatVersion := fromLe (readAt header 4 4)
  if formatVersion ≠ currentBackupVersion then
    .error (.storage s!"Unsupported backup format version: {formatVersion}")
  let headerChecksum := fromLe (readAt header 60 4)
  let calcHeaderChecksum := crc32 (readAt header 0 60)
  if headerChecksum ≠ calcHeaderChecksum then
    .error (.storage (s!"Backup header corruption: expected checksum 0x{hex08 headerChecksum}" ++
      s!", calculated 0x{hex08 calcHeaderChecksum}"))
  pure (header, bs)

/-- The checks against the trailer; the payload is what has been read of the sections. -/
def checkTrailer (payload : List UInt8) (recordsCounted : Nat) (trailer : List UInt8) : H2Result Unit :=
  let totalDataBytes := fromLe (readAt trailer 0 8)
  let storedOverallChecksum := fromLe (readAt trailer 8 4)
  let totalRecords := fromLe (readAt trailer 12 8)
  if readAt trailer 20 4 ≠ backupTrailerMagic then
    .error (.storage "Missing or corrupt backup trailer magic")
  else if totalDataBytes ≠ payload.length then
    .error (.storage s!"Payload length mismatch: expected {totalDataBytes}, read {payload.length}")
  else if storedOverallChecksum ≠ crc32 payload then
    .error (.storage (s!"Overall payload checksum corruption: expected 0x{hex08 storedOverallChecksum}" ++
      s!", calculated 0x{hex08 (crc32 payload)}"))
  else if totalRecords ≠ recordsCounted then
    .error (.storage s!"Record count mismatch: expected {totalRecords}, read {recordsCounted}")
  else .ok ()

/-- `read_and_verify_binary_backup`. -/
def readAndVerifyBinaryBackup (file : List UInt8) : H2Result (BackupMetadata × BackupData) := do
  let (header, start) ← readHeader file
  let totalMaps := fromLe (readAt header 42 4)
  let ((maps, recordsCounted), bs) ← readSections totalMaps ∅ 0 start
  let payload := start.take (start.length - bs.length)
  let (trailer, _) ← readExact trailerSize bs
  checkTrailer payload recordsCounted trailer
  pure ({ formatVersion := fromLe (readAt header 4 4)
          backupId := hexEncode (readAt header 8 16)
          snapshotVersion := fromLe (readAt header 24 8)
          timestampNanos := intOfLe (readAt header 32 8)
          isReplica := decide (readAt header 40 1 ≠ [0])
          totalMaps := totalMaps
          totalRecords := fromLe (readAt trailer 12 8)
          totalBytes := headerSize + payload.length + trailerSize
          checksum := fromLe (readAt trailer 8 4) }, maps)

/-! ## Reading back what was written -/

structure Fits (maps : BackupData) : Prop where
  count : maps.keys.length < 2 ^ 32
  name : ∀ name ∈ maps.keys, name.toUTF8.data.toList.length < 2 ^ 32
  entries : ∀ name, (entriesOf maps name).length < 2 ^ 64
  entry : ∀ name, ∀ e ∈ entriesOf maps name, e.1.length < 2 ^ 32 ∧ e.2.length < 2 ^ 32
  payload : (payloadBytes maps).length < 2 ^ 64
  records : recordCount maps < 2 ^ 64

theorem ok_bind {α β : Type} (a : α) (f : α → H2Result β) : (Except.ok a >>= f) = f a := rfl

theorem readExact_append {n : Nat} {bs : List UInt8} (h : bs.length = n) (rest : List UInt8) :
    readExact n (bs ++ rest) = .ok (bs, rest) := by
  subst h
  rw [readExact, if_pos (by rw [length_append]; omega), take_left, drop_left]

theorem readUInt_leBytes {w n : Nat} (h : n < 256 ^ w) (rest : List UInt8) :
    readUInt w (leBytes w n ++ rest) = .ok (n, rest) := by
  have hfield := readExact_append (length_leBytes w n) rest
  simp only [readUInt, hfield, ok_bind, fromLe_leBytes_of_lt h]
  rfl

theorem readUInt_four {n : Nat} (h : n < 2 ^ 32) (rest : List UInt8) :
    readUInt 4 (leBytes 4 n ++ rest) = .ok (n, rest) := readUInt_leBytes h rest

theorem readUInt_eight {n : Nat} (h : n < 2 ^ 64) (rest : List UInt8) :
    readUInt 8 (leBytes 8 n ++ rest) = .ok (n, rest) := readUInt_leBytes h rest

theorem readEntry_entryBytes {e : Key × List UInt8} (hk : e.1.length < 2 ^ 32)
    (hv : e.2.length < 2 ^ 32) (rest : List UInt8) :
    readEntry (entryBytes e ++ rest) = .ok (e, rest) := by
  simp only [readEntry, entryBytes, append_assoc]
  simp only [readUInt_four hk, ok_bind, readExact_append rfl, readUInt_four hv]
  rfl

variable {entries : List (Key × List UInt8)}

theorem readEntries_flatMap
    (h : ∀ e ∈ entries, e.1.length < 2 ^ 32 ∧ e.2.length < 2 ^ 32) (rest : List UInt8) :
    readEntries entries.length (entries.flatMap entryBytes ++ rest) = .ok (entries, rest) := by
  induction entries with
  | nil => rfl
  | cons e entries ih =>
    have he := h e mem_cons_self
    have hrest := ih fun e' he' => h e' (mem_cons_of_mem _ he')
    simp only [length_cons, readEntries, flatMap_cons, append_assoc,
      readEntry_entryBytes he.1 he.2, ok_bind, hrest]
    rfl

theorem take_read (read rest : List UInt8) :
    (read ++ rest).take ((read ++ rest).length - rest.length) = read := by
  rw [length_append, Nat.add_sub_cancel, take_left]

theorem readSection_sectionBytes {name : String}
    (hname : name.toUTF8.data.toList.length < 2 ^ 32) (hcount : entries.length < 2 ^ 64)
    (h : ∀ e ∈ entries, e.1.length < 2 ^ 32 ∧ e.2.length < 2 ^ 32) (rest : List UInt8) :
    readSection (sectionBytes name entries ++ rest) = .ok ((name, entries), rest) := by
  have hutf : String.fromUTF8? ⟨name.toUTF8.data.toList.toArray⟩ = some name := by
    rw [Array.toArray_toList]
    exact dif_pos name.isValidUTF8
  have hread := take_read (sectionBody name entries)
    (leBytes 4 (crc32 (sectionBody name entries)) ++ rest)
  have hparts : sectionBytes name entries ++ rest =
      leBytes 4 name.toUTF8.data.toList.length ++ (name.toUTF8.data.toList ++
        (leBytes 8 entries.length ++ (entries.flatMap entryBytes ++
          (leBytes 4 (crc32 (sectionBody name entries)) ++ rest)))) := by
    simp only [sectionBytes, sectionBody, append_assoc]
  rw [← append_assoc, ← sectionBytes, hparts] at hread
  rw [hparts]
  simp only [readSection, readUInt_four hname, ok_bind, readExact_append rfl, hutf,
    readUInt_eight hcount, readEntries_flatMap h, hread, readUInt_four (crc32_lt _), ne_eq,
    not_true_eq_false, if_false]
  rfl

theorem readSections_flatMap (maps : BackupData) (hfit : Fits maps) {names : List String}
    (hnames : ∀ name ∈ names, name ∈ maps.keys) (acc : BackupData) (records : Nat)
    (rest : List UInt8) :
    readSections names.length acc records
        ((names.flatMap fun name => sectionBytes name (entriesOf maps name)) ++ rest) =
      .ok ((names.foldl (fun acc name => acc.insert name (entriesOf maps name)) acc,
        records + (names.map fun name => (entriesOf maps name).length).sum), rest) := by
  induction names generalizing acc records with
  | nil => rfl
  | cons name names ih =>
    have hsection := readSection_sectionBytes (hfit.name name (hnames name mem_cons_self))
      (hfit.entries name) (hfit.entry name)
    simp only [length_cons, readSections, flatMap_cons, append_assoc, hsection, ok_bind,
      ih fun n hn => hnames n (mem_cons_of_mem _ hn), foldl_cons, map_cons,
      sum_cons, Nat.add_assoc]

section Header

variable (snapshotVersion : Nat) (timestampNanos : Int) (isReplica : Bool) (totalMaps : Nat)

theorem length_leBytesOfInt (i : Int) : (leBytesOfInt i).length = 8 := length_leBytes 8 _

theorem length_headerBytes :
    (headerBytes snapshotVersion timestampNanos isReplica totalMaps).length = headerSize := by
  simp [headerBytes, headerFields, backupMagic, backupIdBytes, length_leBytesOfInt, headerSize]

theorem readAt_headerBytes {i : Nat} {field : List UInt8}
    (h : (headerFields snapshotVersion timestampNanos isReplica totalMaps)[i]? = some field) :
    readAt (headerBytes snapshotVersion timestampNanos isReplica totalMaps)
      ((headerFields snapshotVersion timestampNanos isReplica totalMaps).take i).flatten.length
      field.length = field := by
  have hi := (List.getElem?_eq_some_iff.mp h).1
  have htake : ((headerFields snapshotVersion timestampNanos isReplica totalMaps ++
      [leBytes 4 (crc32 (headerFields snapshotVersion timestampNanos isReplica totalMaps).flatten)]).take i) =
      (headerFields snapshotVersion timestampNanos isReplica totalMaps).take i :=
    take_append_of_le_length (Nat.le_of_lt hi)
  rw [← htake]
  exact readAt_flatten ((List.getElem?_append_left hi).trans h)

theorem header_formatVersion :
    fromLe (readAt (headerBytes snapshotVersion timestampNanos isReplica totalMaps) 4 4) =
      currentBackupVersion := by
  have h := @readAt_headerBytes snapshotVersion timestampNanos isReplica totalMaps 1 _ rfl
  rw [length_leBytes] at h
  exact (congrArg fromLe h).trans (by decide)

theorem header_backupId :
    readAt (headerBytes snapshotVersion timestampNanos isReplica totalMaps) 8 16 =
      backupIdBytes timestampNanos snapshotVersion :=
  @readAt_headerBytes snapshotVersion timestampNanos isReplica totalMaps 2 _ rfl

theorem header_isReplica :
    decide (readAt (headerBytes snapshotVersion timestampNanos isReplica totalMaps) 40 1 ≠ [0]) =
      isReplica := by
  have h := @readAt_headerBytes snapshotVersion timestampNanos isReplica totalMaps 5 _ rfl
  rw [show readAt (headerBytes snapshotVersion timestampNanos isReplica totalMaps) 40 1 =
    [if isReplica then 1 else 0] from h]
  cases isReplica <;> rfl

theorem length_headerFields :
    (headerFields snapshotVersion timestampNanos isReplica totalMaps).flatten.length = 60 := by
  simp [headerFields, backupMagic, backupIdBytes, length_leBytesOfInt]

theorem readHeader_headerBytes (rest : List UInt8) :
    readHeader (headerBytes snapshotVersion timestampNanos isReplica totalMaps ++ rest) =
      .ok (headerBytes snapshotVersion timestampNanos isReplica totalMaps, rest) := by
  set header := headerBytes snapshotVersion timestampNanos isReplica totalMaps with hheader
  set fields := headerFields snapshotVersion timestampNanos isReplica totalMaps with hfields
  have hlen : header.length = headerSize := length_headerBytes _ _ _ _
  have hparts : header = fields.flatten ++ leBytes 4 (crc32 fields.flatten) := by
    simp [hheader, headerBytes, hfields]
  have hmagic : readExact 4 (header ++ rest) = .ok (backupMagic, header.drop 4 ++ rest) := by
    have hfront : header ++ rest = backupMagic ++ (header.drop 4 ++ rest) := by
      rw [hheader]
      rfl
    rw [hfront]
    exact readExact_append (show backupMagic.length = 4 from rfl) _
  have hversion : fromLe (readAt header 4 4) = currentBackupVersion := header_formatVersion _ _ _ _
  have hbody : readAt header 0 60 = fields.flatten := by
    rw [hparts, readAt, drop_zero, take_left' (length_headerFields _ _ _ _)]
  have hcrc : fromLe (readAt header 60 4) = crc32 fields.flatten := by
    rw [hparts, readAt, drop_left' (length_headerFields _ _ _ _),
      take_of_length_le (by rw [length_leBytes])]
    exact fromLe_leBytes_of_lt (crc32_lt _)
  simp only [readHeader, hmagic, pure_bind, ok_bind, readExact_append hlen, hversion, hbody, hcrc, ne_eq,
    not_true_eq_false, if_false]
  rfl

end Header

theorem checkTrailer_trailerBytes {payload : List UInt8} (hpayload : payload.length < 2 ^ 64)
    {records : Nat} (hrecords : records < 2 ^ 64) :
    checkTrailer payload records (trailerBytes payload records) = .ok () ∧
      fromLe (readAt (trailerBytes payload records) 8 4) = crc32 payload ∧
      fromLe (readAt (trailerBytes payload records) 12 8) = records := by
  have hfield : ∀ {i : Nat} {field : List UInt8}, [leBytes 8 payload.length, leBytes 4 (crc32 payload),
      leBytes 8 records, backupTrailerMagic][i]? = some field →
      readAt (trailerBytes payload records) (List.take i [leBytes 8 payload.length,
        leBytes 4 (crc32 payload), leBytes 8 records, backupTrailerMagic]).flatten.length field.length =
        field :=
    fun h => readAt_flatten h
  have hlength : fromLe (readAt (trailerBytes payload records) 0 8) = payload.length := by
    have h := hfield (i := 0) rfl
    rw [length_leBytes] at h
    rw [show readAt (trailerBytes payload records) 0 8 = leBytes 8 payload.length from h]
    exact fromLe_leBytes_of_lt hpayload
  have hcrc : fromLe (readAt (trailerBytes payload records) 8 4) = crc32 payload := by
    have h := hfield (i := 1) rfl
    rw [length_leBytes] at h
    rw [show readAt (trailerBytes payload records) 8 4 = leBytes 4 (crc32 payload) from h]
    exact fromLe_leBytes_of_lt (crc32_lt _)
  have hcount : fromLe (readAt (trailerBytes payload records) 12 8) = records := by
    have h := hfield (i := 2) rfl
    rw [length_leBytes] at h
    rw [show readAt (trailerBytes payload records) 12 8 = leBytes 8 records from h]
    exact fromLe_leBytes_of_lt hrecords
  have hmagic : readAt (trailerBytes payload records) 20 4 = backupTrailerMagic := hfield (i := 3) rfl
  refine ⟨?_, hcrc, hcount⟩
  simp only [checkTrailer, hlength, hcrc, hcount, hmagic, ne_eq, not_true_eq_false, if_false]

theorem intOfLe_leBytesOfInt {i : Int} (h : -2 ^ 63 ≤ i ∧ i < 2 ^ 63) : intOfLe (leBytesOfInt i) = i := by
  have hn : fromLe (leBytesOfInt i) = (i % 2 ^ 64).toNat := by
    rw [leBytesOfInt, fromLe_leBytes]
    apply Nat.mod_eq_of_lt
    have := Int.emod_lt_of_pos i (show (0 : Int) < 2 ^ 64 by decide)
    omega
  unfold intOfLe
  simp only [hn]
  split_ifs with hlt <;> omega

theorem header_snapshotVersion {snapshotVersion : Nat} (timestampNanos : Int) (isReplica : Bool)
    (totalMaps : Nat) (hversion : snapshotVersion < 2 ^ 64) :
    fromLe (readAt (headerBytes snapshotVersion timestampNanos isReplica totalMaps) 24 8) =
      snapshotVersion := by
  have h := @readAt_headerBytes snapshotVersion timestampNanos isReplica totalMaps 3 _ rfl
  rw [length_leBytes] at h
  exact (congrArg fromLe h).trans (fromLe_leBytes_of_lt hversion)

theorem header_timestampNanos (snapshotVersion : Nat) {timestampNanos : Int} (isReplica : Bool)
    (totalMaps : Nat) (htime : -2 ^ 63 ≤ timestampNanos ∧ timestampNanos < 2 ^ 63) :
    intOfLe (readAt (headerBytes snapshotVersion timestampNanos isReplica totalMaps) 32 8) =
      timestampNanos := by
  have h := @readAt_headerBytes snapshotVersion timestampNanos isReplica totalMaps 4 _ rfl
  rw [length_leBytesOfInt] at h
  exact (congrArg intOfLe h).trans (intOfLe_leBytesOfInt htime)

theorem header_totalMaps (snapshotVersion : Nat) (timestampNanos : Int) (isReplica : Bool)
    {totalMaps : Nat} (hcount : totalMaps < 2 ^ 32) :
    fromLe (readAt (headerBytes snapshotVersion timestampNanos isReplica totalMaps) 42 4) =
      totalMaps := by
  have h := @readAt_headerBytes snapshotVersion timestampNanos isReplica totalMaps 7 _ rfl
  rw [length_leBytes] at h
  exact (congrArg fromLe h).trans (fromLe_leBytes_of_lt hcount)

theorem lookup_foldl_insert (maps : BackupData) (names : List String) (acc : BackupData) (n : String) :
    (names.foldl (fun acc name => acc.insert name (entriesOf maps name)) acc).lookup n =
      if n ∈ names then some (entriesOf maps n) else acc.lookup n := by
  induction names generalizing acc with
  | nil => rfl
  | cons name names ih =>
    rw [foldl_cons, ih]
    by_cases hin : n ∈ names
    · rw [if_pos hin, if_pos (mem_cons_of_mem _ hin)]
    · rw [if_neg hin]
      by_cases hn : n = name
      · rw [hn, AList.lookup_insert, if_pos mem_cons_self]
      · rw [AList.lookup_insert_ne hn, if_neg (by simp [hn, hin])]

/-- A backup is read back with what was reported when it was written, and with the same entries under
the same names. -/
theorem readAndVerifyBinaryBackup_write {timestampNanos : Int}
    (htime : -2 ^ 63 ≤ timestampNanos ∧ timestampNanos < 2 ^ 63) {snapshotVersion : Nat}
    (hversion : snapshotVersion < 2 ^ 64) (isReplica : Bool) {maps : BackupData} (hfit : Fits maps) :
    ∃ data, readAndVerifyBinaryBackup
        (writeBinaryBackup timestampNanos snapshotVersion isReplica maps).1 =
        .ok ((writeBinaryBackup timestampNanos snapshotVersion isReplica maps).2, data) ∧
      ∀ n, data.lookup n = maps.lookup n := by
  have hperm : (sortedMapNames maps).Perm maps.keys := mergeSort_perm _ _
  have hlen : (sortedMapNames maps).length = maps.keys.length := hperm.length_eq
  refine ⟨(sortedMapNames maps).foldl (fun acc name => acc.insert name (entriesOf maps name)) ∅, ?_, ?_⟩
  · have hheader := readHeader_headerBytes snapshotVersion timestampNanos isReplica maps.keys.length
    have hsections := readSections_flatMap maps hfit (fun name h => hperm.mem_iff.mp h) ∅ 0
      (trailerBytes (payloadBytes maps) (recordCount maps))
    rw [hlen, ← payloadBytes, ← recordCount, Nat.zero_add] at hsections
    have htrailer : (trailerBytes (payloadBytes maps) (recordCount maps)).length = trailerSize := by
      simp [trailerBytes, trailerSize, backupTrailerMagic]
    have hexact := readExact_append htrailer []
    rw [append_nil] at hexact
    obtain ⟨hcheck, hchecksum, hrecords⟩ := checkTrailer_trailerBytes hfit.payload hfit.records
    simp only [readAndVerifyBinaryBackup, writeBinaryBackup, hheader, ok_bind,
      header_totalMaps _ _ _ hfit.count, hsections, take_read, hexact, hcheck, header_formatVersion,
      header_backupId, header_snapshotVersion _ _ _ hversion, header_timestampNanos _ _ _ htime,
      header_isReplica, hchecksum, hrecords]
    rfl
  · intro n
    rw [lookup_foldl_insert]
    cases hn : maps.lookup n with
    | none =>
      have hnot : n ∉ sortedMapNames maps := fun h => AList.lookup_eq_none.mp hn (hperm.mem_iff.mp h)
      rw [if_neg hnot, AList.lookup_empty]
    | some entries =>
      have hmem : n ∈ maps.keys := AList.lookup_isSome.mp (hn ▸ rfl)
      rw [if_pos (hperm.mem_iff.mpr hmem), entriesOf, hn, Option.getD_some]

end Backup

end H2Database.Mvstore
