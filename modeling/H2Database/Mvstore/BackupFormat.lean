import H2Database.Mvstore.Backup
import Mathlib.Algebra.Order.BigOperators.Group.List

/-!
# The two readers of a backup (`h2-mvstore/src/backup.rs`)

`read_binary_backup_internal` checks a file and keeps the entries only if it is asked to.  `load_entries`
makes no difference to what is checked, so verifying a backup and restoring it accept the same files.
-/

namespace H2Database.Mvstore.Backup

open Reasoning List

/-! ## Reading with and without the entries -/

/-- The entries that are kept, after as many as asked for have been read. -/
def readMapEntries (loadEntries : Bool) : Nat → Reader (Option (List (Key × List UInt8)))
  | 0, bs => pure (if loadEntries then some [] else none, bs)
  | n + 1, bs => do
    let (e, bs) ← readEntry bs
    let (es, bs) ← readMapEntries loadEntries n bs
    pure (es.map fun es => e :: es, bs)

/-- The name, the entries that are kept and the number of entries of one section. -/
def readMapSection (loadEntries : Bool) : Reader (String × Option (List (Key × List UInt8)) × Nat) :=
  fun start => do
  let (nameLen, bs) ← readUInt 4 start
  let (nameBytes, bs) ← readExact nameLen bs
  let some mapName := String.fromUTF8? ⟨nameBytes.toArray⟩
    | .error (.storage "Invalid map name in backup: ")
  let (entryCount, bs) ← readUInt 8 bs
  let (entries, bs) ← readMapEntries loadEntries entryCount bs
  let calculatedMapCrc := crc32 (start.take (start.length - bs.length))
  let (storedMapCrc, bs) ← readUInt 4 bs
  if storedMapCrc ≠ calculatedMapCrc then
    .error (.storage (s!"Checksum mismatch in map '{mapName}': stored 0x{hex08 storedMapCrc}" ++
      s!", calculated 0x{hex08 calculatedMapCrc}"))
  pure ((mapName, entries, entryCount), bs)

def readMapSections (loadEntries : Bool) : Nat → Option BackupData → Nat → Reader (Option BackupData × Nat)
  | 0, maps, records, bs => pure ((maps, records), bs)
  | n + 1, maps, records, bs => do
    let ((name, entries, entryCount), bs) ← readMapSection loadEntries bs
    readMapSections loadEntries n (maps.map fun m => m.insert name (entries.getD []))
      (records + entryCount) bs

def readBinaryBackupInternal (loadEntries : Bool) (file : List UInt8) :
    H2Result (BackupMetadata × Option BackupData) := do
  let (header, start) ← readHeader file
  let totalMaps := fromLe (readAt header 42 4)
  let ((maps, recordsCounted), bs) ←
    readMapSections loadEntries totalMaps (if loadEntries then some ∅ else none) 0 start
  let payload := start.take (start.length - bs.length)
  let (trailer, _) ← readExact trailerSize bs
  checkTrailer payload recordsCounted trailer
  pure ({ formatVersion := fromLe (readAt header 4 4)
          backupId := hexEncode (readAt header 8 16)
          snapshotVersion := fromLe (readAt header 24 8)
          timestampNanos := intOfLe (readAt header 32 8)
          isReplica := decide (readAt header 40 1 ≠ [0])
          totalMaps := totalMaps
          totalRecords := fromLe (readAt trailer 12 8)
          totalBytes := headerSize + payload.length + trailerSize
          checksum := fromLe (readAt trailer 8 4) }, maps)

def verifyBinaryBackup (file : List UInt8) : H2Result BackupMetadata :=
  (readBinaryBackupInternal false file).map Prod.fst

/-! ## They check the same -/

def kept {α : Type} (loadEntries : Bool) (a : α) : Option α := if loadEntries then some a else none

theorem readMapEntries_eq (loadEntries : Bool) (n : Nat) (bs : List UInt8) :
    readMapEntries loadEntries n bs = (readEntries n bs).map fun r => (kept loadEntries r.1, r.2) := by
  induction n generalizing bs with
  | zero => rfl
  | succ n ih =>
    rw [readMapEntries, readEntries]
    cases readEntry bs with
    | error e => rfl
    | ok r =>
      obtain ⟨e, rest⟩ := r
      simp only [ok_bind, ih]
      cases readEntries n rest with
      | error e => rfl
      | ok s => cases loadEntries <;> rfl

theorem length_of_readEntries {n : Nat} {bs rest : List UInt8} {es : List (Key × List UInt8)}
    (h : readEntries n bs = .ok (es, rest)) : es.length = n := by
  induction n generalizing bs es rest with
  | zero =>
    cases h
    rfl
  | succ n ih =>
    rw [readEntries] at h
    cases he : readEntry bs with
    | error e =>
      rw [he] at h
      cases h
    | ok r =>
      obtain ⟨e, bs'⟩ := r
      simp only [he, ok_bind] at h
      cases hs : readEntries n bs' with
      | error e =>
        rw [hs] at h
        cases h
      | ok s =>
        rw [hs] at h
        cases h
        rw [length_cons, ih hs]

theorem readMapSection_eq (loadEntries : Bool) (start : List UInt8) :
    readMapSection loadEntries start = (readSection start).map fun r =>
      ((r.1.1, kept loadEntries r.1.2, r.1.2.length), r.2) := by
  rw [readMapSection, readSection]
  cases readUInt 4 start with
  | error e => rfl
  | ok r =>
    obtain ⟨nameLen, bs⟩ := r
    simp only [ok_bind]
    cases readExact nameLen bs with
    | error e => rfl
    | ok r =>
      obtain ⟨nameBytes, bs⟩ := r
      simp only [ok_bind]
      cases String.fromUTF8? ⟨nameBytes.toArray⟩ with
      | none => rfl
      | some mapName =>
        simp only
        cases readUInt 8 bs with
        | error e => rfl
        | ok r =>
          obtain ⟨entryCount, bs⟩ := r
          simp only [ok_bind, readMapEntries_eq]
          cases hentries : readEntries entryCount bs with
          | error e => rfl
          | ok r =>
            obtain ⟨entries, bs⟩ := r
            obtain rfl := length_of_readEntries hentries
            simp only [Except.map, ok_bind]
            cases readUInt 4 bs with
            | error e => rfl
            | ok r =>
              obtain ⟨stored, bs⟩ := r
              simp only [ok_bind]
              split <;> rfl

theorem readMapSections_eq (loadEntries : Bool) (n : Nat) (maps : BackupData) (records : Nat)
    (bs : List UInt8) : readMapSections loadEntries n (kept loadEntries maps) records bs =
      (readSections n maps records bs).map fun r => ((kept loadEntries r.1.1, r.1.2), r.2) := by
  induction n generalizing maps records bs with
  | zero => rfl
  | succ n ih =>
    rw [readMapSections, readSections, readMapSection_eq]
    cases readSection bs with
    | error e => rfl
    | ok r =>
      obtain ⟨⟨name, entries⟩, rest⟩ := r
      have hmaps : ((kept loadEntries maps).map fun m => m.insert name ((kept loadEntries entries).getD [])) =
          kept loadEntries (maps.insert name entries) := by
        cases loadEntries <;> rfl
      simp only [Except.map, ok_bind, hmaps]
      exact ih _ _ _

theorem readBinaryBackupInternal_eq (loadEntries : Bool) (file : List UInt8) :
    readBinaryBackupInternal loadEntries file =
      (readAndVerifyBinaryBackup file).map fun r => (r.1, kept loadEntries r.2) := by
  rw [readBinaryBackupInternal, readAndVerifyBinaryBackup]
  cases readHeader file with
  | error e => rfl
  | ok r =>
    obtain ⟨header, start⟩ := r
    have hsections := readMapSections_eq loadEntries (fromLe (readAt header 42 4)) ∅ 0 start
    rw [kept] at hsections
    simp only [ok_bind, hsections]
    cases readSections (fromLe (readAt header 42 4)) ∅ 0 start with
    | error e => rfl
    | ok r =>
      obtain ⟨⟨maps, recordsCounted⟩, bs⟩ := r
      simp only [Except.map, ok_bind]
      cases readExact trailerSize bs with
      | error e => rfl
      | ok r =>
        obtain ⟨trailer, rest⟩ := r
        simp only [ok_bind]
        cases checkTrailer (start.take (start.length - bs.length)) recordsCounted trailer <;> rfl

theorem verifyBinaryBackup_eq (file : List UInt8) :
    verifyBinaryBackup file = (readAndVerifyBinaryBackup file).map Prod.fst := by
  rw [verifyBinaryBackup, readBinaryBackupInternal_eq]
  cases readAndVerifyBinaryBackup file <;> rfl

/-! ## Maps in memory -/

/-- The bytes that an entry takes: two vectors of three words, and what they hold. -/
def entryMemory (e : Key × List UInt8) : Nat := 48 + e.1.length + e.2.length

def mapMemory (maps : BackupData) (name : String) : Nat :=
  48 + name.toUTF8.data.toList.length + ((entriesOf maps name).map entryMemory).sum

/-- Maps of a size that the format can tell, in an address space of 64 bits. -/
structure Held (maps : BackupData) : Prop where
  count : maps.keys.length < 2 ^ 32
  name : ∀ name ∈ maps.keys, name.toUTF8.data.toList.length < 2 ^ 32
  entry : ∀ name ∈ maps.keys, ∀ e ∈ entriesOf maps name, e.1.length < 2 ^ 32 ∧ e.2.length < 2 ^ 32
  memory : (maps.keys.map (mapMemory maps)).sum < 2 ^ 64

theorem length_entriesOf_le (maps : BackupData) (name : String) :
    (entriesOf maps name).length ≤ mapMemory maps name := by
  have hsum : ∀ entries : List (Key × List UInt8), entries.length ≤ (entries.map entryMemory).sum := by
    intro entries
    induction entries with
    | nil => exact Nat.le_refl _
    | cons e entries ih =>
      rw [length_cons, map_cons, sum_cons, entryMemory]
      omega
  have h := hsum (entriesOf maps name)
  rw [mapMemory]
  omega

theorem length_sectionBytes_le (maps : BackupData) (name : String) :
    (sectionBytes name (entriesOf maps name)).length ≤ mapMemory maps name := by
  have hentries : ∀ entries : List (Key × List UInt8),
      (entries.flatMap entryBytes).length ≤ (entries.map entryMemory).sum := by
    intro entries
    induction entries with
    | nil => exact Nat.le_refl _
    | cons e entries ih =>
      have he : (entryBytes e).length ≤ entryMemory e := by
        simp only [entryBytes, entryMemory, length_append, length_leBytes]
        omega
      rw [flatMap_cons, length_append, map_cons, sum_cons]
      omega
  have h := hentries (entriesOf maps name)
  simp only [sectionBytes, sectionBody, mapMemory, length_append, length_leBytes]
  omega

variable {maps : BackupData}

theorem sum_sortedMapNames_le {f : String → Nat} (h : ∀ name, f name ≤ mapMemory maps name) :
    ((sortedMapNames maps).map f).sum ≤ (maps.keys.map (mapMemory maps)).sum := by
  have hperm : (sortedMapNames maps).Perm maps.keys := mergeSort_perm _ _
  rw [(hperm.map f).sum_eq]
  exact sum_le_sum fun name _ => h name

theorem entriesOf_of_notMem {name : String} (h : name ∉ maps.keys) :
    entriesOf maps name = [] := by
  rw [entriesOf, AList.lookup_eq_none.mpr h]
  rfl

theorem Held.fits (h : Held maps) : Fits maps where
  count := h.count
  name := h.name
  entries := by
    intro name
    by_cases hmem : name ∈ maps.keys
    · have hle := length_entriesOf_le maps name
      have hsum := single_le_sum (fun n _ => Nat.zero_le n) _
        (mem_map_of_mem (f := mapMemory maps) hmem)
      exact (hle.trans hsum).trans_lt h.memory
    · rw [entriesOf_of_notMem hmem]
      decide
  entry := by
    intro name e he
    by_cases hmem : name ∈ maps.keys
    · exact h.entry name hmem e he
    · rw [entriesOf_of_notMem hmem] at he
      exact absurd he not_mem_nil
  payload := by
    rw [payloadBytes, length_flatMap]
    exact (sum_sortedMapNames_le (length_sectionBytes_le maps)).trans_lt h.memory
  records := (sum_sortedMapNames_le (length_entriesOf_le maps)).trans_lt h.memory

/-- A backup is read back as it was written, and a file is verified exactly as it is read. -/
theorem binaryBackup_roundTrip (timestampNanos : Int64) (snapshotVersion : UInt64) (isReplica : Bool)
    {maps : BackupData} (h : Held maps) :
    (∃ data, readAndVerifyBinaryBackup
        (writeBinaryBackup timestampNanos.toInt snapshotVersion.toNat isReplica maps).1 =
        .ok ((writeBinaryBackup timestampNanos.toInt snapshotVersion.toNat isReplica maps).2, data) ∧
      ∀ name, data.lookup name = maps.lookup name) ∧
    ∀ file metadata, verifyBinaryBackup file = .ok metadata ↔
      ∃ data, readAndVerifyBinaryBackup file = .ok (metadata, data) := by
  constructor
  · exact readAndVerifyBinaryBackup_write ⟨Int64.le_toInt _, Int64.toInt_lt _⟩ (UInt64.toNat_lt _)
      isReplica h.fits
  · intro file metadata
    rw [verifyBinaryBackup_eq]
    cases readAndVerifyBinaryBackup file with
    | error e => simp [Except.map]
    | ok r =>
      obtain ⟨metadata', data⟩ := r
      simp [Except.map]

def twoMaps : BackupData :=
  ((∅ : BackupData).insert "users" [([1], [2]), ([1, 0], [])]).insert "orders" []

theorem held_twoMaps : Held twoMaps := ⟨by decide, by decide, by decide, by decide⟩

theorem binaryBackup_roundTrip_twoMaps :
    (∃ data, readAndVerifyBinaryBackup (writeBinaryBackup 1 2 true twoMaps).1 =
        .ok ((writeBinaryBackup 1 2 true twoMaps).2, data) ∧ ∀ name, data.lookup name = twoMaps.lookup name) ∧
    ∀ file metadata, verifyBinaryBackup file = .ok metadata ↔
      ∃ data, readAndVerifyBinaryBackup file = .ok (metadata, data) :=
  binaryBackup_roundTrip 1 2 true held_twoMaps

end H2Database.Mvstore.Backup
