import H2Database.Mvstore.Archive
import H2Database.Mvstore.Backup
import H2Database.Mvstore.Edits
import Mathlib.Data.List.TakeWhile

/-!
# Backup and point-in-time recovery (`h2-mvstore/src/store.rs`)

`dump_backup`, `restore_backup` and `restore_pitr` on a store of raw values.  A restore opens, empties
and fills the maps of the backup one by one; a map that only the target has stays as it is.  Recovery
then replays archived records up to the first one that fails a test on its version, time or transaction.
-/

namespace H2Database.Mvstore

open Reasoning List Function

inductive RecoveryTarget where
  | timestampNanos (t : Int)
  | version (v : Nat)
  | transactionId (tx : Nat)
  | latest
  deriving DecidableEq, Repr

structure RestoreReport where
  baseSnapshotVersion : Nat
  finalRecoveredVersion : Nat
  recordsReplayed : Nat
  targetReached : Bool
  isReplicaBackup : Bool
  deriving DecidableEq, Repr

namespace MVStore

def backupData (s : MVStore (List UInt8)) : BackupData :=
  s.maps.tabulate fun m => m.tree.scanAll.map fun e => (e.key, e.value)

/-- `dump_backup_with_role` at the time `timestampNanos`: the file and what is reported. -/
def dumpBackupWithRole (s : MVStore (List UInt8)) (timestampNanos : Int) (isReplica : Bool) :
    List UInt8 × BackupMetadata :=
  Backup.writeBinaryBackup timestampNanos s.version isReplica s.backupData

def dumpBackup (s : MVStore (List UInt8)) (timestampNanos : Int) : List UInt8 × BackupMetadata :=
  s.dumpBackupWithRole timestampNanos false

def setVersion {V : Type} (s : MVStore V) (ver : Nat) : MVStore V :=
  { s with version := ver, nextCommitVersion := max s.nextCommitVersion ver }

def restoreMap (s : MVStore (List UInt8)) (name : String) (entries : List (Key × List UInt8)) :
    MVStore (List UInt8) :=
  let (id, s) := s.openMap name
  s.update id fun m => entries.foldl (fun m e => m.put e.1 e.2) m.clear

def restoreData (s : MVStore (List UInt8)) (data : BackupData) : MVStore (List UInt8) :=
  data.entries.foldl (fun s e => s.restoreMap e.1 e.2) s

def restoreBackup (s : MVStore (List UInt8)) (file : List UInt8) (io : WriteOutcome) :
    H2Result Unit × MVStore (List UInt8) :=
  match Backup.readAndVerifyBinaryBackup file with
  | .error e => (.error e, s)
  | .ok (metadata, data) =>
    let s := s.restoreData data
    let s := if 0 < metadata.snapshotVersion then s.setVersion metadata.snapshotVersion else s
    match s.checkpoint io with
    | (.error e, s) => (.error e, s)
    | (.ok _, s) => (.ok (), s)

/-- The test the loop of `restore_pitr` makes of each record. -/
def shouldApply (target : RecoveryTarget) (record : WalRecord (List UInt8)) : Bool :=
  match target with
  | .version v => decide (record.commitVersion ≤ v)
  | .timestampNanos t => decide (record.timestampNanos ≤ t)
  | .transactionId tx => decide (record.txId ≤ tx)
  | .latest => true

/-- What the loop of `restore_pitr` carries along. -/
structure Recovering where
  store : MVStore (List UInt8)
  finalRecoveredVersion : Nat
  recordsReplayed : Nat
  targetReached : Bool

/-- The loop: it ends with the records or at the first one that is not to be applied. -/
def rollForward (target : RecoveryTarget) (r : Recovering) : List (WalRecord (List UInt8)) → Recovering
  | [] => r
  | record :: records =>
    if shouldApply target record then
      rollForward target
        { r with
          store := record.changes.foldl applyWalChange r.store
          finalRecoveredVersion := record.commitVersion
          recordsReplayed := r.recordsReplayed + 1 } records
    else { r with targetReached := true }

def restorePitr (bc : Bincode (WalRecord (List UInt8))) (s : MVStore (List UInt8)) (file : List UInt8)
    (archiveDir : Option Directory) (target : RecoveryTarget) (io : WriteOutcome) :
    H2Result RestoreReport × MVStore (List UInt8) :=
  match Backup.readAndVerifyBinaryBackup file with
  | .error e => (.error e, s)
  | .ok (metadata, data) =>
    let base := (s.restoreData data).setVersion metadata.snapshotVersion
    let start : Recovering := ⟨base, metadata.snapshotVersion, 0, true⟩
    let r := match archiveDir with
      | some dir => rollForward target start (Archive.readArchiveRecords bc dir metadata.snapshotVersion)
      | none => start
    match (r.store.setVersion r.finalRecoveredVersion).checkpoint io with
    | (.error e, s) => (.error e, s)
    | (.ok _, s) => (.ok ⟨metadata.snapshotVersion, r.finalRecoveredVersion, r.recordsReplayed,
        r.targetReached, metadata.isReplica⟩, s)

/-! ## What a restore leaves -/

variable {io : WriteOutcome} {src t t' : MVStore (List UInt8)} {timestampNanos : Int}
  {records : List (WalRecord (List UInt8))}

theorem contents_checkpoint {V : Type} {s s' : MVStore V} {v : Nat} (h : s.checkpoint io = (.ok v, s')) :
    contents s'.maps = contents s.maps := by
  unfold checkpoint at h
  split at h
  · cases h
  · cases h
  · cases h
    exact contents_mapNamed s.drain_get

theorem contents_openMap {V : Type} (s : MVStore V) (name : String) :
    contents (s.openMap name).2.maps = Function.update (contents s.maps) name
      (some ((contents s.maps name).getD fun _ => none)) := by
  unfold openMap
  split
  · rename_i id hid
    obtain ⟨m, hm⟩ := Registry.deref_of_find hid
    have hget : contents s.maps name = some m.get := by
      rw [contents, Registry.get_of_find hid, hm, Option.map_some]
    rw [hget, Option.getD_some, ← hget, update_eq_self]
  · rename_i hnone
    have hget : contents s.maps name = none := by
      rw [contents, Registry.get_eq_none.mpr hnone, Option.map_none]
    rw [hget]
    exact contents_create s.maps name _

def boundBy (entries : List (Key × List UInt8)) : Key → Option (List UInt8) :=
  Patch.replay (entries.map fun e => (e.1, some e.2)) fun _ => none

theorem get_refilled (entries : List (Key × List UInt8)) (m : MVMap (List UInt8)) :
    (entries.foldl (fun m e => m.put e.1 e.2) m.clear).get = boundBy entries := by
  have h := applyChanges_get (entries.map fun e => (e.1, some e.2)) m.clear
  rw [foldl_map, MVMap.clear_get] at h
  exact h

theorem contents_restoreMap (s : MVStore (List UInt8)) (name : String)
    (entries : List (Key × List UInt8)) :
    contents (s.restoreMap name entries).maps =
      Function.update (contents s.maps) name (some (boundBy entries)) := by
  have hfind := find_openMap_self s name
  obtain ⟨m, hm⟩ := Registry.deref_of_find hfind
  change contents ((s.openMap name).2.maps.modify (s.openMap name).1 _) = _
  rw [contents_modify hfind, contents_openMap, Registry.get_of_find hfind, hm, Option.map_some,
    get_refilled, update_idem]

theorem contents_restoreData (s : MVStore (List UInt8)) (data : BackupData) (n : String) :
    contents (s.restoreData data).maps n =
      match data.lookup n with
      | some entries => some (boundBy entries)
      | none => contents s.maps n := by
  obtain ⟨entries, hnd⟩ := data
  change contents (entries.foldl (fun s e => s.restoreMap e.1 e.2) s).maps n =
    match List.dlookup n entries with
    | some entries => some (boundBy entries)
    | none => contents s.maps n
  induction entries generalizing s with
  | nil => rfl
  | cons e entries ih =>
    obtain ⟨hnot, hnd'⟩ := nodupKeys_cons.mp hnd
    rw [foldl_cons, ih _ hnd']
    by_cases hn : n = e.1
    · subst hn
      rw [dlookup_eq_none.mpr hnot, dlookup_cons_eq, contents_restoreMap, update_self]
    · rw [dlookup_cons_ne _ _ hn, contents_restoreMap, update_of_ne hn]

theorem boundBy_scanAll (t : MVTree Key (List UInt8)) :
    boundBy (t.scanAll.map fun e => (e.key, e.value)) = t.get := by
  have hkeys : (t.scanAll.map fun e => (⟨e.key, some e.value⟩ :
      Sigma fun _ : Key => Option (List UInt8))).NodupKeys := by
    rw [List.NodupKeys, List.keys, map_map]
    exact t.sorted_scanAll.imp fun h => h.ne
  have hreplay := Patch.replay_entries hkeys fun _ => none
  rw [map_map] at hreplay
  funext k
  rw [boundBy, map_map]
  refine (hreplay k).trans ?_
  cases hget : t.get k with
  | some v =>
    have hmem : (⟨k, v⟩ : Entry Key (List UInt8)) ∈ t.scanAll := (t.mem_scanAll k v).mpr hget
    rw [mem_dlookup hkeys (mem_map.mpr ⟨_, hmem, rfl⟩)]
  | none =>
    have hnone : List.dlookup k (t.scanAll.map fun e => (⟨e.key, some e.value⟩ :
        Sigma fun _ : Key => Option (List UInt8))) = none := by
      rw [dlookup_eq_none, List.keys, map_map, mem_map]
      rintro ⟨e, he, heq⟩
      have := (t.mem_scanAll e.key e.value).mp he
      rw [show e.key = k from heq, hget] at this
      cases this
    rw [hnone]

theorem contents_restored {data : BackupData} (hdata : ∀ n, data.lookup n = src.backupData.lookup n)
    (s : MVStore (List UInt8)) (n : String) :
    contents (s.restoreData data).maps n = (contents src.maps n).or (contents s.maps n) := by
  rw [contents_restoreData, hdata, backupData, Registry.lookup_tabulate]
  unfold contents
  cases src.maps.get n with
  | none => rfl
  | some m =>
    simp only [Option.map_some, Option.some_or]
    rw [boundBy_scanAll]
    rfl

theorem or_eq_left_iff (c d : Contents (List UInt8)) :
    (fun n => (c n).or (d n)) = c ↔ ∀ n, (d n).isSome → (c n).isSome := by
  constructor
  · intro h n hd
    rw [← h]
    exact Option.isSome_or.trans (by rw [hd, Bool.or_true])
  · intro h
    funext n
    cases hc : c n with
    | some f => rfl
    | none =>
      cases hd : d n with
      | none => rfl
      | some g =>
        have := h n (by rw [hd]; rfl)
        rw [hc] at this
        cases this

variable {isReplica : Bool}

theorem restoreBackup_contents (htime : -2 ^ 63 ≤ timestampNanos ∧ timestampNanos < 2 ^ 63)
    (hversion : src.version < 2 ^ 64) (hfit : Backup.Fits src.backupData)
    (h : t.restoreBackup (src.dumpBackupWithRole timestampNanos isReplica).1 io = (.ok (), t')) :
    contents t'.maps = fun n => (contents src.maps n).or (contents t.maps n) := by
  obtain ⟨data, hread, hdata⟩ := Backup.readAndVerifyBinaryBackup_write htime hversion isReplica hfit
  simp only [restoreBackup, dumpBackupWithRole, hread] at h
  split at h
  · cases h
  · rename_i v s' hcheckpoint
    cases h
    rw [contents_checkpoint hcheckpoint]
    funext n
    rw [← contents_restored hdata]
    split_ifs <;> rfl

variable {bc : Bincode (WalRecord (List UInt8))} {target : RecoveryTarget} {report : RestoreReport}

theorem restorePitr_contents (htime : -2 ^ 63 ≤ timestampNanos ∧ timestampNanos < 2 ^ 63)
    (hversion : src.version < 2 ^ 64) (hfit : Backup.Fits src.backupData)
    (h : t.restorePitr bc (src.dumpBackupWithRole timestampNanos isReplica).1 none target io =
      (.ok report, t')) :
    contents t'.maps = fun n => (contents src.maps n).or (contents t.maps n) := by
  obtain ⟨data, hread, hdata⟩ := Backup.readAndVerifyBinaryBackup_write htime hversion isReplica hfit
  simp only [restorePitr, dumpBackupWithRole, hread] at h
  split at h
  · cases h
  · rename_i v s' hcheckpoint
    cases h
    rw [contents_checkpoint hcheckpoint]
    funext n
    rw [← contents_restored hdata]
    rfl

/-- A restore from a backup, or a recovery without an archive, leaves exactly the maps and entries of
the backup if and only if every map the target had is a map of the backup. -/
theorem restore_exact_iff (src t : MVStore (List UInt8)) (timestampNanos : Int)
    (htime : -2 ^ 63 ≤ timestampNanos ∧ timestampNanos < 2 ^ 63) (hversion : src.version < 2 ^ 64)
    (hfit : Backup.Fits src.backupData) (isReplica : Bool) (io : WriteOutcome) :
    (∀ t', t.restoreBackup (src.dumpBackupWithRole timestampNanos isReplica).1 io = (.ok (), t') →
      (contents t'.maps = contents src.maps ↔
        ∀ n, (t.maps.find n).isSome → (src.maps.find n).isSome)) ∧
    ∀ bc target report t', t.restorePitr bc (src.dumpBackupWithRole timestampNanos isReplica).1 none
        target io = (.ok report, t') →
      (contents t'.maps = contents src.maps ↔
        ∀ n, (t.maps.find n).isSome → (src.maps.find n).isSome) := by
  have hnames : (fun n => (contents src.maps n).or (contents t.maps n)) = contents src.maps ↔
      ∀ n, (t.maps.find n).isSome → (src.maps.find n).isSome := by
    rw [or_eq_left_iff]
    simp only [isSome_contents]
  constructor
  · intro t' h
    rw [restoreBackup_contents htime hversion hfit h, hnames]
  · intro bc target report t' h
    rw [restorePitr_contents htime hversion hfit h, hnames]

def oneEntry (name : String) (k v : UInt8) : MVStore (List UInt8) :=
  new.applyWalChange ⟨name, [k], some [v]⟩

theorem fits_oneEntry : Backup.Fits (oneEntry "items" 1 7).backupData := by
  have hdata : (oneEntry "items" 1 7).backupData = AList.singleton "items" [([1], [7])] := rfl
  have hentries : ∀ n, Backup.entriesOf (oneEntry "items" 1 7).backupData n =
      if n = "items" then [([1], [7])] else [] := by
    intro n
    rw [hdata]
    change (List.dlookup n [(⟨"items", [([1], [7])]⟩ : Sigma fun _ : String =>
      List (Key × List UInt8))]).getD [] = _
    by_cases hn : n = "items"
    · subst hn
      rfl
    · rw [dlookup_cons_ne _ _ hn, if_neg hn]
      rfl
  have hnames : Backup.sortedMapNames (oneEntry "items" 1 7).backupData = ["items"] := by
    rw [hdata]
    exact mergeSort_singleton _
  refine ⟨by decide, ?_, ?_, ?_, ?_, ?_⟩
  · intro n hn
    have hitems : n ∈ ["items"] := hn
    rw [mem_singleton.mp hitems]
    decide
  · intro n
    rw [hentries]
    split_ifs <;> decide
  · intro n e he
    rw [hentries] at he
    split_ifs at he
    · rw [mem_singleton.mp he]
      decide
    · cases he
  · rw [Backup.payloadBytes, hnames, flatMap_singleton, hentries, if_pos rfl]
    decide
  · rw [Backup.recordCount, hnames, map_singleton, hentries, if_pos rfl]
    decide

theorem restore_exact_iff_oneEntry :
    (∀ t', new.restoreBackup ((oneEntry "items" 1 7).dumpBackupWithRole 0 false).1 .done =
        (.ok (), t') →
      (contents t'.maps = contents (oneEntry "items" 1 7).maps ↔
        ∀ n, ((new : MVStore (List UInt8)).maps.find n).isSome →
          ((oneEntry "items" 1 7).maps.find n).isSome)) ∧
    ∀ bc target report t', new.restorePitr bc
        ((oneEntry "items" 1 7).dumpBackupWithRole 0 false).1 none target .done = (.ok report, t') →
      (contents t'.maps = contents (oneEntry "items" 1 7).maps ↔
        ∀ n, ((new : MVStore (List UInt8)).maps.find n).isSome →
          ((oneEntry "items" 1 7).maps.find n).isSome) :=
  restore_exact_iff (oneEntry "items" 1 7) new 0 (by decide) (by decide) fits_oneEntry false .done

/-- A backup with the map `items` is restored into a store with the map `drafts`, which stays. -/
theorem restoreBackup_keeps_map :
    ∃ t', (oneEntry "drafts" 2 9).restoreBackup ((oneEntry "items" 1 7).dumpBackup 0).1 .done =
        (.ok (), t') ∧
      contents (oneEntry "items" 1 7).maps "drafts" = none ∧
      binding (contents t'.maps) "drafts" [2] = some [9] := by
  obtain ⟨data, hread, hdata⟩ := Backup.readAndVerifyBinaryBackup_write
    (show -2 ^ 63 ≤ (0 : Int) ∧ (0 : Int) < 2 ^ 63 by decide)
    (show (oneEntry "items" 1 7).version < 2 ^ 64 by decide) false fits_oneEntry
  have hok : ∃ t', (oneEntry "drafts" 2 9).restoreBackup ((oneEntry "items" 1 7).dumpBackup 0).1 .done =
      (.ok (), t') := by
    refine ⟨((oneEntry "drafts" 2 9).restoreBackup ((oneEntry "items" 1 7).dumpBackup 0).1 .done).2, ?_⟩
    simp only [restoreBackup, dumpBackup, dumpBackupWithRole, hread, checkpoint, WriteOutcome.done]
  obtain ⟨t', ht'⟩ := hok
  have hnone : contents (oneEntry "items" 1 7).maps "drafts" = none := rfl
  refine ⟨t', ht', hnone, ?_⟩
  rw [restoreBackup_contents (by decide) (by decide) fits_oneEntry ht', binding, hnone]
  rfl

/-! ## How far a recovery goes -/

def overlay (c : Contents (List UInt8)) (change : WalChange (List UInt8)) : Contents (List UInt8) :=
  Function.update c change.mapName
    (some (Function.update ((c change.mapName).getD fun _ => none) change.key change.value))

theorem contents_applyWalChange (s : MVStore (List UInt8)) (change : WalChange (List UInt8)) :
    contents (s.applyWalChange change).maps = overlay (contents s.maps) change := by
  have hfind := find_openMap_self s change.mapName
  have hopen := contents_openMap s change.mapName
  change contents ((s.openMap change.mapName).2.maps.modify (s.openMap change.mapName).1 _) = _
  obtain ⟨m, hm⟩ := Registry.deref_of_find hfind
  have hmget : m.get = (contents s.maps change.mapName).getD fun _ => none := by
    have h := congrFun hopen change.mapName
    rw [contents, Registry.get_of_find hfind, hm, Option.map_some, update_self] at h
    exact Option.some.inj h
  rw [contents_modify hfind, hopen, Registry.get_of_find hfind, hm, Option.map_some, applyChange_get,
    hmget, update_idem, overlay]

theorem contents_applyWalChanges (changes : List (WalChange (List UInt8))) (s : MVStore (List UInt8)) :
    contents (changes.foldl applyWalChange s).maps = changes.foldl overlay (contents s.maps) := by
  induction changes generalizing s with
  | nil => rfl
  | cons c changes ih => rw [foldl_cons, ih, contents_applyWalChange, foldl_cons]

def rolledForward (c : Contents (List UInt8)) (records : List (WalRecord (List UInt8))) :
    Contents (List UInt8) :=
  (records.flatMap WalRecord.changes).foldl overlay c

def upToTransaction (tx : Nat) : List (WalRecord (List UInt8)) → List (WalRecord (List UInt8))
  | [] => []
  | record :: records =>
    if record.txId = tx then [record] else record :: upToTransaction tx records

def meantRecords (target : RecoveryTarget) (records : List (WalRecord (List UInt8))) :
    List (WalRecord (List UInt8)) :=
  match target with
  | .version v => records.filter fun r => decide (r.commitVersion ≤ v)
  | .timestampNanos t => records.takeWhile fun r => decide (r.timestampNanos ≤ t)
  | .transactionId tx => upToTransaction tx records
  | .latest => records

/-- A recovery from a base at version `base` that replayed the first `count` records got as far as the
target: the archive goes on to the version or time, or the transaction is among the replayed ones. -/
def Reaches (base : Nat) (target : RecoveryTarget) (records : List (WalRecord (List UInt8)))
    (count : Nat) : Prop :=
  match target with
  | .version v => v ≤ base ∨ ∃ r ∈ records, v ≤ r.commitVersion
  | .timestampNanos t => ∃ r ∈ records, t ≤ r.timestampNanos
  | .transactionId tx => ∃ r ∈ records.take count, r.txId = tx
  | .latest => True

/-- A recovery did what its target asks for, and says no more than that: it replayed the meant records
over the bindings of the base, and it reports the target as reached only where it got there. -/
structure Recovered (base : Nat) (c : Contents (List UInt8)) (target : RecoveryTarget)
    (records : List (WalRecord (List UInt8))) (report : RestoreReport) (s : MVStore (List UInt8)) :
    Prop where
  bindings : contents s.maps = rolledForward c (meantRecords target records)
  replayed : report.recordsReplayed = (meantRecords target records).length
  version : report.finalRecoveredVersion =
    ((meantRecords target records).getLast?.map WalRecord.commitVersion).getD base
  reached : report.targetReached = true → Reaches base target records report.recordsReplayed

/-- Every record before the first one of the transaction belongs to a smaller transaction number, and the
record right behind it to a larger one. -/
def TransactionInOrder (tx : Nat) (records : List (WalRecord (List UInt8))) : Prop :=
  (∀ r ∈ records.takeWhile fun r => decide (r.txId ≠ tx), r.txId < tx) ∧
    ∀ r ∈ (records.dropWhile fun r => decide (r.txId ≠ tx)).tail.head?, tx < r.txId

/-- When a recovery does what its target asks for: the archive must go as far as a version or a time, and
around a transaction the numbers must be in order. -/
def TargetHeld (base : Nat) (target : RecoveryTarget) (records : List (WalRecord (List UInt8))) : Prop :=
  match target with
  | .version v => v ≤ base ∨ ∃ r ∈ records, v ≤ r.commitVersion
  | .timestampNanos t => ∃ r ∈ records, t ≤ r.timestampNanos
  | .transactionId tx => TransactionInOrder tx records
  | .latest => True

/-! The loop replays the records up to the first that fails the test, and the flag it was given as set
stays set. -/

theorem rollForward_eq (target : RecoveryTarget) (r : Recovering)
    (records : List (WalRecord (List UInt8))) :
    (rollForward target r records).store =
        ((records.takeWhile (shouldApply target)).flatMap WalRecord.changes).foldl applyWalChange r.store ∧
      (rollForward target r records).finalRecoveredVersion =
        ((records.takeWhile (shouldApply target)).getLast?.map WalRecord.commitVersion).getD
          r.finalRecoveredVersion ∧
      (rollForward target r records).recordsReplayed =
        r.recordsReplayed + (records.takeWhile (shouldApply target)).length ∧
      (r.targetReached = true → (rollForward target r records).targetReached = true) := by
  induction records generalizing r with
  | nil => exact ⟨rfl, rfl, rfl, id⟩
  | cons record records ih =>
    unfold rollForward
    cases happly : shouldApply target record with
    | false =>
      rw [takeWhile_cons_of_neg (by rw [happly]; exact Bool.false_ne_true)]
      exact ⟨rfl, rfl, rfl, fun _ => rfl⟩
    | true =>
      rw [takeWhile_cons_of_pos happly, if_pos rfl]
      obtain ⟨hstore, hversion, hcount, hreached⟩ := ih
        { r with
          store := record.changes.foldl applyWalChange r.store
          finalRecoveredVersion := record.commitVersion
          recordsReplayed := r.recordsReplayed + 1 }
      refine ⟨?_, ?_, ?_, hreached⟩
      · rw [hstore, flatMap_cons, foldl_append]
      · rw [hversion, getLast?_cons]
        cases (records.takeWhile (shouldApply target)).getLast? with
        | none => rfl
        | some last => rfl
      · rw [hcount, length_cons]
        simp only
        omega

theorem upToTransaction_isPrefix (tx : Nat) (records : List (WalRecord (List UInt8))) :
    upToTransaction tx records <+: records := by
  induction records with
  | nil => exact prefix_rfl
  | cons r records ih =>
    rw [upToTransaction]
    split_ifs
    · exact cons_prefix_cons.mpr ⟨rfl, nil_prefix⟩
    · exact cons_prefix_cons.mpr ⟨rfl, ih⟩

variable {tx : Nat}

theorem mem_upToTransaction (h : ∃ r ∈ records, r.txId = tx) :
    ∃ r ∈ upToTransaction tx records, r.txId = tx := by
  induction records with
  | nil => exact absurd h (by simp)
  | cons r records ih =>
    rw [upToTransaction]
    split_ifs with htx
    · exact ⟨r, mem_cons_self, htx⟩
    · obtain ⟨q, hq, hqtx⟩ := h
      have hin : q ∈ records := (mem_cons.mp hq).resolve_left fun heq => htx (heq ▸ hqtx)
      obtain ⟨p, hp, hptx⟩ := ih ⟨q, hin, hqtx⟩
      exact ⟨p, mem_cons_of_mem _ hp, hptx⟩

theorem transactionInOrder_cons {r : WalRecord (List UInt8)} (hr : r.txId ≠ tx)
    (records : List (WalRecord (List UInt8))) :
    TransactionInOrder tx (r :: records) ↔ r.txId < tx ∧ TransactionInOrder tx records := by
  unfold TransactionInOrder
  rw [takeWhile_cons_of_pos (by simpa using hr), dropWhile_cons_of_pos (by simpa using hr),
    forall_mem_cons, and_assoc]

/-- The test on transaction numbers stops right behind the transaction exactly where the numbers around
it are in order. -/
theorem length_takeWhile_transaction (h : ∃ r ∈ records, r.txId = tx) :
    (records.takeWhile (shouldApply (.transactionId tx))).length = (upToTransaction tx records).length ↔
      TransactionInOrder tx records := by
  induction records with
  | nil => exact absurd h (by simp)
  | cons r records ih =>
    by_cases htx : r.txId = tx
    · have happly : shouldApply (.transactionId tx) r = true := decide_eq_true (Nat.le_of_eq htx)
      rw [takeWhile_cons_of_pos happly, upToTransaction, if_pos htx, length_cons,
        length_singleton, TransactionInOrder, takeWhile_cons_of_neg (by simp [htx]),
        dropWhile_cons_of_neg (by simp [htx]), tail_cons]
      -- nothing may be replayed behind the transaction
      cases records with
      | nil => simp
      | cons q records =>
        by_cases hq : q.txId ≤ tx
        · rw [takeWhile_cons_of_pos (by simpa [shouldApply] using hq)]
          simp only [length_cons, head?_cons, Option.mem_some_iff, forall_eq']
          constructor
          · intro hlen
            omega
          · rintro ⟨-, hlt⟩
            omega
        · rw [takeWhile_cons_of_neg (by simpa [shouldApply] using hq)]
          simp only [length_nil, head?_cons, Option.mem_some_iff, forall_eq']
          exact ⟨fun _ => ⟨fun _ hmem => absurd hmem not_mem_nil, Nat.lt_of_not_le hq⟩,
            fun _ => trivial⟩
    · have hin : ∃ q ∈ records, q.txId = tx := by
        obtain ⟨q, hq, hqtx⟩ := h
        exact ⟨q, (mem_cons.mp hq).resolve_left fun heq => htx (heq ▸ hqtx), hqtx⟩
      rw [transactionInOrder_cons htx, upToTransaction, if_neg htx, length_cons]
      by_cases hle : r.txId ≤ tx
      · rw [takeWhile_cons_of_pos (by simpa [shouldApply] using hle), length_cons, Nat.succ_inj, ih hin]
        exact ⟨fun hord => ⟨Nat.lt_of_le_of_ne hle htx, hord⟩, fun hord => hord.2⟩
      · -- a larger number before the transaction ends the replay too early
        rw [takeWhile_cons_of_neg (by simpa [shouldApply] using hle)]
        constructor
        · intro hlen
          cases hlen
        · rintro ⟨hlt, -⟩
          omega

theorem takeWhile_eq_upToTransaction (hlen : (records.takeWhile (shouldApply (.transactionId tx))).length =
      (upToTransaction tx records).length) :
    records.takeWhile (shouldApply (.transactionId tx)) = upToTransaction tx records := by
  have hpre := prefix_of_prefix_length_le (List.takeWhile_prefix _)
    (upToTransaction_isPrefix tx records) (Nat.le_of_eq hlen)
  exact hpre.eq_of_length hlen

theorem restorePitr_spec
    (htime : -2 ^ 63 ≤ timestampNanos ∧ timestampNanos < 2 ^ 63) (hversion : src.version < 2 ^ 64)
    (hfit : Backup.Fits src.backupData) {dir : Directory}
    (h : t.restorePitr bc (src.dumpBackupWithRole timestampNanos isReplica).1 (some dir) target io =
      (.ok report, t')) :
    let kept := (Archive.readArchiveRecords bc dir src.version).takeWhile (shouldApply target)
    contents t'.maps = rolledForward (fun n => (contents src.maps n).or (contents t.maps n)) kept ∧
      report.recordsReplayed = kept.length ∧
      report.finalRecoveredVersion = (kept.getLast?.map WalRecord.commitVersion).getD src.version ∧
      report.targetReached = true := by
  obtain ⟨data, hread, hdata⟩ := Backup.readAndVerifyBinaryBackup_write htime hversion isReplica hfit
  have hmeta : (Backup.writeBinaryBackup timestampNanos src.version isReplica
      src.backupData).2.snapshotVersion = src.version := rfl
  simp only [restorePitr, dumpBackupWithRole, hread, hmeta] at h
  obtain ⟨hstore, hfinal, hcount, hreached⟩ := rollForward_eq target
    ⟨(t.restoreData data).setVersion src.version, src.version, 0, true⟩
    (Archive.readArchiveRecords bc dir src.version)
  split at h
  · cases h
  · rename_i v s' hcheckpoint
    cases h
    refine ⟨?_, ?_, hfinal, hreached rfl⟩
    · rw [contents_checkpoint hcheckpoint]
      change contents (rollForward _ _ _).store.maps = _
      rw [hstore, contents_applyWalChanges, rolledForward]
      congr 1
      funext n
      exact contents_restored hdata t n
    · rw [hcount, Nat.zero_add]

/-- Recovery from a base backup and an undamaged archive of later records does what its target asks for,
and reports it as reached only if it is, exactly when the archive goes as far as the version or time, and
for a transaction when the numbers around it are in order. -/
theorem restorePitr_recovered_iff (bc : Bincode (WalRecord (List UInt8)))
    (src t : MVStore (List UInt8)) (timestampNanos : Int)
    (htime : -2 ^ 63 ≤ timestampNanos ∧ timestampNanos < 2 ^ 63) (hversion : src.version < 2 ^ 64)
    (hfit : Backup.Fits src.backupData) (isReplica : Bool) (segmentSizeLimit : Nat)
    (events : List (Archive.Event (List UInt8)))
    (hlog : ∀ r ∈ Archive.archived events, ∃ payload, WalManager.Loggable bc r payload)
    (hinc : Increasing WalRecord.commitVersion (Archive.archived events))
    (hlater : ∀ r ∈ Archive.archived events, src.version < r.commitVersion) (target : RecoveryTarget)
    (hamong : ∀ tx, target = .transactionId tx → ∃ r ∈ Archive.archived events, r.txId = tx)
    (io : WriteOutcome) (report : RestoreReport) (t' : MVStore (List UInt8))
    (h : t.restorePitr bc (src.dumpBackupWithRole timestampNanos isReplica).1
      (some (runs (Archive.step bc) (Archive.start segmentSizeLimit) events).dir) target io =
      (.ok report, t')) :
    Recovered src.version (fun n => (contents src.maps n).or (contents t.maps n)) target
        (Archive.archived events) report t' ↔
      TargetHeld src.version target (Archive.archived events) := by
  set records := Archive.archived events with hrecords
  obtain ⟨segs, hlaid⟩ := (Archive.laidOut_start bc segmentSizeLimit).runs hlog
  rw [nil_append, ← hrecords] at hlaid
  -- the undamaged archive is read back whole
  have hread : Archive.readArchiveRecords bc
      (runs (Archive.step bc) (Archive.start segmentSizeLimit) events).dir src.version = records := by
    rw [hlaid.readArchiveRecords_eq hlog hinc]
    exact filter_eq_self.mpr fun r hr => decide_eq_true (hlater r hr)
  obtain ⟨hbind, hcount, hfinal, hreached⟩ := restorePitr_spec htime hversion hfit h
  rw [hread] at hbind hcount hfinal
  -- all but the last fact of `Recovered` say that the loop replays the meant records
  have hmeant : records.takeWhile (shouldApply target) = meantRecords target records →
      Reaches src.version target records report.recordsReplayed →
      Recovered src.version (fun n => (contents src.maps n).or (contents t.maps n)) target records
        report t' := by
    intro heq hreach
    rw [heq] at hbind hcount hfinal
    exact ⟨hbind, hcount, hfinal, fun _ => hreach⟩
  cases target with
  | version v =>
    exact ⟨fun hrec => hrec.reached hreached, hmeant (hinc.takeWhile_le v)⟩
  | timestampNanos s => exact ⟨fun hrec => hrec.reached hreached, hmeant rfl⟩
  | latest =>
    have hall : records.takeWhile (shouldApply .latest) = records :=
      takeWhile_eq_self_iff.mpr fun _ _ => rfl
    exact ⟨fun _ => trivial, hmeant hall⟩
  | transactionId tx =>
    have hlen := length_takeWhile_transaction (hamong tx rfl)
    constructor
    · intro hrec
      exact hlen.mp (hcount.symm.trans hrec.replayed)
    · intro hord
      have heq := takeWhile_eq_upToTransaction (hlen.mpr hord)
      refine hmeant heq ?_
      have htake : records.take report.recordsReplayed = upToTransaction tx records := by
        rw [hcount, heq]
        exact (prefix_iff_eq_take.mp (upToTransaction_isPrefix tx records)).symm
      change ∃ r ∈ records.take report.recordsReplayed, r.txId = tx
      rw [htake]
      exact mem_upToTransaction (hamong tx rfl)

theorem restorePitr_done (bc : Bincode (WalRecord (List UInt8)))
    (htime : -2 ^ 63 ≤ timestampNanos ∧ timestampNanos < 2 ^ 63) (hversion : src.version < 2 ^ 64)
    (hfit : Backup.Fits src.backupData) (isReplica : Bool) (t : MVStore (List UInt8))
    (archiveDir : Option Directory) (target : RecoveryTarget) :
    ∃ report t', t.restorePitr bc (src.dumpBackupWithRole timestampNanos isReplica).1 archiveDir target
      .done = (.ok report, t') := by
  obtain ⟨data, hread, -⟩ := Backup.readAndVerifyBinaryBackup_write htime hversion isReplica hfit
  cases h : t.restorePitr bc (src.dumpBackupWithRole timestampNanos isReplica).1 archiveDir target
      .done with
  | mk result t' =>
    simp only [restorePitr, dumpBackupWithRole, hread, checkpoint, WriteOutcome.done, Prod.mk.injEq] at h
    exact ⟨_, t', by rw [← h.1]⟩

def lateCommit : List (Archive.Event (List UInt8)) :=
  [.archive ⟨2, 1, [⟨"items", [2], some [7]⟩], 0⟩, .archive ⟨1, 2, [⟨"items", [1], some [7]⟩], 0⟩]

theorem loggable_lateCommit : ∀ r ∈ Archive.archived lateCommit,
    ∃ payload, WalManager.Loggable (Bincode.ofCoder walRecordCoder) r payload := by
  intro r hr
  have hmem : r ∈ [⟨2, 1, [⟨"items", [2], some [7]⟩], 0⟩, ⟨1, 2, [⟨"items", [1], some [7]⟩], 0⟩] := hr
  rw [mem_cons, mem_singleton] at hmem
  rcases hmem with rfl | rfl
  · exact ⟨_, WalManager.loggable_onePut (by decide) (by decide) _ _ (by decide)⟩
  · exact ⟨_, WalManager.loggable_onePut (by decide) (by decide) _ _ (by decide)⟩

theorem increasing_lateCommit : Increasing WalRecord.commitVersion (Archive.archived lateCommit) := by
  refine pairwise_pair.mpr ?_
  decide

theorem later_lateCommit : ∀ r ∈ Archive.archived lateCommit,
    (oneEntry "items" 1 7).version < r.commitVersion := by
  decide

theorem restorePitr_recovered_iff_lateCommit :
    ∃ report t', new.restorePitr (Bincode.ofCoder walRecordCoder)
        ((oneEntry "items" 1 7).dumpBackupWithRole 0 false).1
        (some (runs (Archive.step (Bincode.ofCoder walRecordCoder)) (Archive.start 0) lateCommit).dir)
        (.transactionId 2) .done = (.ok report, t') ∧
      (Recovered (oneEntry "items" 1 7).version
          (fun n => (contents (oneEntry "items" 1 7).maps n).or
            (contents (new : MVStore (List UInt8)).maps n))
          (.transactionId 2) (Archive.archived lateCommit) report t' ↔
        TargetHeld (oneEntry "items" 1 7).version (.transactionId 2) (Archive.archived lateCommit)) := by
  obtain ⟨report, t', h⟩ := restorePitr_done (Bincode.ofCoder walRecordCoder)
    (show -2 ^ 63 ≤ (0 : Int) ∧ (0 : Int) < 2 ^ 63 by decide)
    (show (oneEntry "items" 1 7).version < 2 ^ 64 by decide) fits_oneEntry false new
    (some (runs (Archive.step (Bincode.ofCoder walRecordCoder)) (Archive.start 0) lateCommit).dir)
    (.transactionId 2)
  refine ⟨report, t', h, ?_⟩
  refine restorePitr_recovered_iff (Bincode.ofCoder walRecordCoder) (oneEntry "items" 1 7) new 0
    (by decide) (by decide) fits_oneEntry false 0 lateCommit loggable_lateCommit increasing_lateCommit
    later_lateCommit (.transactionId 2) ?_ .done report t' h
  intro tx htx
  cases htx
  exact ⟨_, mem_cons_self, rfl⟩

/-- Recovery to the transaction that committed late replays nothing at all and reports success. -/
theorem restorePitr_misses_lateCommit :
    ∃ report t', new.restorePitr (Bincode.ofCoder walRecordCoder)
        ((oneEntry "items" 1 7).dumpBackup 0).1
        (some (runs (Archive.step (Bincode.ofCoder walRecordCoder))
          (Archive.start WalArchiver.defaultSegmentSizeLimit) lateCommit).dir)
        (.transactionId 1) .done = (.ok report, t') ∧
      (∃ r ∈ Archive.archived lateCommit, r.txId = 1) ∧
      (meantRecords (.transactionId 1) (Archive.archived lateCommit)).length = 2 ∧
      report.recordsReplayed = 0 ∧ report.targetReached = true := by
  obtain ⟨report, t', h⟩ := restorePitr_done (Bincode.ofCoder walRecordCoder)
    (show -2 ^ 63 ≤ (0 : Int) ∧ (0 : Int) < 2 ^ 63 by decide)
    (show (oneEntry "items" 1 7).version < 2 ^ 64 by decide) fits_oneEntry false new
    (some (runs (Archive.step (Bincode.ofCoder walRecordCoder))
      (Archive.start WalArchiver.defaultSegmentSizeLimit) lateCommit).dir) (.transactionId 1)
  obtain ⟨segs, hlaid⟩ := (Archive.laidOut_start (Bincode.ofCoder walRecordCoder)
    WalArchiver.defaultSegmentSizeLimit).runs loggable_lateCommit
  have hread := hlaid.readArchiveRecords_eq loggable_lateCommit increasing_lateCommit
    (oneEntry "items" 1 7).version
  obtain ⟨-, hcount, -, hreached⟩ := restorePitr_spec (by decide) (by decide) fits_oneEntry h
  refine ⟨report, t', h, ⟨_, mem_cons_of_mem _ mem_cons_self, rfl⟩, by decide, ?_, hreached⟩
  rw [hcount, hread]
  decide

end MVStore

end H2Database.Mvstore
