import H2Database.Mvstore.FileStore
import H2Database.Mvstore.Map
import H2Database.Mvstore.Wal
import H2Database.Mvstore.Tx.VersionedValue
import H2Database.Reasoning.Registry

/-!
# The store (`h2-mvstore/src/store.rs`)

`MVStore` over the records of its two files: `FileImage` is the database file seen through
`read_checkpoint_chain` (`FileStore`, `Publication`), and `wal` the records `read_all_records` returns
(`Wal`).  Pages, chunks, deltas and log records stand here for their images, which is what the
round trips of those modules allow.  Every call is one step.  Replication, the archiver, the
in-memory variant and the timing of automatic checkpoints are left out.
-/

namespace H2Database.Mvstore

open Reasoning

variable {V : Type}

abbrev Root (V : Type) := MVTree Key V

abbrev Catalog (V : Type) := MVTree String (Root V)

abbrev Maps (V : Type) := Registry String (MVMap V)

structure FileImage (V : Type) where
  version : Nat
  chain : FileStore.Chain (Catalog V) (Root V) V

namespace FileImage

def new : FileImage V := ⟨0, (none, [])⟩

def append (f : FileImage V) (op : FileStore.Append (Catalog V) (Root V) V) : FileImage V :=
  ⟨op.version, op.extend f.chain⟩

/-- `compact_and_rewrite`: a file with the one full record. -/
def compactAndRewrite (payload : ChunkPayload (Catalog V)) : FileImage V :=
  ⟨payload.chunkMeta.version, (some payload, [])⟩

end FileImage

structure WriteOutcome where
  publish : H2Result Unit
  clearWal : H2Result Unit
  deriving DecidableEq, Repr

def WriteOutcome.done : WriteOutcome := ⟨.ok (), .ok ()⟩

structure MVStore (V : Type) where
  file : FileImage V
  wal : List (WalRecord V)
  maps : Maps V
  version : Nat
  chunkIdCounter : Nat
  checkpointedMaps : AList (fun _ : String => Nat)
  hasCheckpoint : Bool
  nextCommitVersion : Nat

namespace MVStore

/-! ## Opening -/

def applyChange (m : MVMap V) (key : Key) (value : Option V) : MVMap V :=
  match value with
  | some v => m.put key v
  | none => (m.remove key).1

def applyMapDelta (m : MVMap V) (d : MapDelta (Root V) V) : MVMap V :=
  d.changes.foldl (fun m c => applyChange m c.1 c.2) (if d.clear then m.clear else m)

def replayMapDelta (maps : Maps V) (d : MapDelta (Root V) V) : H2Result (Maps V) :=
  match d.replaceRoot with
  | some root => .ok (maps.create d.name (applyMapDelta (MVMap.new root) d))
  | none =>
    match maps.find d.name with
    | none => .error (.corrupted s!"Delta references missing map: {d.name}")
    | some id => .ok (maps.modify id fun m => applyMapDelta m d)

def replayDelta (maps : Maps V) (delta : DeltaPayload (Root V) V) : H2Result (Maps V) :=
  delta.maps.foldlM replayMapDelta (delta.removedMaps.foldl Registry.remove maps)

def restoreMaps (payload : ChunkPayload (Catalog V)) : Maps V :=
  payload.rootPage.scanAll.foldl (fun maps e => maps.create e.key (MVMap.new e.value)) .empty

def replayChain (chain : FileStore.Chain (Catalog V) (Root V) V) : H2Result (Maps V) :=
  chain.2.foldlM replayDelta (chain.1.elim .empty restoreMaps)

def replayWalChange (maps : Maps V) (c : WalChange V) : Maps V :=
  match maps.find c.mapName with
  | some id => maps.modify id fun m => applyChange m c.key c.value
  | none =>
    maps.create c.mapName (applyChange ((MVMap.new .empty).setJournaling true) c.key c.value)

def modCounts (maps : Maps V) : AList (fun _ : String => Nat) :=
  List.toAList (maps.named.map fun p => ⟨p.1, p.2.modCount⟩)

/-- `MVStore::open` on a database file and a log. -/
def openAt (file : FileImage V) (wal : List (WalRecord V)) : H2Result (MVStore V) :=
  match replayChain file.chain with
  | .error e => .error e
  | .ok maps =>
    let journaled := maps.mapNamed fun _ m => m.setJournaling true
    let maxVersion := wal.foldl (fun v r => if v < r.commitVersion then r.commitVersion else v)
      file.version
    .ok {
      file := file
      wal := wal
      maps := (wal.flatMap WalRecord.changes).foldl replayWalChange journaled
      version := maxVersion
      chunkIdCounter := 1
      checkpointedMaps := modCounts maps
      hasCheckpoint := file.chain.1.isSome || !file.chain.2.isEmpty
      nextCommitVersion := maxVersion }

def new : MVStore V where
  file := .new
  wal := []
  maps := .empty
  version := 0
  chunkIdCounter := 1
  checkpointedMaps := ∅
  hasCheckpoint := false
  nextCommitVersion := 0

def openMap (s : MVStore V) (name : String) : Nat × MVStore V :=
  match s.maps.find name with
  | some id => (id, s)
  | none => (s.maps.objects.length,
      { s with maps := s.maps.create name ((MVMap.new .empty).setJournaling s.hasCheckpoint) })

def renameMap (s : MVStore V) (oldName newName : String) : H2Result Unit × MVStore V :=
  match s.maps.rename oldName newName with
  | some maps => (.ok (), { s with maps := maps })
  | none => (.error (.storage s!"Map '{oldName}' not found"), s)

/-- An operation of `MVMap` through a handle. -/
def update (s : MVStore V) (id : Nat) (f : MVMap V → MVMap V) : MVStore V :=
  { s with maps := s.maps.modify id f }

def clearMap (s : MVStore V) (name : String) : MVStore V :=
  match s.maps.find name with
  | some id => s.update id MVMap.clear
  | none => s

def removeMap (s : MVStore V) (name : String) : Bool × MVStore V :=
  ((s.maps.find name).isSome, { s with maps := s.maps.remove name })

/-- One change of a durable record: `open_map`, then the put or removal. -/
def applyWalChange (s : MVStore V) (c : WalChange V) : MVStore V :=
  let (id, s) := s.openMap c.mapName
  s.update id fun m => applyChange m c.key c.value

/-- The end of `commit_with`, once the record has its version: the append and sync of the log, which
may fail and are then undone, and the changes of the record. -/
def commitRecord (s : MVStore V) (record : WalRecord V) (sync : H2Result Unit) :
    H2Result Unit × MVStore V :=
  match sync with
  | .error e => (.error e, s)
  | .ok () => (.ok (), { record.changes.foldl applyWalChange { s with wal := s.wal ++ [record] } with
      version := record.commitVersion })

/-- `commit_with` for one committer: `prepare` gets the version of the commit and may open maps.  The
version is used up even when the commit fails. -/
def commitWith (s : MVStore V) (txId : Nat)
    (prepare : Nat → MVStore V → H2Result (List (WalChange V)) × MVStore V)
    (sync : H2Result Unit) : H2Result Unit × MVStore V :=
  let commitVersion := s.nextCommitVersion + 1
  match prepare commitVersion { s with nextCommitVersion := commitVersion } with
  | (.error e, s) => (.error e, s)
  | (.ok changes, s) => s.commitRecord { txId, commitVersion, changes } sync

/-- The whole root of a map is written by the first checkpoint and for a map the last one did not
know. -/
def needsRoot (s : MVStore V) (name : String) : Bool :=
  !s.hasCheckpoint || (s.checkpointedMaps.lookup name).isNone

/-- One map in the loop of `checkpoint`: the journal taken from it, and the map afterwards. -/
def drain (s : MVStore V) (name : String) (m : MVMap V) : Patch Key V × MVMap V :=
  let m := if s.hasCheckpoint then m else m.setJournaling true
  let (journal, m) := m.takeJournal
  (journal, if s.needsRoot name then m.getSerializedRoot.2 else m)

def mapDelta (s : MVStore V) (name : String) (m : MVMap V) : Option (MapDelta (Root V) V) :=
  if s.needsRoot name then some ⟨name, some m.getSerializedRoot.1, false, []⟩
  else if m.journal.patch.isEmpty then none
  else some ⟨name, none, m.journal.patch.clear, m.journal.patch.changeList⟩

def catalogOf (roots : List (String × Root V)) : Catalog V :=
  roots.foldl (fun t p => t.put p.1 p.2) .empty

/-- The roots of all maps, as `get_serialized_root` returns them. -/
def serializedRoots (s : MVStore V) : List (String × Root V) :=
  s.maps.named.map fun p => (p.1, p.2.getSerializedRoot.1)

def checkpointRecord (s : MVStore V) : FileStore.Append (Catalog V) (Root V) V :=
  if s.hasCheckpoint then
    .delta {
      version := s.version + 1
      previousOffset := 0
      previousLength := 0
      removedMaps := s.checkpointedMaps.keys.filter fun n => (s.maps.find n).isNone
      maps := s.maps.named.filterMap fun p => s.mapDelta p.1 p.2 }
  else .chunk (.new (s.chunkIdCounter + 1) (s.version + 1) (catalogOf s.serializedRoots))

/-- The store once the record of a checkpoint is published, before the log is cut. -/
def published (s : MVStore V) : MVStore V :=
  { s with
    file := s.file.append s.checkpointRecord
    maps := s.maps.mapNamed fun n m => (s.drain n m).2
    version := s.version + 1
    chunkIdCounter := s.chunkIdCounter + 1
    checkpointedMaps := modCounts s.maps
    hasCheckpoint := true
    nextCommitVersion := max s.nextCommitVersion (s.version + 1) }

/-- The store after a checkpoint whose record could not be written: the journals are put back. -/
def unpublished (s : MVStore V) : MVStore V :=
  { s with
    maps := s.maps.mapNamed fun n m => (s.drain n m).2.restoreJournal (s.drain n m).1
    chunkIdCounter := s.chunkIdCounter + 1 }

def checkpoint (s : MVStore V) (io : WriteOutcome) : H2Result Nat × MVStore V :=
  match io.publish, io.clearWal with
  | .error e, _ => (.error e, s.unpublished)
  | .ok (), .error e => (.error e, s.published)
  | .ok (), .ok () => (.ok (s.version + 1), { s.published with wal := [] })

/-- The end of the two operations that rewrite the file: the maps with their journals reset. -/
def settled (s : MVStore V) : MVStore V :=
  { s with
    wal := []
    maps := s.maps.mapNamed fun _ m => m.resetJournal
    checkpointedMaps := modCounts s.maps
    chunkIdCounter := 1
    hasCheckpoint := true }

def reclaimCheckpointHistory (s : MVStore V) (io : WriteOutcome) : H2Result Nat × MVStore V :=
  let cached := { s with maps := s.maps.mapNamed fun _ m => m.getSerializedRoot.2 }
  match io.publish with
  | .error e => (.error e, cached)
  | .ok () =>
    let rewritten := { cached with
      file := .compactAndRewrite (.new 1 (s.version + 1) (catalogOf s.serializedRoots))
      version := s.version + 1
      nextCommitVersion := max s.nextCommitVersion (s.version + 1) }
    match io.clearWal with
    | .error e => (.error e, rewritten)
    | .ok () => (.ok (s.version + 1), rewritten.settled)

/-- What `compact` keeps of a stored value: the newest value committed at `version`, as the only
record; bytes that are no versioned value stay as they are. -/
def compactValue (version : Nat) (stored : Stored) : Option Stored :=
  match stored.fromBytes with
  | .ok vv =>
    (vv.readVisible (2 ^ 64 - 1) version).map fun v => .versioned (.newCommitted v version)
  | .error _ => some stored

def compactTree (version : Nat) (tree : Root Stored) : Root Stored :=
  tree.scanAll.foldl (fun clean e =>
    match compactValue version e.value with
    | some value => clean.put e.key value
    | none => clean) .empty

def compact (s : MVStore Stored) (io : WriteOutcome) : H2Result Unit × MVStore Stored :=
  let roots := s.maps.named.map fun p => (p.1, compactTree s.version p.2.tree)
  match io.publish with
  | .error e => (.error e, s)
  | .ok () =>
    let rewritten := { s with
      file := .compactAndRewrite (.new 1 s.version (catalogOf roots))
      chunkIdCounter := 1 }
    match io.clearWal with
    | .error e => (.error e, rewritten)
    | .ok () => (.ok (), rewritten.settled)

end MVStore

end H2Database.Mvstore
