import H2Database.Mvstore.Edits

/-!
# Group commit (`MVStore::commit_with`, `h2-mvstore/src/store.rs`)

A call of `commit_with` enters the queue lock once to draw its version, append its record to the log
and queue it, and a caller that found no leader enters it once more to make the whole queue durable,
apply it and hand out the outcomes.  These two critical sections are the steps here; any number of
callers take them in any order, and the maps may change in between.
-/

namespace H2Database.Mvstore

open Reasoning MVStore

variable {V : Type}

/-! ## The log file -/

/-- What becomes of `set_len` and `seek`. -/
inductive TruncateOutcome where
  | done
  /-- the file has its old length -/
  | notCut (e : H2Error)
  /-- the file is cut, and the seek fails -/
  | notSought (e : H2Error)
  deriving DecidableEq, Repr

namespace WalManager

/-- `len`, where `result` is whether `metadata` answers. -/
def tryLen (wal : WalManager) (result : H2Result Unit) : H2Result Nat :=
  match wal.file, result with
  | some _, .error e => .error e
  | _, _ => .ok wal.len

/-- `append_unsynced` with a write that may fail, having written only the first bytes of the frame. -/
def tryAppend (bc : Bincode (WalRecord V)) (wal : WalManager) (record : WalRecord V)
    (failure : Option (Nat × H2Error)) : H2Result Unit × WalManager :=
  match wal.file, wal.appendUnsynced bc record, failure with
  | none, _, _ => (.ok (), wal)
  | some _, .error e, _ => (.error e, wal)
  | some _, .ok grown, none => (.ok (), grown)
  | some _, .ok grown, some (written, e) =>
    (.error e, grown.truncateTo (min (wal.len + written) (grown.len - 1)))

/-- `truncate_to`. -/
def tryTruncateTo (wal : WalManager) (len : Nat) (outcome : TruncateOutcome) :
    H2Result Unit × WalManager :=
  match wal.file, outcome with
  | none, _ => (.ok (), wal)
  | some _, .done => (.ok (), wal.truncateTo len)
  | some _, .notCut e => (.error e, wal)
  | some _, .notSought e => (.error e, wal.truncateTo len)

/-- `sync_for_commit`, where `result` is what `sync_data` answers. -/
def syncForCommit (wal : WalManager) (result : H2Result Unit) : H2Result Unit :=
  if wal.syncOnCommit && wal.file.isSome then result else .ok ()

/-- `sync`, where `result` is what `sync_all` answers. -/
def trySync (wal : WalManager) (result : H2Result Unit) : H2Result Unit :=
  if wal.file.isSome then result else .ok ()

def onDisk (persistent : Bool) (bytes : List UInt8) : Option (List UInt8) :=
  if persistent then some bytes else none

end WalManager

/-! ## The queue -/

/-- The message of a failure, and whether the commit is durable nevertheless. -/
abbrev CommitOutcome := Except (String × Bool) Unit

structure PendingCommit (V : Type) where
  record : WalRecord V
  /-- the call whose cell gets the outcome -/
  caller : Nat

structure CommitQueue (V : Type) where
  pending : List (PendingCommit V)
  leader : Bool
  batchStartOffset : Option Nat
  poisoned : Option String

inductive CommitPhase where
  /-- returned from the first critical section -/
  | refused (e : H2Error)
  /-- became the leader, and has still to drain the queue -/
  | leading
  /-- waits for its outcome, or has it -/
  | waiting
  deriving DecidableEq, Repr

structure CommitCall where
  phase : CommitPhase
  completed : Option CommitOutcome

/-- What one leader has taken out of the queue, with the outcomes it handed out. -/
structure Drain (V : Type) where
  leader : Nat
  items : List (PendingCommit V × CommitOutcome)
  applied : Bool

/-- The queue, the log, the calls in the order in which they entered the queue lock, and the drains so
far. -/
structure GroupCommit (V : Type) where
  queue : CommitQueue V
  wal : WalManager
  calls : List CommitCall
  drains : List (Drain V)

/-- `prepare` gets the version of the commit; it opens maps and changes nothing else. -/
structure Preparation (V : Type) where
  prepare : Nat → MVStore V → H2Result (List (WalChange V)) × MVStore V
  opens : ∀ version s, ∃ names : List String,
    (prepare version s).2 = names.foldl (fun s name => (s.openMap name).2) s

/-- What the operating system answers in the first critical section: to `wal.len()`, to the write of the
frame (which may fail after some bytes), and to `truncate_to` after a failed write. -/
structure EnqueueIo where
  len : H2Result Unit
  write : Option (Nat × H2Error)
  truncate : TruncateOutcome

/-- The same for the second one, with the answers of the replication listener. -/
structure DrainIo where
  sync : H2Result Unit
  truncate : TruncateOutcome
  resync : H2Result Unit
  listener : Nat → H2Result Unit

namespace GroupCommit

def new (bc : Bincode (WalRecord V)) (s : MVStore V) (persistent sync : Bool) : GroupCommit V :=
  ⟨⟨[], false, none, none⟩, ⟨WalManager.onDisk persistent (WalManager.image bc s.wal), sync⟩, [], []⟩

def refuse (g : GroupCommit V) (e : H2Error) : GroupCommit V :=
  { g with calls := g.calls ++ [⟨.refused e, none⟩] }

/-- The first critical section of `commit_with`, once the record is there. -/
def append (bc : Bincode (WalRecord V)) (g : GroupCommit V) (record : WalRecord V) (io : EnqueueIo) :
    GroupCommit V :=
  match g.wal.tryLen io.len with
  | .error e => g.refuse e
  | .ok before =>
    let queue := if g.queue.pending.isEmpty then { g.queue with batchStartOffset := some before }
      else g.queue
    match g.wal.tryAppend bc record io.write with
    | (.ok (), wal) =>
      { g with
        queue := { queue with
          pending := queue.pending ++ [⟨record, g.calls.length⟩]
          leader := true }
        wal
        calls := g.calls ++ [⟨if queue.leader then .waiting else .leading, none⟩] }
    | (.error e, wal) =>
      match wal.tryTruncateTo before io.truncate with
      | (.ok (), wal) => { g with queue, wal }.refuse e
      | (.error rollbackError, wal) =>
        let text := rollbackError.display
        { g with
          queue := { queue with
            poisoned := some s!"WAL append failed and rollback failed: {text}" }
          wal }.refuse e

/-- The first critical section of `commit_with`. -/
def enqueue (bc : Bincode (WalRecord V)) (g : GroupCommit V) (s : MVStore V) (txId : Nat)
    (p : Preparation V) (timestampNanos : Int) (io : EnqueueIo) : GroupCommit V × MVStore V :=
  match g.queue.poisoned with
  | some error => (g.refuse (.storage error), s)
  | none =>
    let commitVersion := s.nextCommitVersion + 1
    match p.prepare commitVersion { s with nextCommitVersion := commitVersion } with
    | (.error e, s) => (g.refuse e, s)
    | (.ok changes, s) => (g.append bc { txId, commitVersion, changes, timestampNanos } io, s)

def deliver (calls : List CommitCall) (items : List (PendingCommit V × CommitOutcome)) :
    List CommitCall :=
  items.foldl (fun calls p => calls.modify p.1.caller fun c => { c with completed := some p.2 }) calls

def applyAll (s : MVStore V) (pending : List (PendingCommit V)) : MVStore V :=
  let records := pending.map PendingCommit.record
  let s' := (records.flatMap WalRecord.changes).foldl applyWalChange { s with wal := s.wal ++ records }
  match pending.getLast? with
  | none => s'
  | some last => { s' with version := last.record.commitVersion }

/-- The outcomes of a batch that is durable: a listener can still refuse. -/
def appliedOutcome (io : DrainIo) (index : Nat) : CommitOutcome :=
  match io.listener index with
  | .ok () => .ok ()
  | .error e => .error (e.display, true)

def finish (g : GroupCommit V) (leader : Nat) (items : List (PendingCommit V × CommitOutcome))
    (applied : Bool) : GroupCommit V :=
  { g with
    queue := { g.queue with pending := [], leader := false, batchStartOffset := none }
    calls := (deliver g.calls items).modify leader fun c => { c with phase := .waiting }
    drains := g.drains ++ [⟨leader, items, applied⟩] }

/-- The log after a failed sync: it is cut back to the start of the batch, or the queue is poisoned. -/
def cutBack (g : GroupCommit V) (io : DrainIo) : GroupCommit V :=
  match g.wal.tryTruncateTo (g.queue.batchStartOffset.getD 0) io.truncate with
  | (.ok (), wal) =>
    match wal.trySync io.resync with
    | .ok () => { g with wal }
    | .error e =>
      let text := e.display
      { g with
        queue := { g.queue with poisoned := some s!"WAL sync failed and rollback failed: {text}" }
        wal }
  | (.error e, wal) =>
    let text := e.display
    { g with
      queue := { g.queue with poisoned := some s!"WAL sync failed and rollback failed: {text}" }
      wal }

/-- The second critical section of `commit_with`, for the caller that has become the leader. -/
def drain (g : GroupCommit V) (s : MVStore V) (leader : Nat) (io : DrainIo) :
    GroupCommit V × MVStore V :=
  match g.calls[leader]? with
  | some ⟨.leading, _⟩ =>
    match g.wal.syncForCommit io.sync with
    | .ok () =>
      (g.finish leader (g.queue.pending.mapIdx fun i item => (item, appliedOutcome io i)) true,
        applyAll s g.queue.pending)
    | .error e =>
      ((g.cutBack io).finish leader
        (g.queue.pending.map fun item => (item, .error (e.display, false))) false, s)
  | _ => (g, s)

end GroupCommit

inductive CommitAction (V : Type) where
  | enqueue (txId : Nat) (p : Preparation V) (timestampNanos : Int) (io : EnqueueIo)
  | drain (leader : Nat) (io : DrainIo)
  /-- anything else that happens to the maps -/
  | edit (maps : Maps V)

structure CommitSystem (V : Type) where
  group : GroupCommit V
  store : MVStore V

namespace CommitSystem

def new (bc : Bincode (WalRecord V)) (s : MVStore V) (persistent sync : Bool) : CommitSystem V :=
  ⟨.new bc s persistent sync, s⟩

def step (bc : Bincode (WalRecord V)) (c : CommitSystem V) : CommitAction V → CommitSystem V
  | .enqueue txId p timestampNanos io =>
    let (group, store) := c.group.enqueue bc c.store txId p timestampNanos io
    ⟨group, store⟩
  | .drain leader io =>
    let (group, store) := c.group.drain c.store leader io
    ⟨group, store⟩
  | .edit maps => { c with store := { c.store with maps } }

end CommitSystem

end H2Database.Mvstore
