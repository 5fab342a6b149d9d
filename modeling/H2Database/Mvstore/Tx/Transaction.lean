import H2Database.Mvstore.Store
import H2Database.Mvstore.Tx.Lock

/-!
# Transactions (`h2-mvstore/src/tx/store.rs`, `h2-mvstore/src/tx/transaction.rs`)

A transaction marks a key by putting an uncommitted record into its versioned value, notes the key in
its undo log, and on commit or rollback goes through that log again.  Every call is one step, apart
from a write that meets the mark of another open transaction: it sleeps in the middle of its loop, and
waking up and running out of time are steps of their own.
-/

namespace H2Database.Mvstore

open Reasoning

inductive TransactionStatus where
  | opened
  | committed
  | rolledBack
  deriving DecidableEq, Repr

structure UndoLogEntry where
  mapName : String
  key : Key
  deriving DecidableEq, Repr

/-- The arguments of a `put`, or of a `remove` when there is no value, with the map its loop works on,
which was opened by name before the loop. -/
structure WriteCall where
  mapName : String
  map : Nat
  key : Key
  value : Option (List UInt8)
  deriving DecidableEq, Repr

structure Waiting where
  call : WriteCall
  holder : Nat
  cell : Option Nat
  timeoutMs : Nat
  deriving DecidableEq, Repr

structure Transaction where
  txId : Nat
  snapshotVersion : Nat
  status : TransactionStatus
  undoLog : List UndoLogEntry
  waiting : Option Waiting
  deriving DecidableEq, Repr

/-! ## `TransactionStore` -/

structure TransactionStore where
  mvstore : MVStore Stored
  nextTxId : Nat
  /-- transaction id to snapshot version -/
  activeTransactions : AList fun _ : Nat => Nat
  lockManager : LockManager
  lockTimeoutMs : Nat

namespace TransactionStore

def new (mvstore : MVStore Stored) : TransactionStore := ⟨mvstore, 1, ∅, .new, 1000⟩

def isTxActive (ts : TransactionStore) (txId : Nat) : Bool :=
  (ts.activeTransactions.lookup txId).isSome

def begin (ts : TransactionStore) : Transaction × TransactionStore :=
  (⟨ts.nextTxId, ts.mvstore.version, .opened, [], none⟩,
    { ts with
      nextTxId := ts.nextTxId + 1
      activeTransactions := ts.activeTransactions.insert ts.nextTxId ts.mvstore.version })

def removeActiveTx (ts : TransactionStore) (txId : Nat) : TransactionStore :=
  { ts with
    activeTransactions := ts.activeTransactions.erase txId
    lockManager := (ts.lockManager.unregisterWait txId).notifyLockReleased txId }

def oldestActiveVersion (ts : TransactionStore) : Nat :=
  ((ts.activeTransactions.entries.map Sigma.snd).min?).getD ts.mvstore.version

/-- `open_map` through the store. -/
def openMap (ts : TransactionStore) (name : String) : Nat × TransactionStore :=
  ((ts.mvstore.openMap name).1, { ts with mvstore := (ts.mvstore.openMap name).2 })

/-- `MVMap::get` through a handle. -/
def mapGet (ts : TransactionStore) (map : Nat) (key : Key) : Option Stored :=
  (ts.mvstore.maps.deref map).bind fun m => m.get key

/-- `MVMap::put` through a handle. -/
def mapPut (ts : TransactionStore) (map : Nat) (key : Key) (vv : VersionedValue) :
    TransactionStore :=
  { ts with mvstore := ts.mvstore.update map fun m => m.put key (.versioned vv) }

/-- What `vacuum_map` leaves of one entry of the map it has scanned: the map, and whether the entry
was dropped. -/
def vacuumEntry (horizonVersion : Nat) (m : MVMap Stored) (e : Entry Key Stored) :
    MVMap Stored × Bool :=
  match e.value.fromBytes with
  | .error _ => (m, false)
  | .ok vv =>
    if vv.isDead horizonVersion then ((m.remove e.key).1, true)
    else
      match vv.pruneOldVersions horizonVersion with
      | some pruned => (m.put e.key (.versioned pruned), false)
      | none => (m, false)

/-- The loop of `vacuum_map`: the map and the number of entries dropped from it. -/
def vacuumEntries (horizonVersion : Nat) (m : MVMap Stored) (es : List (Entry Key Stored)) :
    MVMap Stored × Nat :=
  es.foldl (fun p e =>
    let (m, dropped) := vacuumEntry horizonVersion p.1 e
    (m, if dropped then p.2 + 1 else p.2)) (m, 0)

def vacuumMap (ts : TransactionStore) (name : String) : Nat × TransactionStore :=
  let horizonVersion := ts.oldestActiveVersion
  let (map, ts) := ts.openMap name
  match ts.mvstore.maps.deref map with
  | none => (0, ts)
  | some m =>
    ((vacuumEntries horizonVersion m m.tree.scanAll).2,
      { ts with mvstore := ts.mvstore.update map fun _ =>
          (vacuumEntries horizonVersion m m.tree.scanAll).1 })

end TransactionStore

/-! ## `Transaction` -/

/-- The answer of a write that has come out of its loop; `put` answers `true` where the source has no
answer. -/
inductive Progress where
  | returned (result : H2Result Bool)
  | waits
  deriving DecidableEq, Repr

namespace Transaction

def checkOpen (t : Transaction) : H2Result Unit :=
  if t.status = .opened then .ok () else .error (.transaction "Transaction is not open")

/-- What a transaction reads from stored bytes: the fast path, then the decoded value. -/
def readStored (t : Transaction) (stored : Stored) : H2Result (Option (List UInt8)) :=
  match stored.readVisibleRaw t.txId t.snapshotVersion with
  | some v => .ok (some v)
  | none =>
    match stored.fromBytes with
    | .error e => .error e
    | .ok vv => .ok (vv.readVisible t.txId t.snapshotVersion)

def get (t : Transaction) (ts : TransactionStore) (mapName : String) (key : Key) :
    H2Result (Option (List UInt8)) × TransactionStore :=
  match t.checkOpen with
  | .error e => (.error e, ts)
  | .ok () =>
    let (map, ts) := ts.openMap mapName
    match ts.mapGet map key with
    | none => (.ok none, ts)
    | some stored => (t.readStored stored, ts)

/-- Undo one entry: the mark is taken back, and a key without committed records is removed. -/
def undo (txId : Nat) (s : MVStore Stored) (log : UndoLogEntry) : MVStore Stored :=
  let (map, s) := s.openMap log.mapName
  match (s.maps.deref map).bind fun m => m.get log.key with
  | none => s
  | some stored =>
    match stored.fromBytes with
    | .error _ => s
    | .ok vv =>
      if vv.activeTxId = some txId then
        if vv.rollbackUncommitted.committedHistory.isEmpty then
          s.update map fun m => (m.remove log.key).1
        else s.update map fun m => m.put log.key (.versioned vv.rollbackUncommitted)
      else s

def rollback (t : Transaction) (ts : TransactionStore) :
    H2Result Unit × Transaction × TransactionStore :=
  match t.status with
  | .rolledBack => (.ok (), t, ts)
  | .committed => (.error (.transaction "Transaction is already closed"), t, ts)
  | .opened =>
    (.ok (), { t with status := .rolledBack, undoLog := [], waiting := none },
      { ts with mvstore := t.undoLog.reverse.foldl (undo t.txId) ts.mvstore }.removeActiveTx t.txId)

def existing (ts : TransactionStore) (call : WriteCall) : H2Result (Option VersionedValue) :=
  match ts.mapGet call.map call.key with
  | none => .ok none
  | some stored => stored.fromBytes.map some

/-- The other transaction whose mark is in the way, if it is still open. -/
def blocker (t : Transaction) (ts : TransactionStore) (vv : Option VersionedValue) : Option Nat :=
  (vv.bind VersionedValue.activeTxId).filter fun id => id != t.txId && ts.isTxActive id

/-- A write meets the mark of `holder`.  `remaining` is what is left of the query's time.  A cycle of
waiters, or a query out of time, rolls the whole transaction back. -/
def waitFor (t : Transaction) (ts : TransactionStore) (call : WriteCall) (holder : Nat)
    (remaining : Option Nat) : Progress × Transaction × TransactionStore :=
  match ts.lockManager.registerWait t.txId holder with
  | .error e => (.returned (.error e), (t.rollback ts).2)
  | .ok lockManager =>
    let ts := { ts with lockManager }
    if remaining = some 0 then
      (.returned (.error (.queryTimeout "Query execution timed out waiting for lock")),
        (t.rollback ts).2)
    else
      let timeoutMs := match remaining with
        | some left => min ts.lockTimeoutMs left
        | none => ts.lockTimeoutMs
      (.waits, { t with waiting := some ⟨call, holder, lockManager.waitCell holder, timeoutMs⟩ }, ts)

def mark (t : Transaction) (ts : TransactionStore) (call : WriteCall) (vv : VersionedValue) :
    Progress × Transaction × TransactionStore :=
  (.returned (.ok true), { t with undoLog := t.undoLog ++ [⟨call.mapName, call.key⟩] },
    ts.mapPut call.map call.key { vv with uncommitted := some ⟨t.txId, call.value⟩ })

/-- One round of the loop of `put`. -/
def putOnce (t : Transaction) (ts : TransactionStore) (call : WriteCall) (remaining : Option Nat) :
    Progress × Transaction × TransactionStore :=
  match existing ts call with
  | .error e => (.returned (.error e), t, ts)
  | .ok vv =>
    match t.blocker ts vv with
    | some holder => t.waitFor ts call holder remaining
    | none => t.mark ts call (vv.getD ⟨none, []⟩)

/-- One round of the loop of `remove`, which leaves a key without a visible value alone. -/
def removeOnce (t : Transaction) (ts : TransactionStore) (call : WriteCall)
    (remaining : Option Nat) : Progress × Transaction × TransactionStore :=
  match existing ts call with
  | .error e => (.returned (.error e), t, ts)
  | .ok none => (.returned (.ok false), t, ts)
  | .ok (some vv) =>
    match t.blocker ts (some vv) with
    | some holder => t.waitFor ts call holder remaining
    | none =>
      if (vv.readVisible t.txId t.snapshotVersion).isNone then (.returned (.ok false), t, ts)
      else t.mark ts call vv

def writeOnce (t : Transaction) (ts : TransactionStore) (call : WriteCall) (remaining : Option Nat) :
    Progress × Transaction × TransactionStore :=
  if call.value.isSome then t.putOnce ts call remaining else t.removeOnce ts call remaining

/-- `put` with a value, `remove` without. -/
def write (t : Transaction) (ts : TransactionStore) (mapName : String) (key : Key)
    (value : Option (List UInt8)) (remaining : Option Nat) :
    Progress × Transaction × TransactionStore :=
  match t.checkOpen with
  | .error e => (.returned (.error e), t, ts)
  | .ok () =>
    let (map, ts) := ts.openMap mapName
    t.writeOnce ts ⟨mapName, map, key, value⟩ remaining

def put (t : Transaction) (ts : TransactionStore) (mapName : String) (key : Key)
    (value : List UInt8) (remaining : Option Nat) : Progress × Transaction × TransactionStore :=
  t.write ts mapName key (some value) remaining

def remove (t : Transaction) (ts : TransactionStore) (mapName : String) (key : Key)
    (remaining : Option Nat) : Progress × Transaction × TransactionStore :=
  t.write ts mapName key none remaining

def wake (t : Transaction) (ts : TransactionStore) (w : Waiting) (remaining : Option Nat) :
    Progress × Transaction × TransactionStore :=
  { t with waiting := none }.writeOnce
    { ts with lockManager := ts.lockManager.unregisterWait t.txId } w.call remaining

def timeOut (t : Transaction) (ts : TransactionStore) (w : Waiting) (remaining : Option Nat) :
    Progress × Transaction × TransactionStore :=
  let t := { t with waiting := none }
  let ts := { ts with lockManager := ts.lockManager.unregisterWait t.txId }
  if remaining = some 0 then
    (.returned (.error (.queryTimeout "Query execution timed out waiting for lock")),
      (t.rollback ts).2)
  else
    (.returned (.error (.lockConflict s!"Lock wait timeout ({w.timeoutMs}ms): transaction {t.txId} waiting on transaction {w.holder}")), t, ts)

def prepareEntry (txId commitVersion : Nat) (s : MVStore Stored) (log : UndoLogEntry) :
    H2Result (List (WalChange Stored)) × MVStore Stored :=
  let (map, s) := s.openMap log.mapName
  match (s.maps.deref map).bind fun m => m.get log.key with
  | none => (.ok [⟨log.mapName, log.key, none⟩], s)
  | some stored =>
    match stored.fromBytes with
    | .error e => (.error e, s)
    | .ok vv =>
      if vv.activeTxId = some txId then
        (.ok [⟨log.mapName, log.key, some (.versioned (vv.commitUncommitted commitVersion))⟩], s)
      else (.ok [], s)

def prepare (txId : Nat) :
    List UndoLogEntry → Nat → MVStore Stored → H2Result (List (WalChange Stored)) × MVStore Stored
  | [], _, s => (.ok [], s)
  | log :: logs, commitVersion, s =>
    match prepareEntry txId commitVersion s log with
    | (.error e, s) => (.error e, s)
    | (.ok changes, s) =>
      match prepare txId logs commitVersion s with
      | (.error e, s) => (.error e, s)
      | (.ok rest, s) => (.ok (changes ++ rest), s)

def closed (t : Transaction) (ts : TransactionStore) : Transaction × TransactionStore :=
  ({ t with status := .committed }, ts.removeActiveTx t.txId)

/-- `sync` is what the operating system answers to the append and sync of the log. -/
def commit (t : Transaction) (ts : TransactionStore) (sync : H2Result Unit) :
    H2Result Unit × Transaction × TransactionStore :=
  match t.status with
  | .committed => (.ok (), t, ts)
  | .rolledBack => (.error (.transaction "Transaction is already closed"), t, ts)
  | .opened =>
    if t.undoLog.isEmpty then (.ok (), t.closed ts)
    else
      match ts.mvstore.commitWith t.txId (prepare t.txId t.undoLog) sync with
      | (.ok (), mvstore) => (.ok (), t.closed { ts with mvstore })
      | (.error e, mvstore) => (.error e, (t.rollback { ts with mvstore }).2)

end Transaction

end H2Database.Mvstore
