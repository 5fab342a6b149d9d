import H2Database.Mvstore.Replication

/-!
# The primary and its standbys (`h2/src/replication.rs`)

`PrimaryReplicationHub` with the connections it serves, as a step function over what its threads and the
standbys do one at a time.  A connection has a handler on the primary (`handle_standby_connection`), a
standby at the other end (`run_standby_client`) and a stream of messages in each direction; either side
may go away at any moment, which covers every failed read or write.  The store makes one call of
`on_commit` at a time, under its locks.  The only mode there is is `RemoteApply`.
-/

namespace H2Database.Replication

open Reasoning
open Mvstore

abbrev Bytes := List UInt8

inductive ReplicationMessage where
  | snapshotRequest
  | snapshotResponse (currentVersion : Nat) (maps : BackupData)
  | commit (record : ReplicationCommitRecord Bytes)
  | applied (commitVersion : Nat)
  | ping
  | pong

/-- A receiver of the channel: the records it has not read, and how many it has missed. -/
structure Receiver where
  queue : List (ReplicationCommitRecord Bytes)
  lagged : Nat

def channelCapacity : Nat := 1024

def Receiver.send (r : Receiver) (record : ReplicationCommitRecord Bytes) : Receiver :=
  if r.queue.length < channelCapacity then { r with queue := r.queue ++ [record] }
  else ⟨r.queue.tail ++ [record], r.lagged + 1⟩

/-! ## One connection -/

inductive HandlerPhase where
  | accepted
  | serving (commitRx : Receiver)
  | closed

def HandlerPhase.isClosed : HandlerPhase → Bool
  | .closed => true
  | _ => false

inductive StandbyPhase where
  | connected
  | syncing
  | following
  | stopped
  deriving DecidableEq, Repr

/-- `appliedVersions` are the versions of the records that the standby has applied. -/
structure StandbyConnection where
  handler : HandlerPhase
  standby : StandbyPhase
  toStandby : List ReplicationMessage
  toPrimary : List ReplicationMessage
  store : MVStore Bytes
  appliedVersions : List Nat

namespace StandbyConnection

def new (store : MVStore Bytes) : StandbyConnection := ⟨.accepted, .connected, [], [], store, []⟩

def Disconnected (c : StandbyConnection) : Prop := c.handler.isClosed = true ∨ c.standby = .stopped

instance (c : StandbyConnection) : Decidable c.Disconnected := inferInstanceAs (Decidable (_ ∨ _))

def subscribe (c : StandbyConnection) : StandbyConnection :=
  match c.handler with
  | .accepted => { c with handler := .serving ⟨[], 0⟩ }
  | _ => c

def send (c : StandbyConnection) (record : ReplicationCommitRecord Bytes) : StandbyConnection :=
  match c.handler with
  | .serving rx => { c with handler := .serving (rx.send record) }
  | _ => c

/-- `commit_rx.recv()` in the handler's loop: a record goes out, or the handler hears that it has missed
some. -/
def forward (c : StandbyConnection) : StandbyConnection :=
  match c.handler with
  | .serving rx =>
    if 0 < rx.lagged then { c with handler := .serving { rx with lagged := 0 } }
    else
      match rx.queue with
      | [] => c
      | record :: rest =>
        { c with
          handler := .serving { rx with queue := rest }
          toStandby := c.toStandby ++ [.commit record] }
  | _ => c

def request (c : StandbyConnection) : StandbyConnection :=
  match c.standby with
  | .connected => { c with standby := .syncing, toPrimary := c.toPrimary ++ [.snapshotRequest] }
  | _ => c

/-- The standby's next message: the snapshot, then records, each applied and acknowledged.  `io` is the
outcome of its checkpoint and `reload` of `catalog().reload()`. -/
def receive (c : StandbyConnection) (io : WriteOutcome) (reload : H2Result Unit) : StandbyConnection :=
  match c.toStandby with
  | [] => c
  | msg :: rest =>
    match c.standby, msg with
    | .syncing, .snapshotResponse currentVersion maps =>
      match c.store.applySnapshot currentVersion maps io, reload with
      | (.ok (), store), .ok () => { c with toStandby := rest, store := store, standby := .following }
      | (_, store), _ => { c with toStandby := rest, store := store, standby := .stopped }
    | .syncing, _ => { c with toStandby := rest, standby := .stopped }
    | .following, .commit record =>
      match c.store.applyCommitRecord record io with
      | (.error _, store) => { c with toStandby := rest, store := store, standby := .stopped }
      | (.ok (), store) =>
        { c with
          toStandby := rest
          toPrimary := c.toPrimary ++ [.applied record.commitVersion]
          store := store
          appliedVersions := c.appliedVersions ++ [record.commitVersion] }
    | .following, .ping => { c with toStandby := rest, toPrimary := c.toPrimary ++ [.pong] }
    | .following, _ => { c with toStandby := rest }
    | _, _ => c

end StandbyConnection

/-! ## The hub -/

/-- A call of `on_commit`; `connected` are the standbys that were connected when its record was
broadcast. -/
structure CommitCall where
  version : Nat
  connected : Option (List Nat)
  deriving DecidableEq, Repr

/-- `applied` is the version under `apply_condvar`.  The calls that have returned and the versions that
have been broadcast are kept for the record. -/
structure PrimaryReplicationHub where
  applied : Nat
  standbyConnected : Bool
  connections : List StandbyConnection
  waiting : Option CommitCall
  returned : List (CommitCall × H2Result Unit)
  broadcasts : List Nat

inductive HubEvent where
  | accept (store : MVStore Bytes)
  | subscribe (i : Nat)
  | request (i : Nat)
  | onCommit (commitVersion : Nat) (changes : List (ReplicationChange Bytes)) (timestampMs : Nat)
  | forward (i : Nat)
  | serve (i : Nat) (primary : MVStore Bytes)
  | receive (i : Nat) (io : WriteOutcome) (reload : H2Result Unit)
  | close (i : Nat)
  | stop (i : Nat)
  | wake
  | timeout

namespace PrimaryReplicationHub

def new : PrimaryReplicationHub := ⟨0, false, [], none, [], []⟩

def notifyApplied (h : PrimaryReplicationHub) (version : Nat) : PrimaryReplicationHub :=
  { h with applied := max h.applied version }

def onConnection (h : PrimaryReplicationHub) (i : Nat) (f : StandbyConnection → StandbyConnection) :
    PrimaryReplicationHub :=
  { h with connections := h.connections.modify i f }

def connected (h : PrimaryReplicationHub) : List Nat :=
  (List.range h.connections.length).filter fun i =>
    (h.connections[i]?).any fun c => !decide c.Disconnected

/-- `on_commit` up to its wait. -/
def onCommit (h : PrimaryReplicationHub) (commitVersion : Nat) (changes : List (ReplicationChange Bytes))
    (timestampMs : Nat) : PrimaryReplicationHub :=
  if changes = [] then { h with returned := h.returned ++ [(⟨commitVersion, none⟩, .ok ())] }
  else if !h.standbyConnected then
    { h with returned := h.returned ++ [(⟨commitVersion, none⟩, .ok ())] }
  else
    { h with
      connections := h.connections.map fun c => c.send ⟨commitVersion, changes, timestampMs⟩
      waiting := some ⟨commitVersion, some h.connected⟩
      broadcasts := h.broadcasts ++ [commitVersion] }

def serve (h : PrimaryReplicationHub) (i : Nat) (primary : MVStore Bytes) : PrimaryReplicationHub :=
  match h.connections[i]? with
  | some c =>
    match c.handler, c.toPrimary with
    | .serving _, .snapshotRequest :: rest => h.onConnection i fun c =>
        { c with
          toPrimary := rest
          toStandby := c.toStandby ++ [.snapshotResponse primary.version primary.backupData] }
    | .serving _, .applied commitVersion :: rest =>
      (h.onConnection i fun c => { c with toPrimary := rest }).notifyApplied commitVersion
    | .serving _, .ping :: rest => h.onConnection i fun c =>
        { c with toPrimary := rest, toStandby := c.toStandby ++ [.pong] }
    | .serving _, _ :: rest => h.onConnection i fun c => { c with toPrimary := rest }
    | _, _ => h
  | none => h

def finish (h : PrimaryReplicationHub) (call : CommitCall) (result : H2Result Unit) :
    PrimaryReplicationHub :=
  { h with waiting := none, returned := h.returned ++ [(call, result)] }

def step (h : PrimaryReplicationHub) : HubEvent → PrimaryReplicationHub
  | .accept store =>
    { h with standbyConnected := true, connections := h.connections ++ [.new store] }
  | .subscribe i => h.onConnection i .subscribe
  | .request i => h.onConnection i .request
  | .onCommit commitVersion changes timestampMs =>
    match h.waiting with
    | some _ => h
    | none => h.onCommit commitVersion changes timestampMs
  | .forward i => h.onConnection i .forward
  | .serve i primary => h.serve i primary
  | .receive i io reload => h.onConnection i fun c => c.receive io reload
  | .close i => h.onConnection i fun c => { c with handler := .closed }
  | .stop i => h.onConnection i fun c => { c with standby := .stopped }
  | .wake =>
    -- `while *cur < commit_version`
    match h.waiting with
    | some call => if h.applied < call.version then h else h.finish call (.ok ())
    | none => h
  | .timeout =>
    match h.waiting with
    | some call =>
      if h.applied < call.version then
        h.finish call (.error (.replication (s!"remote_apply replication timeout waiting for version " ++
          s!"{call.version} (current applied: {h.applied})")))
      else h
    | none => h

end PrimaryReplicationHub

end H2Database.Replication
