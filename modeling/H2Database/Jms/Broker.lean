import H2Database.Types.Error
import H2Database.Reasoning.Run
import Mathlib.Data.List.Sort

/-!
# Queues (`h2/src/jms.rs`)

One queue table with the transactions that write it, and the consumers of it.  An INSERT is given its offset
at once (`allocate_row_id`), and is seen by others when its transaction has committed; a transaction reads
what was committed when it began, and what it has written itself.  A session that is not transacted sends
with a transaction of its own for each message; it is a producer like any other.
-/

namespace H2Database.Jms

/-- A row of the queue: `_offset` and the payload. -/
structure Message where
  offset : Nat
  text : String
  deriving DecidableEq

/-- The queue and the map `queue_offsets_` of it. -/
structure Contents where
  messages : List Message
  groups : String → Option Nat

inductive Edit where
  | insert (m : Message)
  | remove (offset : Nat)
  | saveOffset (group : String) (offset : Nat)

def Contents.edit (c : Contents) : Edit → Contents
  | .insert m => { c with messages := c.messages ++ [m] }
  | .remove offset => { c with messages := c.messages.filter fun m => m.offset ≠ offset }
  | .saveOffset group offset => { c with groups := Function.update c.groups group (some offset) }

def Contents.offsets (c : Contents) : List Nat := c.messages.map Message.offset

structure Transaction where
  snapshot : Contents
  edits : List Edit

namespace Transaction

def view (t : Transaction) : Contents := t.edits.foldl Contents.edit t.snapshot

def inserted (t : Transaction) : List Nat :=
  t.edits.filterMap fun
    | .insert m => some m.offset
    | _ => none

def add (t : Transaction) (e : Edit) : Transaction := { t with edits := t.edits ++ [e] }

end Transaction

/-- Sessions keep their transaction in `active_tx`. -/
inductive Owner where
  | producer (p : Nat)
  | session (s : Nat)
  deriving DecidableEq

structure Consumer where
  session : Nat
  groupId : String
  currentOffset : Nat

/-- The queue's name, and of each session whether it is transacted and whether its acknowledgement mode is
`AutoAcknowledge`. -/
class Setup where
  queue : String
  isTransacted : Nat → Bool
  autoAcknowledge : Nat → Bool

structure Broker where
  contents : Contents
  nextRowId : Nat
  transactions : Owner → Option Transaction
  consumers : Nat → Option Consumer

inductive Event where
  | committed (o : Owner) (published purged : List Nat)
  | rolledBack (o : Owner) (discarded : List Nat)
  | created (c s : Nat) (groupId : String) (start : Nat)
  | received (c s : Nat) (current : Nat) (answer : H2Result (Option Message))

structure Watched where
  broker : Broker
  trace : List Event

inductive Action where
  | begin (p : Nat)
  | insert (p : Nat) (text : String)
  | purge (o : Owner) (offsets : List Nat)
  | commit (o : Owner)
  | rollback (o : Owner)
  | send (s : Nat) (text : String)
  | createConsumer (c s : Nat) (groupId : String)
  | commitOffset (c offset : Nat)
  | receive (c : Nat)

namespace Broker

def new : Broker := ⟨⟨[], fun _ => none⟩, 1, fun _ => none, fun _ => none⟩

def begin (b : Broker) (o : Owner) : Broker :=
  { b with transactions := Function.update b.transactions o (some ⟨b.contents, []⟩) }

def opened (b : Broker) (o : Owner) : Broker := if (b.transactions o).isSome then b else b.begin o

def edit (b : Broker) (o : Owner) (e : Edit) : Broker :=
  { b with transactions := Function.update b.transactions o ((b.transactions o).map (·.add e)) }

/-- `send_with_tx` -/
def insert (b : Broker) (o : Owner) (text : String) : Broker :=
  if (b.transactions o).isSome then
    { b.edit o (.insert ⟨b.nextRowId, text⟩) with nextRowId := b.nextRowId + 1 }
  else b

/-- `purge_queue_retention` removes messages that the transaction sees.  Which, is for the retention. -/
def purge (b : Broker) (o : Owner) (offsets : List Nat) : Broker :=
  match b.transactions o with
  | none => b
  | some t => (offsets.filter (· ∈ t.view.offsets)).foldl (fun b offset => b.edit o (.remove offset)) b

def close (b : Broker) (o : Owner) : Broker :=
  { b with transactions := Function.update b.transactions o none }

def setConsumer (b : Broker) (c : Nat) (consumer : Consumer) : Broker :=
  { b with consumers := Function.update b.consumers c (some consumer) }

end Broker

/-! ## Consumers -/

/-- `SELECT MIN(_offset)` -/
def oldest (messages : List Message) : Option Nat := (messages.map Message.offset).min?

/-- `WHERE _offset >= current ORDER BY _offset ASC LIMIT 1` -/
def nextMessage (messages : List Message) (current : Nat) : Option Message :=
  ((messages.filter fun m => current ≤ m.offset).insertionSort fun a b => a.offset ≤ b.offset).head?

variable [Setup]

def tryReceiveSingle (messages : List Message) (current : Nat) : H2Result (Option Message) :=
  match oldest messages with
  | none => .ok (nextMessage messages current)
  | some min =>
    if 0 < min ∧ current < min then
      .error (.offsetOutOfRange
        (s!"Requested offset {current} is out of range. Oldest available offset in " ++
        s!"queue '{Setup.queue}' is {min}"))
    else .ok (nextMessage messages current)

namespace Broker

def reader (b : Broker) (consumer : Consumer) : Broker × Contents :=
  if Setup.isTransacted consumer.session then
    let b := b.opened (.session consumer.session)
    (b, ((b.transactions (.session consumer.session)).map Transaction.view).getD b.contents)
  else (b, b.contents)

/-- The offset goes on in memory.  Only a consumer that is not transacted saves it, in its own transaction. -/
def receive (b : Broker) (c : Nat) (consumer : Consumer) : Broker × H2Result (Option Message) :=
  let (b, seen) := b.reader consumer
  match tryReceiveSingle seen.messages consumer.currentOffset with
  | .ok (some m) =>
    let b := b.setConsumer c { consumer with currentOffset := m.offset + 1 }
    if !Setup.isTransacted consumer.session && Setup.autoAcknowledge consumer.session then
      ({ b with contents := b.contents.edit (.saveOffset consumer.groupId (m.offset + 1)) }, .ok (some m))
    else (b, .ok (some m))
  | answer => (b, answer)

/-- `load_committed_offset`, or else `seek_to_beginning` -/
def startOffset (b : Broker) (groupId : String) : Nat :=
  (b.contents.groups groupId).getD ((oldest b.contents.messages).getD 1)

end Broker

namespace Watched

def new : Watched := ⟨.new, []⟩

def step (w : Watched) : Action → Watched
  | .begin p => { w with broker := w.broker.opened (.producer p) }
  | .insert p text => { w with broker := w.broker.insert (.producer p) text }
  | .purge o offsets => { w with broker := w.broker.purge o offsets }
  | .commit o =>
    match w.broker.transactions o with
    | none => w
    | some t =>
      let contents := t.edits.foldl Contents.edit w.broker.contents
      let published := contents.offsets.filter (· ∉ w.broker.contents.offsets)
      let purged := w.broker.contents.offsets.filter (· ∉ contents.offsets)
      ⟨{ w.broker.close o with contents }, .committed o published purged :: w.trace⟩
  | .rollback o =>
    match w.broker.transactions o with
    | none => w
    | some t => ⟨w.broker.close o, .rolledBack o t.inserted :: w.trace⟩
  | .send s text =>
    if Setup.isTransacted s then
      { w with broker := (w.broker.opened (.session s)).insert (.session s) text }
    else w
  | .createConsumer c s groupId =>
    match w.broker.consumers c with
    | some _ => w
    | none =>
      let start := w.broker.startOffset groupId
      ⟨w.broker.setConsumer c ⟨s, groupId, start⟩, .created c s groupId start :: w.trace⟩
  | .commitOffset c offset =>
    match w.broker.consumers c with
    | none => w
    | some consumer =>
      { w with broker.contents := w.broker.contents.edit (.saveOffset consumer.groupId offset) }
  | .receive c =>
    match w.broker.consumers c with
    | none => w
    | some consumer =>
      let (broker, answer) := w.broker.receive c consumer
      ⟨broker, .received c consumer.session consumer.currentOffset answer :: w.trace⟩

end Watched

end H2Database.Jms
