import Groupcast.Broadcast.History
import Groupcast.Broadcast.Uniform

/-!
# Broadcast in order

Broadcast on top of uniform reliable broadcast in which the messages of each sender are delivered in
the order in which it has broadcast them, each exactly once.  Every message carries as much of its
sender's history as fits, so that a receiver that is ahead of a message or has missed one can
close the gap from whichever message reaches it first.  A message that is ahead of its turn waits in
a backlog.
-/

namespace Groupcast

/-- One member of a group that broadcasts in order. -/
structure FifoBroadcast where
  uniform : UniformBroadcast
  /-- The sequence number of this member's next message. -/
  nextSeq : UInt32
  /-- The sequence number that is to be delivered next, by sender; one if there is no entry. -/
  next : Std.ExtTreeMap HostId UInt32
  /-- The messages that have been broadcast or delivered. -/
  history : History
  /-- The messages that are ahead of their turn, by sender and sequence number. -/
  backlog : History
  /-- The senders and sequence numbers of what has been delivered. -/
  delivered : Std.ExtTreeSet Label

namespace FifoBroadcast

/-- The member with a number, before it has sent or heard anything. -/
def ofHosts (self : HostId) (hosts : Hosts) (tuning : Tuning) : FifoBroadcast where
  uniform := .ofHosts self hosts tuning
  nextSeq := 1
  next := ∅
  history := ∅
  backlog := ∅
  delivered := ∅

/-- The member's number. -/
def self (f : FifoBroadcast) : HostId := f.uniform.self

/-- The sequence number that is to be delivered next of a sender. -/
def nextExpected (f : FifoBroadcast) (sender : HostId) : UInt32 := f.next.getD sender 1

/-- The payload that carries a message: as much history as there is room for, then the message. -/
def body (history : History) (m : Message) : Bytes :=
  history.encode (History.budget - m.payload.length) ++ m.encodeFramed

/-- Reads a body: its blocks of history and the message that it carries. -/
def readBody : Reader (List Block × Message) := do
  let blocks ← Block.readAll
  let m ← Message.readFramed
  pure (blocks, m)

/-- Broadcasts a payload, and returns the sequence number of its message. -/
def broadcast (f : FifoBroadcast) (payload : Bytes) (now : Nat) : Step FifoBroadcast UInt32 :=
  let seq := f.nextSeq
  let m := Message.ofData f.self seq payload
  let step := f.uniform.broadcast (.ofData f.self seq (body f.history m)) now
  ⟨{ f with
      uniform := step.state
      nextSeq := seq + 1
      history := f.history.add f.self seq m },
    step.sent, seq⟩

/-- Puts a message into the backlog of its sender, unless its turn is over. -/
def accept (f : FifoBroadcast) (m : Message) : FifoBroadcast :=
  if f.delivered.contains ⟨m.sender, m.seq⟩ || m.seq < f.nextExpected m.sender then f
  else { f with backlog := f.backlog.add m.sender m.seq m }

/-- Notes that the next message of a sender is delivered. -/
def deliverNext (f : FifoBroadcast) (sender : HostId) (m : Message) : FifoBroadcast :=
  let seq := f.nextExpected sender
  { f with
    next := f.next.insert sender (seq + 1)
    history := f.history.add sender seq m
    backlog := f.backlog.insert sender ((f.backlog.messages sender).erase seq)
    delivered := f.delivered.insert ⟨sender, seq⟩ }

/-- Delivers messages of a sender from its backlog as long as the next one is there, at most `n`
of them. -/
def drainUpTo : Nat → FifoBroadcast → HostId → FifoBroadcast × List Message
  | 0, f, _ => (f, [])
  | n + 1, f, sender =>
    match (f.backlog.messages sender)[f.nextExpected sender]? with
    | none => (f, [])
    | some m =>
      let (f, ms) := drainUpTo n (f.deliverNext sender m) sender
      (f, m :: ms)

/-- Delivers messages of a sender from its backlog as long as the next one is there. -/
def drain (f : FifoBroadcast) (sender : HostId) : FifoBroadcast × List Message :=
  let (f, ms) := drainUpTo (f.backlog.messages sender).size f sender
  if (f.backlog.messages sender).isEmpty then
    ({ f with backlog := f.backlog.erase sender }, ms)
  else (f, ms)

/-- Takes in a block of history.  Blocks of hosts that are no members are ignored, and so are
messages of other hosts than the block's. -/
def onBlock (f : FifoBroadcast) (b : Block) : FifoBroadcast × List Message :=
  if f.uniform.group.hosts.contains b.1 then
    ((b.2.filter fun m => m.sender = b.1).foldl accept f).drain b.1
  else (f, [])

/-- Takes in blocks of history in order. -/
def onBlocks (f : FifoBroadcast) : List Block → FifoBroadcast × List Message
  | [] => (f, [])
  | b :: bs =>
    let (f, first) := f.onBlock b
    let (f, rest) := f.onBlocks bs
    (f, first ++ rest)

/-- Takes in a carried message and the history beside it, and delivers what has its turn: first of
the carried message's sender, then block by block, and of that sender once more. -/
def onBody (f : FifoBroadcast) (blocks : List Block) (m : Message) :
    FifoBroadcast × List Message :=
  let (f, first) := (f.accept m).drain m.sender
  let (f, second) := f.onBlocks blocks
  let (f, third) := f.drain m.sender
  (f, first ++ second ++ third)

/-- Takes in a message of a member, and returns the messages whose turn has come. -/
def deliver (f : FifoBroadcast) (sender : HostId) (m : Message) (now : Nat) :
    Step FifoBroadcast (List Message) :=
  let step := f.uniform.deliver sender m now
  let f := { f with uniform := step.state }
  match step.result with
  | none => ⟨f, step.sent, []⟩
  | some carrier =>
    match readBody.run carrier.payload with
    | .error _ _ => ⟨f, step.sent, []⟩
    | .ok (blocks, carried) _ =>
      if carried.sender ≠ carrier.sender then ⟨f, step.sent, []⟩
      else
        let (f, delivered) := f.onBody blocks carried
        ⟨f, step.sent, delivered⟩

/-- Sends every message again whose time has come. -/
def onTimeout (f : FifoBroadcast) (now : Nat) : Step FifoBroadcast Unit :=
  let step := f.uniform.onTimeout now
  ⟨{ f with uniform := step.state }, step.sent, ()⟩

/-- When a message is to be sent again next. -/
def nextDeadline? (f : FifoBroadcast) : Option Nat := f.uniform.nextDeadline?

/-- The number of messages that wait for an acknowledgement. -/
def inFlight (f : FifoBroadcast) : Nat := f.uniform.inFlight

/-- Gives up on all messages that wait. -/
def stop (f : FifoBroadcast) : FifoBroadcast := { f with uniform := f.uniform.stop }

/-- Broadcasts a payload. -/
def onCommand (f : FifoBroadcast) (payload : Bytes) (now : Nat) :
    Except CommandError (Step FifoBroadcast (List Event)) :=
  let step := f.broadcast payload now
  .ok ⟨step.state, step.sent, [.broadcast step.result]⟩

/-- Takes in a message of a member, and reports what is delivered. -/
def onMessage (f : FifoBroadcast) (sender : HostId) (m : Message) (now : Nat) :
    Step FifoBroadcast (List Event) :=
  let step := f.deliver sender m now
  ⟨step.state, step.sent, step.result.map fun m => .deliver m.sender m.seq⟩

instance : Protocol FifoBroadcast where
  Command := Bytes
  onCommand := onCommand
  onMessage := onMessage
  onTimeout := onTimeout
  nextDeadline? := nextDeadline?
  stop := stop

end FifoBroadcast

end Groupcast
