import Groupcast.Broadcast.BestEffort
import Groupcast.Broadcast.Label

/-!
# Uniform reliable broadcast

Every member relays a message the first time it sees it, and delivers it only once a majority of
the group is known to hold it.  What is delivered anywhere, even by a process that crashes
afterwards, is therefore held by a correct process and reaches all of them.

A member relays a message in an *envelope*: a data message of its own whose payload is the encoding
of the message.
-/

namespace Groupcast

/-- A message that waits for a majority. -/
structure Pending where
  message : Message
  /-- The members that are known to hold it. -/
  holders : Std.ExtTreeSet HostId
  deriving DecidableEq

/-- One member of a group that broadcasts uniformly. -/
structure UniformBroadcast where
  group : BestEffort
  /-- The number of the last message of this member's own. -/
  lastId : UInt32
  /-- The messages that have been relayed. -/
  forwarded : Std.ExtTreeSet Label
  pending : Std.ExtTreeMap Label Pending
  delivered : Std.ExtTreeSet Label

namespace UniformBroadcast

/-- The member with a number, before it has sent or heard anything. -/
def ofHosts (self : HostId) (hosts : Hosts) (tuning : Tuning) : UniformBroadcast where
  group := .ofHosts self hosts tuning
  lastId := 0
  forwarded := ∅
  pending := ∅
  delivered := ∅

/-- The member's number. -/
def self (u : UniformBroadcast) : HostId := u.group.self

/-- The envelope in which this member relays a message. -/
def envelope (u : UniformBroadcast) (m : Message) : Message := .ofData u.self m.seq m.encode

/-- Sends a message to all members in an envelope. -/
def relay (u : UniformBroadcast) (m : Message) (now : Nat) : Step UniformBroadcast Unit :=
  let step := u.group.broadcast (u.envelope m) now
  ⟨{ u with group := step.state }, step.sent, ()⟩

/-- A message as this member broadcasts it next: with its own number and the next id. -/
def stamp (u : UniformBroadcast) (m : Message) : Message :=
  { m with id := u.lastId + 1, sender := u.self }

/-- Broadcasts a message of this member's own, and returns its label. -/
def broadcast (u : UniformBroadcast) (m : Message) (now : Nat) : Step UniformBroadcast Label :=
  let m := u.stamp m
  let label := Label.ofMessage m
  let step := { u with
    lastId := m.id
    forwarded := u.forwarded.insert label
    pending := u.pending.insertIfNew label ⟨m, ∅⟩ }.relay m now
  ⟨step.state, step.sent, label⟩

/-- Notes that a member holds a message. -/
def addHolder (u : UniformBroadcast) (m : Message) (holder : HostId) : UniformBroadcast :=
  let label := Label.ofMessage m
  let p := u.pending.getD label ⟨m, ∅⟩
  { u with pending := u.pending.insert label { p with holders := p.holders.insert holder } }

/-- Relays a message unless that has been done. -/
def relayOnce (u : UniformBroadcast) (m : Message) (now : Nat) : Step UniformBroadcast Unit :=
  let label := Label.ofMessage m
  if u.forwarded.contains label then ⟨u, [], ()⟩
  else { u with forwarded := u.forwarded.insert label }.relay m now

/-- Delivers the message with a label if a majority holds it. -/
def tryDeliver (u : UniformBroadcast) (label : Label) : UniformBroadcast × Option Message :=
  match u.pending[label]? with
  | some p =>
    if u.group.quorum ≤ p.holders.size then
      ({ u with pending := u.pending.erase label, delivered := u.delivered.insert label },
        some p.message)
    else (u, none)
  | none => (u, none)

/-- Takes in a message that `holder` has relayed. -/
def onRelayed (u : UniformBroadcast) (holder : HostId) (m : Message) (now : Nat) :
    Step UniformBroadcast (Option Message) :=
  let label := Label.ofMessage m
  if !u.group.hosts.contains m.sender || u.delivered.contains label then ⟨u, [], none⟩
  else
    let step := (u.addHolder m holder).relayOnce m now
    let (u, delivered) := step.state.tryDeliver label
    ⟨u, step.sent, delivered⟩

/-- Takes in a message of a member, and returns the message in its envelope if a majority holds that
from now on. -/
def deliver (u : UniformBroadcast) (sender : HostId) (m : Message) (now : Nat) :
    Step UniformBroadcast (Option Message) :=
  let step := u.group.deliver sender m
  let u := { u with group := step.state }
  match step.result with
  | none => ⟨u, step.sent, none⟩
  | some envelope =>
    match Message.decode envelope.payload with
    | .error _ => ⟨u, step.sent, none⟩
    | .ok inner =>
      let relayed := u.onRelayed sender inner now
      ⟨relayed.state, step.sent ++ relayed.sent, relayed.result⟩

/-- Whether the message with a label has been delivered. -/
def isDelivered (u : UniformBroadcast) (label : Label) : Bool := u.delivered.contains label

/-- Sends every message again whose time has come. -/
def onTimeout (u : UniformBroadcast) (now : Nat) : Step UniformBroadcast Unit :=
  let step := u.group.onTimeout now
  ⟨{ u with group := step.state }, step.sent, ()⟩

/-- When a message is to be sent again next. -/
def nextDeadline? (u : UniformBroadcast) : Option Nat := u.group.nextDeadline?

/-- The number of messages that wait for an acknowledgement. -/
def inFlight (u : UniformBroadcast) : Nat := u.group.inFlight

/-- Gives up on all messages that wait. -/
def stop (u : UniformBroadcast) : UniformBroadcast := { u with group := u.group.stop }

/-- Broadcasts a payload; the id of the message is its sequence number too. -/
def onCommand (u : UniformBroadcast) (payload : Bytes) (now : Nat) :
    Except CommandError (Step UniformBroadcast (List Event)) :=
  let step := u.broadcast (.ofData u.self (u.lastId + 1) payload) now
  .ok ⟨step.state, step.sent, [.broadcast step.result.number]⟩

/-- Takes in a message of a member, and reports what is delivered. -/
def onMessage (u : UniformBroadcast) (sender : HostId) (m : Message) (now : Nat) :
    Step UniformBroadcast (List Event) :=
  let step := u.deliver sender m now
  ⟨step.state, step.sent, step.result.toList.map fun m => .deliver m.sender m.id⟩

instance : Protocol UniformBroadcast where
  Command := Bytes
  onCommand := onCommand
  onMessage := onMessage
  onTimeout := onTimeout
  nextDeadline? := nextDeadline?
  stop := stop

end UniformBroadcast

end Groupcast
