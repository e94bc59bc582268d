import Groupcast.Link.Window
import Groupcast.Protocol
import Groupcast.Timers

/-!
# Stubborn links

A stubborn link sends each data message to its peer again and again until the peer acknowledges it.
It does not tell first copies from later ones: every copy that arrives is acknowledged and passed
on.  The link stamps ids, counting up from one.  Heartbeats are sent once, since the failure
detector supplies their periodicity.
-/

namespace Groupcast

/-- One end of a stubborn link. -/
structure StubbornLink where
  /-- The host at this end. -/
  self : HostId
  peer : Host
  /-- How long to wait for an acknowledgement. -/
  interval : Nat
  /-- The id that was given out last. -/
  lastId : UInt32
  /-- The messages that wait for an acknowledgement, by id. -/
  sent : Std.ExtTreeMap UInt32 Message
  /-- The ids of messages that have been acknowledged. -/
  acked : Window
  /-- The timers of the messages that wait. -/
  timers : Timers UInt32

namespace StubbornLink

/-- A link that has sent nothing. -/
def ofPeer (self : HostId) (peer : Host) (interval : Nat) : StubbornLink where
  self := self
  peer := peer
  interval := interval
  lastId := 0
  sent := ∅
  acked := .empty
  timers := .empty

/-- The datagram that carries a message to the peer. -/
def datagram (l : StubbornLink) (m : Message) : Datagram := ⟨l.peer.address, m.encode⟩

/-- A message with the next id and the peer as its receiver. -/
def stamp (l : StubbornLink) (m : Message) : Message :=
  { m with id := l.lastId + 1, receiver := l.peer.id }

/-- Sends a message, and keeps it if it is data.  Returns the id that it is stamped with. -/
def send (l : StubbornLink) (m : Message) (now : Nat) : Step StubbornLink UInt32 :=
  let m := l.stamp m
  let link :=
    if m.kind = .data then
      { l with
        lastId := m.id
        sent := l.sent.insert m.id m
        timers := l.timers.schedule m.id (now + l.interval) l.interval }
    else { l with lastId := m.id }
  ⟨link, [l.datagram m], m.id⟩

/-- Counts a message as acknowledged if it waits for that. -/
def acknowledge (l : StubbornLink) (id : UInt32) : StubbornLink :=
  if l.sent.contains id then
    { l with sent := l.sent.erase id, acked := l.acked.insert id, timers := (l.timers.cancel id).1 }
  else l

/-- Takes in a message of the peer, and passes it on unless it is an acknowledgement. -/
def deliver (l : StubbornLink) (m : Message) : Step StubbornLink (Option Message) :=
  match m.kind with
  | .ack =>
    match m.ackedId with
    | .ok id => ⟨l.acknowledge id, [], none⟩
    | .error _ => ⟨l, [], none⟩
  | .data => ⟨l, [l.datagram (m.ack l.self)], some m⟩
  | .heartbeat | .heartbeatAck => ⟨l, [], some m⟩

/-- Sends every message again whose time has come. -/
def onTimeout (l : StubbornLink) (now : Nat) : Step StubbornLink Unit :=
  let due := l.timers.due now
  let done := due.filter l.acked.contains
  let waiting := due.filter fun id => !l.acked.contains id
  ⟨{ l with timers := done.foldl (fun timers id => (timers.cancel id).1) (l.timers.advance now) },
    waiting.filterMap fun id => l.sent[id]?.map l.datagram, ()⟩

/-- When a message is to be sent again next. -/
def nextDeadline? (l : StubbornLink) : Option Nat := l.timers.nextDeadline?

/-- Whether a message has been acknowledged. -/
def isAcked (l : StubbornLink) (id : UInt32) : Bool := l.acked.contains id

/-- The number of messages that wait for an acknowledgement. -/
def inFlight (l : StubbornLink) : Nat := l.sent.size

/-- Gives up on all messages that wait. -/
def stop (l : StubbornLink) : StubbornLink := { l with sent := ∅, timers := .empty }

end StubbornLink

end Groupcast
