import Groupcast.Link.Stubborn

/-!
# Perfect links

A perfect link passes each data message of its peer on exactly once.  It sits on a stubborn link,
which goes on acknowledging copies, and drops the copies by the ids that it has delivered.
Heartbeats pass straight through.
-/

namespace Groupcast

/-- One end of a perfect link. -/
structure PerfectLink where
  link : StubbornLink
  /-- The number of messages sent. -/
  sentCount : Nat
  /-- The ids of the data messages that have been passed on. -/
  delivered : Window

namespace PerfectLink

/-- A link that has sent and heard nothing. -/
def ofPeer (self : HostId) (peer : Host) (interval : Nat) : PerfectLink where
  link := .ofPeer self peer interval
  sentCount := 0
  delivered := .empty

/-- The host at the other end. -/
def peer (l : PerfectLink) : Host := l.link.peer

/-- Sends a message, and returns the id that it is stamped with. -/
def send (l : PerfectLink) (m : Message) (now : Nat) : Step PerfectLink UInt32 :=
  let step := l.link.send m now
  ⟨{ l with link := step.state, sentCount := l.sentCount + 1 }, step.sent, step.result⟩

/-- Takes in a message of the peer, and passes it on unless it is an acknowledgement or a copy. -/
def deliver (l : PerfectLink) (m : Message) : Step PerfectLink (Option Message) :=
  let step := l.link.deliver m
  let l := { l with link := step.state }
  match step.result with
  | none => ⟨l, step.sent, none⟩
  | some m =>
    if m.kind ≠ .data then ⟨l, step.sent, some m⟩
    else if l.delivered.contains m.id then ⟨l, step.sent, none⟩
    else ⟨{ l with delivered := l.delivered.insert m.id }, step.sent, some m⟩

/-- Sends every message again whose time has come. -/
def onTimeout (l : PerfectLink) (now : Nat) : Step PerfectLink Unit :=
  let step := l.link.onTimeout now
  ⟨{ l with link := step.state }, step.sent, ()⟩

/-- When a message is to be sent again next. -/
def nextDeadline? (l : PerfectLink) : Option Nat := l.link.nextDeadline?

/-- The number of messages that wait for an acknowledgement. -/
def inFlight (l : PerfectLink) : Nat := l.link.inFlight

/-- Gives up on all messages that wait. -/
def stop (l : PerfectLink) : PerfectLink := { l with link := l.link.stop }

end PerfectLink

end Groupcast
