import Groupcast.Detector

/-!
# Nodes

A process of the group: a protocol and, if wanted, a failure detector, fed with datagrams, commands
and the time from outside.

A datagram is attributed to a member only if its source address and the sender in its header agree;
any other one is dropped.  Heartbeats go to the failure detector and everything else to the
protocol.
-/

namespace Groupcast

/-- One process of a group. -/
structure Node (π : Type) where
  host : Host
  hosts : Hosts
  protocol : π
  detector : Option Detector

/-- What a node gives out. -/
structure Output where
  /-- The datagrams to send, in order. -/
  sent : List Datagram
  events : List Event
  suspicions : List Suspicion

namespace Output

/-- Nothing is given out. -/
def empty : Output := ⟨[], [], []⟩

/-- First the one output, then the other. -/
def append (a b : Output) : Output :=
  ⟨a.sent ++ b.sent, a.events ++ b.events, a.suspicions ++ b.suspicions⟩

instance : Append Output := ⟨append⟩

end Output

namespace Node

variable {π : Type} [Protocol π]

/-- The node of a member.  Without that member there is none. -/
def ofHosts (self : HostId) (hosts : Hosts) (protocol : π) (detector : Option Detector) :
    Option (Node π) :=
  (hosts.get? self).map fun host => { host, hosts, protocol, detector }

/-- Starts the failure detector. -/
def start (n : Node π) (now : Nat) : Node π := { n with detector := n.detector.map (·.start now) }

/-- Stops the protocol and the failure detector. -/
def stop (n : Node π) : Node π :=
  { n with protocol := Protocol.stop n.protocol, detector := n.detector.map Detector.stop }

/-- The message in a datagram, if it is one of the member at the source address. -/
def identify (n : Node π) (source : Address) (bytes : Bytes) : Option Message :=
  match Message.decode bytes with
  | .ok m => if (n.hosts.identify source m.sender).isSome then some m else none
  | .error _ => none

/-- Takes in a message of a member: heartbeats by the detector, all else by the protocol. -/
def onMessage (n : Node π) (m : Message) (now : Nat) : Node π × Output :=
  if m.kind.isControl then
    match n.detector with
    | none => (n, .empty)
    | some d =>
      let step := d.deliver m.sender m now
      ({ n with detector := some step.state },
        { sent := step.sent, events := [], suspicions := [] })
  else
    let step := Protocol.onMessage n.protocol m.sender m now
    ({ n with protocol := step.state },
      { sent := step.sent, events := step.result, suspicions := [] })

/-- Takes in a datagram from an address. -/
def onDatagram (n : Node π) (source : Address) (bytes : Bytes) (now : Nat) : Node π × Output :=
  match n.identify source bytes with
  | some m => n.onMessage m now
  | none => (n, .empty)

/-- Meets a request of the local application. -/
def onCommand (n : Node π) (c : Protocol.Command π) (now : Nat) :
    Except CommandError (Node π × Output) :=
  match Protocol.onCommand n.protocol c now with
  | .ok step =>
    .ok ({ n with protocol := step.state },
      { sent := step.sent, events := step.result, suspicions := [] })
  | .error e => .error e

/-- Does what is due: first the protocol's part, then the detector's. -/
def onTimeout (n : Node π) (now : Nat) : Node π × Output :=
  let step := Protocol.onTimeout n.protocol now
  let n := { n with protocol := step.state }
  match n.detector with
  | none => (n, { sent := step.sent, events := [], suspicions := [] })
  | some d =>
    let watching := d.onTimeout now
    ({ n with detector := some watching.state },
      { sent := step.sent ++ watching.sent, events := [], suspicions := watching.result })

/-- When something is due next. -/
def nextDeadline? (n : Node π) : Option Nat :=
  earlier? (Protocol.nextDeadline? n.protocol) (n.detector.bind Detector.nextDeadline?)

end Node

end Groupcast
