import Groupcast.Link.Perfect
import Groupcast.Tuning

/-!
# Links to a group

A perfect link to each member of a group, itself included.  What is done on all links is done in the
order of the members' numbers.  As a protocol of its own it sends messages point to point.
-/

namespace Groupcast

/-- A perfect link to each of several hosts. -/
structure Links where
  self : HostId
  links : Std.ExtTreeMap HostId PerfectLink

namespace Links

/-- Links to the listed hosts.  If two have the same number, the later one counts. -/
def toPeers (self : HostId) (peers : List Host) (tuning : Tuning) : Links where
  self := self
  links := peers.foldl
    (fun links peer => links.insert peer.id (.ofPeer self peer tuning.retransmit)) ∅

/-- Links to all members of a group. -/
def ofHosts (self : HostId) (hosts : Hosts) (tuning : Tuning) : Links :=
  toPeers self hosts.toList tuning

/-- The number of links. -/
def size (g : Links) : Nat := g.links.size

/-- Replaces the link to a host by what it has become in a step. -/
def put {α : Type} (g : Links) (id : HostId) (step : Step PerfectLink α) : Step Links α :=
  ⟨{ g with links := g.links.insert id step.state }, step.sent, step.result⟩

/-- Does a step on every link. -/
def onAll {α : Type} (g : Links) (f : PerfectLink → Step PerfectLink α) : Step Links Unit :=
  let steps := g.links.map fun _ l => f l
  ⟨{ g with links := steps.map fun _ step => step.state },
    steps.toList.flatMap fun (_, step) => step.sent, ()⟩

/-- Sends a message to a host, and returns the id that it is stamped with. -/
def send (g : Links) (receiver : HostId) (m : Message) (now : Nat) :
    Except CommandError (Step Links UInt32) :=
  match g.links[receiver]? with
  | some l => .ok (g.put receiver (l.send m now))
  | none => .error (.unknownHost receiver)

/-- Sends a copy of a message on every link. -/
def sendAll (g : Links) (m : Message) (now : Nat) : Step Links Unit := g.onAll (·.send m now)

/-- Takes in a message of a host.  It is dropped if there is no link to that host. -/
def deliver (g : Links) (sender : HostId) (m : Message) : Step Links (Option Message) :=
  match g.links[sender]? with
  | some l => g.put sender (l.deliver m)
  | none => ⟨g, [], none⟩

/-- Sends every message again whose time has come. -/
def onTimeout (g : Links) (now : Nat) : Step Links Unit := g.onAll (·.onTimeout now)

/-- When a message is to be sent again next. -/
def nextDeadline? (g : Links) : Option Nat :=
  (g.links.values.filterMap PerfectLink.nextDeadline?).min?

/-- The number of messages that wait for an acknowledgement. -/
def inFlight (g : Links) : Nat := g.links.values.foldr (fun l n => l.inFlight + n) 0

/-- Gives up on all messages that wait. -/
def stop (g : Links) : Links := { g with links := g.links.map fun _ l => l.stop }

/-- A request to send a message to a host. -/
structure Command where
  receiver : HostId
  seq : UInt32
  payload : Bytes
  deriving Repr, DecidableEq

/-- Meets a request, which is reported as a broadcast. -/
def onCommand (g : Links) (c : Command) (now : Nat) :
    Except CommandError (Step Links (List Event)) :=
  match g.send c.receiver (.ofData g.self c.seq c.payload) now with
  | .ok step => .ok ⟨step.state, step.sent, [.broadcast c.seq]⟩
  | .error e => .error e

/-- Takes in a message of a member, and reports what is passed on. -/
def onMessage (g : Links) (sender : HostId) (m : Message) (_now : Nat) :
    Step Links (List Event) :=
  let step := g.deliver sender m
  ⟨step.state, step.sent, step.result.toList.map fun m => .deliver m.sender m.seq⟩

instance : Protocol Links where
  Command := Command
  onCommand := onCommand
  onMessage := onMessage
  onTimeout := onTimeout
  nextDeadline? := nextDeadline?
  stop := stop

end Links

end Groupcast
