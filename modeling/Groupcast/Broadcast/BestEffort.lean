import Groupcast.Link.Group

/-!
# Best-effort broadcast

A message is sent to every member of the group, the sender included, over a perfect link to each of
them.  If the sender stays up, every correct member delivers it.
-/

namespace Groupcast

/-- One member of a group that broadcasts. -/
structure BestEffort where
  hosts : Hosts
  links : Links

namespace BestEffort

/-- The member with a number, before it has sent anything. -/
def ofHosts (self : HostId) (hosts : Hosts) (tuning : Tuning) : BestEffort :=
  ⟨hosts, .ofHosts self hosts tuning⟩

/-- The member's number. -/
def self (b : BestEffort) : HostId := b.links.self

/-- The number of members that a broadcast goes to. -/
def groupSize (b : BestEffort) : Nat := b.links.size

/-- A majority of the group. -/
def quorum (b : BestEffort) : Nat := b.hosts.quorum

/-- Replaces the links by what they have become in a step. -/
def put {α : Type} (b : BestEffort) (step : Step Links α) : Step BestEffort α :=
  ⟨{ b with links := step.state }, step.sent, step.result⟩

/-- Sends a copy of a message to every member. -/
def broadcast (b : BestEffort) (m : Message) (now : Nat) : Step BestEffort Unit :=
  b.put (b.links.sendAll m now)

/-- Sends a message to one member over the same links, and returns its id. -/
def send (b : BestEffort) (receiver : HostId) (m : Message) (now : Nat) :
    Except CommandError (Step BestEffort UInt32) :=
  (b.links.send receiver m now).map b.put

/-- Takes in a message of a member. -/
def deliver (b : BestEffort) (sender : HostId) (m : Message) : Step BestEffort (Option Message) :=
  b.put (b.links.deliver sender m)

/-- Sends every message again whose time has come. -/
def onTimeout (b : BestEffort) (now : Nat) : Step BestEffort Unit := b.put (b.links.onTimeout now)

/-- When a message is to be sent again next. -/
def nextDeadline? (b : BestEffort) : Option Nat := b.links.nextDeadline?

/-- The number of messages that wait for an acknowledgement. -/
def inFlight (b : BestEffort) : Nat := b.links.inFlight

/-- Gives up on all messages that wait. -/
def stop (b : BestEffort) : BestEffort := { b with links := b.links.stop }

end BestEffort

end Groupcast
