import Groupcast.Event
import Groupcast.Host

/-!
# Protocols

The seam between a node and the protocol that it runs.  A protocol is a state machine that touches
neither a network nor a clock.  It takes in commands of the local application, messages of
members and the passing of time; what it does in a step is a new state, the datagrams to send, and a
result (`Step`).
-/

namespace Groupcast

/-- Bytes on their way to an address. -/
structure Datagram where
  target : Address
  bytes : Bytes
  deriving Repr, DecidableEq

/-- What a state machine does in a step. -/
structure Step (σ α : Type) where
  state : σ
  /-- The datagrams to send, in order. -/
  sent : List Datagram
  result : α

/-- A request of the local application that cannot be met. -/
inductive CommandError where
  | alreadyDecided (slot : Slot)
  | unknownHost (id : HostId)
  deriving Repr, DecidableEq

/-- The text shown for a request that cannot be met. -/
def CommandError.message : CommandError → String
  | .alreadyDecided slot => s!"slot {slot} has already decided"
  | .unknownHost id => s!"no link to host {id}"

/-- The earlier of two deadlines, either of which may be missing. -/
def earlier? : Option Nat → Option Nat → Option Nat
  | some a, some b => some (min a b)
  | some a, none => some a
  | none, b => b

/-- A protocol.  Times are in milliseconds. -/
class Protocol (π : Type) where
  /-- What the local application can ask for. -/
  Command : Type
  /-- Meets a request, and reports what is worth recording. -/
  onCommand : π → Command → Nat → Except CommandError (Step π (List Event))
  /-- Takes in a message of a member of the group. -/
  onMessage : π → HostId → Message → Nat → Step π (List Event)
  /-- Does what is due at a time. -/
  onTimeout : π → Nat → Step π Unit
  /-- When something is due next. -/
  nextDeadline? : π → Option Nat
  /-- Gives up on everything that would be retried. -/
  stop : π → π

end Groupcast
