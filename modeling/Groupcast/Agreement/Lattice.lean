import Groupcast.Agreement.Slot
import Groupcast.Broadcast.BestEffort

/-!
# Lattice agreement

Agreement on any number of independent slots: each process proposes a set of values and decides a
set that includes its own proposal, and any two decisions for a slot are ordered by inclusion.
Proposals are broadcast; replies return over the same links.  Each slot has rounds of its own, and
nothing orders one slot against another.
-/

namespace Groupcast

/-- The values that are proposed or decided for a slot. -/
structure SlotValues where
  slot : Slot
  values : ValueSet
  deriving DecidableEq

/-- One member of a group that agrees. -/
structure LatticeAgreement where
  group : BestEffort
  slots : Std.ExtTreeMap Slot SlotView

namespace LatticeAgreement

/-- The member with a number, before it has proposed or heard anything. -/
def ofHosts (self : HostId) (hosts : Hosts) (tuning : Tuning) : LatticeAgreement :=
  ⟨.ofHosts self hosts tuning, ∅⟩

/-- The member's number. -/
def self (a : LatticeAgreement) : HostId := a.group.self

/-- The view of a slot, whether anything has been heard of it or not. -/
def view (a : LatticeAgreement) (slot : Slot) : SlotView := a.slots.getD slot (.ofSlot slot)

/-- Sets the view of a slot. -/
def setView (a : LatticeAgreement) (slot : Slot) (v : SlotView) : LatticeAgreement :=
  { a with slots := a.slots.insert slot v }

/-- A message of this member that carries an agreement message. -/
def wrap (a : LatticeAgreement) (m : AgreementMessage) : Message := .ofData a.self 0 m.encode

/-- Sends a proposal to every member. -/
def broadcast (a : LatticeAgreement) (p : Proposal) (now : Nat) : Step LatticeAgreement Unit :=
  let step := a.group.broadcast (a.wrap (.propose p)) now
  ⟨{ a with group := step.state }, step.sent, ()⟩

/-- Sends a reply to a member; without a link to it, it is dropped. -/
def reply (a : LatticeAgreement) (receiver : HostId) (m : AgreementMessage) (now : Nat) :
    Step LatticeAgreement Unit :=
  match a.group.send receiver (a.wrap m) now with
  | .ok step => ⟨{ a with group := step.state }, step.sent, ()⟩
  | .error _ => ⟨a, [], ()⟩

/-- Proposes values for a slot.  A refusal changes nothing. -/
def propose (a : LatticeAgreement) (p : SlotValues) (now : Nat) :
    Except CommandError (Step LatticeAgreement Unit) :=
  match (a.view p.slot).propose p.values with
  | (v, .ok proposal) => .ok ((a.setView p.slot v).broadcast proposal now)
  | (_, .error e) => .error e

/-- Takes in an agreement message of a member, and returns the decision that it completes.  A reply
for a slot of which nothing is known is dropped. -/
def onAgreement (a : LatticeAgreement) (sender : HostId) (m : AgreementMessage) (now : Nat) :
    Step LatticeAgreement (Option SlotValues) :=
  match m with
  | .propose p =>
    let (v, answer) := (a.view p.slot).onProposal p
    let step := (a.setView p.slot v).reply sender answer now
    ⟨step.state, step.sent, none⟩
  | .ack round slot =>
    match a.slots[slot]? with
    | none => ⟨a, [], none⟩
    | some v =>
      let (v, decision) := v.onAck sender round a.group.quorum
      ⟨a.setView slot v, [], decision.map fun values => ⟨slot, values⟩⟩
  | .nack p =>
    match a.slots[p.slot]? with
    | none => ⟨a, [], none⟩
    | some v =>
      let (v, next) := v.onNack sender p.round p.values a.group.quorum
      let a := a.setView p.slot v
      match next with
      | none => ⟨a, [], none⟩
      | some p =>
        let step := a.broadcast p now
        ⟨step.state, step.sent, none⟩

/-- Takes in a message of a member, and returns the decision that it completes. -/
def deliver (a : LatticeAgreement) (sender : HostId) (m : Message) (now : Nat) :
    Step LatticeAgreement (Option SlotValues) :=
  let step := a.group.deliver sender m
  let a := { a with group := step.state }
  match step.result with
  | none => ⟨a, step.sent, none⟩
  | some m =>
    match AgreementMessage.decode m.payload with
    | .error _ => ⟨a, step.sent, none⟩
    | .ok m =>
      let answered := a.onAgreement sender m now
      ⟨answered.state, step.sent ++ answered.sent, answered.result⟩

/-- The slots that have been decided, in ascending order. -/
def decided (a : LatticeAgreement) : List Slot :=
  (a.slots.values.filter SlotView.isDecided).map SlotView.slot

/-- Sends every message again whose time has come. -/
def onTimeout (a : LatticeAgreement) (now : Nat) : Step LatticeAgreement Unit :=
  let step := a.group.onTimeout now
  ⟨{ a with group := step.state }, step.sent, ()⟩

/-- When a message is to be sent again next. -/
def nextDeadline? (a : LatticeAgreement) : Option Nat := a.group.nextDeadline?

/-- The number of messages that wait for an acknowledgement. -/
def inFlight (a : LatticeAgreement) : Nat := a.group.inFlight

/-- Gives up on all messages that wait. -/
def stop (a : LatticeAgreement) : LatticeAgreement := { a with group := a.group.stop }

/-- Proposes values for a slot; the outcome is reported when it is decided. -/
def onCommand (a : LatticeAgreement) (p : SlotValues) (now : Nat) :
    Except CommandError (Step LatticeAgreement (List Event)) :=
  match a.propose p now with
  | .ok step => .ok ⟨step.state, step.sent, []⟩
  | .error e => .error e

/-- Takes in a message of a member, and reports the decision that it completes. -/
def onMessage (a : LatticeAgreement) (sender : HostId) (m : Message) (now : Nat) :
    Step LatticeAgreement (List Event) :=
  let step := a.deliver sender m now
  ⟨step.state, step.sent, step.result.toList.map fun d => .decide d.slot d.values⟩

instance : Protocol LatticeAgreement where
  Command := SlotValues
  onCommand := onCommand
  onMessage := onMessage
  onTimeout := onTimeout
  nextDeadline? := nextDeadline?
  stop := stop

end LatticeAgreement

end Groupcast
