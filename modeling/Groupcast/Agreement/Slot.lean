import Groupcast.Agreement.Message
import Groupcast.Protocol

/-!
# A slot of lattice agreement

One process's view of a single slot, as proposer and as acceptor.  It is a plain state machine: its
owner passes in proposals and replies and routes what it returns.

The acceptor accepts a proposal that includes all it has accepted so far, and refuses any other
one with the larger set; either way it absorbs the proposal.  The proposer counts the replies to
its current round.  A majority of acceptances decides the values that were offered in that round.
Once a majority has replied, with a refusal among them, the proposal grows by all that the refusals
carried, and a new round begins.
-/

namespace Groupcast

/-- One process's view of a slot. -/
structure SlotView where
  slot : Slot
  /-- Whether the proposer collects replies to its proposal. -/
  isActive : Bool
  /-- Whether the proposer has decided. -/
  isDecided : Bool
  round : UInt32
  /-- All that is to be proposed. -/
  proposed : ValueSet
  /-- What was offered in the current round; a decision is always on this. -/
  offered : ValueSet
  accepted : ValueSet
  /-- How many hosts have accepted the current round. -/
  acks : Nat
  /-- How many hosts have refused the current round. -/
  nacks : Nat
  /-- The hosts that have replied to the current round. -/
  responded : Std.ExtTreeSet HostId
  deriving DecidableEq

namespace SlotView

/-- A slot of which nothing has been heard. -/
def ofSlot (slot : Slot) : SlotView where
  slot := slot
  isActive := false
  isDecided := false
  round := 0
  proposed := ∅
  offered := ∅
  accepted := ∅
  acks := 0
  nacks := 0
  responded := ∅

/-- Whether the proposer has not proposed anything yet. -/
def isIdle (s : SlotView) : Bool := !s.isActive && !s.isDecided

/-- The proposal of the current round. -/
def proposal (s : SlotView) : Proposal :=
  { round := s.round, slot := s.slot, values := s.offered }

/-- Begins a round with all that is to be proposed, without replies. -/
def nextRound (s : SlotView) : SlotView :=
  { s with
    round := s.round + 1
    offered := s.proposed
    acks := 0
    nacks := 0
    responded := ∅ }

/-- Adds values to the proposal, and returns what is to be sent.  If replies are being collected
already, they were to a smaller proposal, and a new round begins.  Once there is a decision, values
are refused, and the slot stays as it is. -/
def propose (s : SlotView) (values : ValueSet) : SlotView × Except CommandError Proposal :=
  if s.isDecided then (s, .error (.alreadyDecided s.slot))
  else
    let s := { s with proposed := s.proposed ∪ values }
    let s := if s.isActive then s.nextRound else { s with isActive := true, offered := s.proposed }
    (s, .ok s.proposal)

/-- Takes in a proposal of some process, and returns the reply to it.  A proposal that comes before
any local one is remembered, so that a later local one builds on it. -/
def onProposal (s : SlotView) (p : Proposal) : SlotView × AgreementMessage :=
  let accepted := s.accepted ∪ p.values
  let proposed := if s.isIdle then s.proposed ∪ p.values else s.proposed
  let reply :=
    if p.values.includes s.accepted then .ack p.round s.slot
    else .nack { round := p.round, slot := s.slot, values := accepted }
  ({ s with accepted, proposed }, reply)

/-- Whether a reply counts: it is to the current round, and the first one of its sender. -/
def counts (s : SlotView) (sender : HostId) (round : UInt32) : Bool :=
  round = s.round && !s.responded.contains sender

/-- Takes in an acceptance, and returns the decision if this one completes a majority of them. -/
def onAck (s : SlotView) (sender : HostId) (round : UInt32) (quorum : Nat) :
    SlotView × Option ValueSet :=
  if s.counts sender round then
    let s := { s with responded := s.responded.insert sender, acks := s.acks + 1 }
    if s.isActive ∧ quorum ≤ s.acks then
      ({ s with isActive := false, isDecided := true }, some s.offered)
    else (s, none)
  else (s, none)

/-- Takes in a refusal with what its sender has accepted, and returns the proposal of the next
round if this reply completes a majority. -/
def onNack (s : SlotView) (sender : HostId) (round : UInt32) (values : ValueSet) (quorum : Nat) :
    SlotView × Option Proposal :=
  if s.counts sender round then
    let s := { s with
      responded := s.responded.insert sender
      nacks := s.nacks + 1
      proposed := s.proposed ∪ values }
    if s.isActive ∧ quorum ≤ s.acks + s.nacks then
      (s.nextRound, some s.nextRound.proposal)
    else (s, none)
  else (s, none)

end SlotView

end Groupcast
