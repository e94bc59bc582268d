import Groupcast.Reader
import Groupcast.Values

/-!
# Agreement messages

Proposals go to the whole group; an acknowledgement or a refusal goes back to the proposer.  A
refusal carries what the acceptor has accepted, so that the proposer can grow its proposal.

On the wire a message is its tag, its round and its slot, and then, unless it is an
acknowledgement, the number of its values and the values in ascending order.
-/

namespace Groupcast

/-- A value set offered for a slot in a round.  Once sent it never changes. -/
structure Proposal where
  round : UInt32
  slot : Slot
  values : ValueSet
  deriving DecidableEq

/-- Everything that agreement sends. -/
inductive AgreementMessage where
  /-- Offers a proposal to every member. -/
  | propose (proposal : Proposal)
  /-- Accepts the sender's proposal of that round. -/
  | ack (round : UInt32) (slot : Slot)
  /-- Refuses a round, and carries what has been accepted. -/
  | nack (accepted : Proposal)
  deriving DecidableEq

namespace AgreementMessage

/-- The slot that a message is about. -/
def slot : AgreementMessage → Slot
  | propose p | nack p => p.slot
  | ack _ slot => slot

/-- The round that a message belongs to. -/
def round : AgreementMessage → UInt32
  | propose p | nack p => p.round
  | ack round _ => round

/-- The first word of a message on the wire. -/
def tag : AgreementMessage → UInt32
  | propose _ => 1
  | ack _ _ => 2
  | nack _ => 3

/-- The wire form of a list of values: their number, then each of them. -/
def encodeValues (values : List Value) : Bytes :=
  Bytes.ofWord (UInt32.ofNat values.length) ++ values.flatMap Bytes.ofWord

/-- The wire form of the values that a message carries, if it carries a set at all. -/
def encodeBody : AgreementMessage → Bytes
  | propose p | nack p => encodeValues p.values.toList
  | ack _ _ => []

/-- The wire form. -/
def encode (m : AgreementMessage) : Bytes :=
  Bytes.ofWord m.tag ++ Bytes.ofWord m.round ++ Bytes.ofWord m.slot ++ m.encodeBody

/-- Reads as many values as the first word says.  All of them must be there before the first one
is read. -/
def readValues : Reader ValueSet := do
  Reader.require 4
  let count ← Reader.word
  Reader.require (4 * count.toNat)
  let values ← Reader.word.times count.toNat
  pure (ValueSet.ofList values)

/-- Reads a message; the values may come in any order and more than once. -/
def read : Reader AgreementMessage := do
  Reader.require 12
  let tag ← Reader.word
  let round ← Reader.word
  let slot ← Reader.word
  if tag = 2 then
    pure (.ack round slot)
  else if tag = 1 then
    let values ← readValues
    pure (.propose { round, slot, values })
  else if tag = 3 then
    let values ← readValues
    pure (.nack { round, slot, values })
  else
    Reader.fail (.unknownTag tag)

/-- The message that a whole payload holds. -/
def decode (bytes : Bytes) : Except DecodeError AgreementMessage :=
  Reading.toExcept ((do let m ← read; Reader.done; pure m : Reader AgreementMessage) bytes)

end AgreementMessage

end Groupcast
