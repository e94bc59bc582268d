import Groupcast.Message
import Std.Data.ExtTreeMap

/-!
# Piggy-backed history

A broadcast carries, besides its own message, the newest messages that its sender has broadcast or
delivered, so that a receiver can close its gaps from whichever envelope reaches it first.

A history is written as a list of *blocks*: their number, and for each block the host, the number
of messages and the framed messages, oldest first.  `select` chooses the blocks.  The senders
take turns adding their next-newest message as long as it fits into the budget, so that no sender
crowds out the others.
-/

namespace Groupcast

/-- Messages by the host they come from and by sequence number. -/
abbrev History := Std.ExtTreeMap HostId (Std.ExtTreeMap UInt32 Message)

/-- Messages of one host, oldest first. -/
abbrev Block := HostId × List Message

namespace Block

/-- The wire form of one block. -/
def encode (b : Block) : Bytes :=
  Bytes.ofWord b.1 ++ Bytes.ofWord (UInt32.ofNat b.2.length) ++ b.2.flatMap Message.encodeFramed

/-- The wire form of a list of blocks. -/
def encodeAll (blocks : List Block) : Bytes :=
  Bytes.ofWord (UInt32.ofNat blocks.length) ++ blocks.flatMap encode

/-- Reads one block.  The two words of its head must both be there. -/
def read : Reader Block := do
  Reader.require 8
  let host ← Reader.word
  let count ← Reader.word
  let messages ← Message.readFramed.times count.toNat
  pure (host, messages)

/-- Reads a list of blocks. -/
def readAll : Reader (List Block) := do
  let count ← Reader.word
  read.times count.toNat

end Block

/-- The part of a host's messages that has been chosen so far. -/
structure Share where
  host : HostId
  /-- The chosen messages, oldest first. -/
  kept : List Message
  /-- The messages still to choose from, newest first. -/
  older : List Message
  deriving Repr, DecidableEq

namespace Share

/-- Nothing is chosen yet of the newest `depth` messages of a host. -/
def ofNewest (depth : Nat) (host : HostId) (messages : Std.ExtTreeMap UInt32 Message) : Share where
  host := host
  kept := []
  older := messages.values.reverse.take depth

/-- The bytes that choosing `m` adds: the framed message, and the head of the block with the first
one. -/
def cost (s : Share) (m : Message) : Nat :=
  4 + m.encodedLength + if s.kept.isEmpty then 8 else 0

/-- Takes a turn: chooses the next-newest message if it fits.  `used` counts the bytes in use. -/
def turn (budget used : Nat) (s : Share) : Nat × Share :=
  match s.older with
  | [] => (used, s)
  | m :: older =>
    if used + s.cost m ≤ budget then
      (used + s.cost m, { s with kept := m :: s.kept, older := older })
    else
      (used, s)

/-- Lets every share take a turn, in order. -/
def round (budget : Nat) : Nat → List Share → Nat × List Share
  | used, [] => (used, [])
  | used, s :: shares =>
    let (used, s) := s.turn budget used
    let (used, shares) := round budget used shares
    (used, s :: shares)

/-- Plays at most `n` rounds, and stops after the first one in which nothing was chosen. -/
def rounds (budget : Nat) : Nat → Nat → List Share → List Share
  | 0, _, shares => shares
  | n + 1, used, shares =>
    let (used', shares') := round budget used shares
    if used' = used then shares' else rounds budget n used' shares'

/-- The messages still to choose from. -/
def openCount (shares : List Share) : Nat := shares.foldr (fun s n => s.older.length + n) 0

/-- The choice when no turn chooses anything more.  Every round but the last chooses a message, so
the number of messages bounds the number of rounds; the number of blocks takes four bytes. -/
def fill (budget : Nat) (shares : List Share) : List Share :=
  rounds budget (openCount shares + 1) 4 shares

/-- The block that a share stands for. -/
def block (s : Share) : Block := (s.host, s.kept)

end Share

namespace History

/-- The messages of a host, none if there is no entry. -/
def messages (h : History) (host : HostId) : Std.ExtTreeMap UInt32 Message := h.getD host ∅

/-- Adds a message of `host` under a sequence number. -/
def add (h : History) (host : HostId) (seq : UInt32) (m : Message) : History :=
  h.insert host ((h.messages host).insert seq m)

/-- The least room that a chosen message takes: its length and its header. -/
def leastCost : Nat := 4 + Message.headerLength

/-- The choice from the newest `depth` messages of each host. -/
def selectNewest (depth budget : Nat) (h : History) : List Block :=
  (Share.fill budget (h.toList.map fun (host, messages) => .ofNewest depth host messages)
    |>.filter fun s => !s.kept.isEmpty).map Share.block

/-- The blocks to write into `budget` bytes.  More messages of one host than `budget / leastCost`
cannot fit, so older ones are not considered. -/
def select (budget : Nat) (h : History) : List Block :=
  selectNewest (budget / leastCost) budget h

/-- The wire form of as much of a history as fits into `budget` bytes. -/
def encode (budget : Nat) (h : History) : Bytes := Block.encodeAll (select budget h)

/-- The room for history beside an empty message: a datagram without the header of the envelope,
the header of the message inside it, and the carried message's length and header. -/
def budget : Nat := Message.maxDatagramLength - 3 * Message.headerLength - 4

end History

end Groupcast
