import Groupcast.Setup
import Groupcast.Text.Words
import Groupcast.Values

/-!
# Scenarios

What a run does once the nodes are up.  A scenario file has a header line with numbers, and for
lattice agreement a line with the values of each proposal; blank lines count for nothing, and lines
after the last one that is due are not looked at.
-/

namespace Groupcast

/-- Which protocol a run shows. -/
inductive Mode where
  | links
  | fifo
  | lattice
  deriving Repr, DecidableEq

/-- The name of a mode. -/
def Mode.name : Mode → String
  | .links => "links"
  | .fifo => "fifo"
  | .lattice => "lattice"

/-- The mode with a name. -/
def Mode.ofName? (name : String) : Option Mode :=
  [Mode.links, .fifo, .lattice].find? fun m => m.name = name

/-- The mode with a name in which the case of Latin letters does not matter. -/
def Mode.ofNameIgnoringCase? (name : String) : Option Mode := ofName? (name.map Char.toLower)

/-- What a run does once the nodes are up. -/
inductive Scenario where
  /-- Every process but `receiver` sends it that many messages. -/
  | links (messages : UInt32) (receiver : HostId)
  /-- Every process broadcasts that many messages. -/
  | fifo (messages : UInt32)
  /-- The sets are proposed for the slots 1, 2, and so on. -/
  | lattice (proposals : List ValueSet)
  deriving DecidableEq

namespace Scenario

/-- Reads all words of a line in one role. -/
def readWords {α : Type} (path : String) (line : Nat) (role : WordRole)
    (read? : List Char → Option α) : List (List Char) → Except SetupError (List α)
  | [] => .ok []
  | word :: words =>
    match read? word with
    | some a => do pure (a :: (← readWords path line role read? words))
    | none => .error (.malformed path line (.bad role word))

/-- Reads proposals of at most `most` values, one a line. -/
def readProposals (path : String) (most : Nat) :
    List (Nat × List (List Char)) → Except SetupError (List ValueSet)
  | [] => .ok []
  | (line, words) :: lines => do
    let values ← readWords path line .value Numeral.readWord? words
    if most < values.length then throw (.malformed path line (.tooManyValues most))
    let proposals ← readProposals path most lines
    pure (ValueSet.ofList values :: proposals)

/-- The most proposals for which a list has room: as many as there are places of 24 bytes in half
of an address space of 64 bits.  Memory is taken to be unlimited below that: whether a machine can
really set aside the room for so many is left out. -/
def mostProposals : Nat := 0x7fffffffffffffff / 24

/-- The scenario that numbered lines describe. -/
def ofLines (path : String) (mode : Mode) :
    List (Nat × List (List Char)) → Except SetupError Scenario
  | [] => .error (.malformed path 1 .empty)
  | (line, words) :: lines =>
    match mode with
    | .links => do
      match ← readWords path line .number Numeral.readWord? words with
      | [messages, receiver] => pure (.links messages receiver)
      | _ => throw (.malformed path line .notLinksHeader)
    | .fifo => do
      match ← readWords path line .number Numeral.readWord? words with
      | [messages] => pure (.fifo messages)
      | _ => throw (.malformed path line .notBroadcastHeader)
    | .lattice => do
      match ← readWords path line .number Numeral.readCount? words with
      | [slots, most, _] =>
        if mostProposals < slots then throw .tooLarge
        let proposals ← readProposals path most (lines.take slots)
        if proposals.length ≠ slots then throw (.malformed path line (.tooFewProposals slots))
        pure (.lattice proposals)
      | _ => throw (.malformed path line .notLatticeHeader)

/-- The scenario that a text describes.  The path stands for the file in errors. -/
def parse (mode : Mode) (path : String) (text : List Char) : Except SetupError Scenario :=
  ofLines path mode (Text.numberedLines text)

end Scenario

end Groupcast
