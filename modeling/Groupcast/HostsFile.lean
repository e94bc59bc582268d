import Groupcast.Setup
import Groupcast.Text.Words

/-!
# Hosts files

A hosts file has a line `id host port` for each member of the group; blank lines count for nothing.
The lines are read in order up to the first one that is wrong.  Only if all of them are well formed
it is checked whether they make up a host table.
-/

namespace Groupcast.HostsFile

/-- Reads a word in the role `role` by `read?`. -/
def field {α : Type} (path : String) (line : Nat) (role : WordRole)
    (read? : List Char → Option α) : List (List Char) → Except SetupError (α × List (List Char))
  | [] => .error (.malformed path line (.missing role))
  | word :: words =>
    match read? word with
    | some a => .ok (a, words)
    | none => .error (.malformed path line (.bad role word))

/-- What names stand for: the addresses that a host name and a port lead to, of which there are none
if the name is not known. -/
abbrev Lookup := List Char → UInt16 → List Address

/-- Knows no names: only a literal address of either version stands for one. -/
def literals : Lookup := fun host port =>
  match IPAddress.read? host with
  | some ip => [⟨ip, port⟩]
  | none => []

/-- The first address of version 4, or else the first one. -/
def preferred? (addresses : List Address) : Option Address :=
  (addresses.find? Address.isV4).or addresses.head?

/-- The address that a host name and a port stand for. -/
def resolve (lookup : Lookup) (host : List Char) (port : UInt16) : Except SetupError Address :=
  match preferred? (lookup host port) with
  | some address => .ok address
  | none => .error (.unresolved host port)

/-- The host that the words of a line describe. -/
def readLine (lookup : Lookup) (path : String) (line : Nat) (words : List (List Char)) :
    Except SetupError Host := do
  let (id, words) ← field path line .hostId Numeral.readWord? words
  let (name, words) ← field path line .hostName some words
  let (port, words) ← field path line .port Numeral.readPort? words
  if !words.isEmpty then throw (.malformed path line .notHostLine)
  pure { id, address := ← resolve lookup name port }

/-- The hosts that numbered lines describe, up to the first line that is wrong. -/
def readLines (lookup : Lookup) (path : String) :
    List (Nat × List (List Char)) → Except SetupError (List Host)
  | [] => .ok []
  | (line, words) :: lines => do
    let host ← readLine lookup path line words
    let hosts ← readLines lookup path lines
    pure (host :: hosts)

/-- The host table that a text describes if names stand for what `lookup` says.  The path stands for
the file in errors. -/
def parseBy (lookup : Lookup) (path : String) (text : List Char) : Except SetupError Hosts := do
  let hosts ← readLines lookup path (Text.numberedLines text)
  match Hosts.ofList hosts with
  | .ok table => pure table
  | .error cause => throw (.badHosts cause)

/-- The host table that a text describes.  Names are not looked up. -/
def parse (path : String) (text : List Char) : Except SetupError Hosts := parseBy literals path text

end Groupcast.HostsFile
