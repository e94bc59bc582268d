import Groupcast.HostsFile
import Groupcast.Scenario
import Groupcast.Tuning.File

/-!
# Configuration

What a node has to know before it runs, as it is read from files.
-/

namespace Groupcast

/-- The tuning that the text of a tuning file describes; no value of it is zero. -/
def Tuning.parse (text : List Char) : Except SetupError Tuning :=
  match Tuning.ofText text with
  | .error cause => .error (.badTuning text cause)
  | .ok t =>
    match t.zeroField? with
    | some field => .error (.zeroTuning field)
    | none => .ok t

/-- The member that a process is to be. -/
def Hosts.localHost (t : Hosts) (id : HostId) : Except SetupError Host :=
  match t.get? id with
  | some host => .ok host
  | none => .error (.unknownHost id)

/-- A way to read files: what the file at a path holds, or why it cannot be read. -/
abbrev FileReader := String → Except FileError Bytes

/-- The text of the file at a path. -/
def FileReader.text (files : FileReader) (path : String) : Except SetupError (List Char) :=
  match files path with
  | .error cause => .error (.unreadable path cause)
  | .ok content =>
    match String.fromUTF8? (ByteArray.mk content.toArray) with
    | some text => .ok text.toList
    | none => .error (.unreadable path .notText)

/-- The host table in a file. -/
def Hosts.load (files : FileReader) (path : String) : Except SetupError Hosts := do
  HostsFile.parse path (← files.text path)

/-- The scenario in a file. -/
def Scenario.load (files : FileReader) (mode : Mode) (path : String) :
    Except SetupError Scenario := do
  Scenario.parse mode path (← files.text path)

/-- The tuning in a file. -/
def Tuning.load (files : FileReader) (path : String) : Except SetupError Tuning := do
  Tuning.parse (← files.text path)

end Groupcast
