import Groupcast.Decimal.Shortest
import Groupcast.Toml.Tables
import Groupcast.Tuning

/-!
# Tuning files

A tuning file is a TOML document.  It may give each value of the tuning once, as an integer before
the first header; a value that is not given keeps its default, and other keys mean nothing.  The
keys count in order, first the pairs and then the tables, and the first fault is the one reported.
-/

namespace Groupcast.Tuning

/-- The field that a key of a tuning file names. -/
def fieldOf? (key : String) : Option TuningField := fields.find? fun f => f.key = key

/-- What a value that is no natural number is called in the text of an error. -/
def describeValue : Toml.Value → String
  | .string text => "invalid type: string " ++ String.ofList (Text.quote text)
  | .boolean b => s!"invalid type: boolean `{b}`"
  | .integer n => s!"invalid value: integer `{n}`"
  | .float x => s!"invalid type: floating point `{x.text}`"
  | .array _ => "invalid type: sequence"
  | .datetime | .table _ | .dotted _ => "invalid type: map"

/-- What a field has to be, in the text of an error. -/
def expectedOf : TuningField → String
  | .retransmit | .heartbeat => "u64"
  | .heartbeatWindow => "usize"

/-- The values that keys of a tuning file have given so far, and the fields that were given. -/
structure Given where
  tuning : Tuning := {}
  fields : List TuningField := []
  deriving Repr

namespace Given

/-- The fault of a field that is given by something other than a natural number. -/
def mismatch (field : TuningField) (place : List Char) (found : String) : Toml.Error :=
  ⟨.invalidType found (expectedOf field) field.key, place.length⟩

/-- Takes the value of a key.  What has no place of its own is reported at `last`, the place of the
last section. -/
def addEntry (g : Given) (last : List Char) : Toml.Entry → Except Toml.Error Given
  | (key, place, v) =>
    match fieldOf? key with
    | none => .ok g
    | some field =>
      if g.fields.contains field then Toml.failAt (.duplicateKey key) last
      else
        match v with
        | .integer (.ofNat n) => .ok ⟨g.tuning.set field n, field :: g.fields⟩
        | .array _ => .error (mismatch field last (describeValue v))
        | v => .error (mismatch field place (describeValue v))

/-- Checks the table of a key, whose first section in `d` has index `i`.  No field is a table. -/
def checkTable (g : Given) (d : Toml.Document) (key : String) (i : Nat) : Except Toml.Error Unit :=
  match fieldOf? key with
  | none => d.checkTable i
  | some field =>
    if g.fields.contains field then Toml.failAt (.duplicateKey key) d.lastPlace
    else
      let found := if d.isListAt i then "invalid type: sequence" else "invalid type: map"
      .error (mismatch field d.lastPlace found)

end Given

/-- The tuning that a document describes. -/
def ofDocument (d : Toml.Document) : Except Toml.Error Tuning := do
  let given ← d.entries.foldlM (fun (g : Given) entry => g.addEntry d.lastPlace entry) {}
  for (key, i) in d.tables do
    given.checkTable d key i
  pure given.tuning

/-- The tuning that the text of a tuning file describes. -/
def ofText (text : List Char) : Except Toml.Error Tuning := do
  ofDocument (← Toml.Document.read text)

end Groupcast.Tuning
