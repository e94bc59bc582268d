import Groupcast.Text.Quoted

/-!
# Errors of a TOML document

What can be wrong with a document, and where.  A line ends with a line feed, before which a carriage
return counts for nothing (`foldLineEnds`), and a place in a document is given by the number of
characters that are left there once the line ends are folded.
-/

namespace Groupcast.Toml

/-- A text with each carriage return before a line feed left out. -/
def foldLineEnds : List Char → List Char
  | '\r' :: '\n' :: cs => '\n' :: foldLineEnds cs
  | c :: cs => c :: foldLineEnds cs
  | [] => []

/-- What is wrong with a document. -/
inductive Cause where
  | unexpectedEnd
  /-- A control character in a string. -/
  | invalidInString (c : Char)
  /-- A backslash before a character that it cannot stand before. -/
  | invalidEscape (c : Char)
  /-- An escape by code with a character that is no hexadecimal digit. -/
  | invalidHexEscape (c : Char)
  /-- An escape by a code that is no character's. -/
  | invalidEscapeValue (code : Nat)
  | newlineInString
  | unterminatedString
  /-- A character that begins no token. -/
  | unexpected (c : Char)
  /-- A key that is a string over several lines. -/
  | multilineKey
  /-- Something else was due than what follows. -/
  | wanted (expected found : String)
  /-- A word where a value was due. -/
  | unquotedString
  | invalidNumber
  | invalidDate
  /-- A dotted key goes on from a key that has a value of its own. -/
  | notDottedTable
  /-- Two headers of one name for tables that are no list elements. -/
  | duplicateTable (name : List String)
  /-- A header of a list element for a name that is a table already. -/
  | tableAsList (name : List String)
  /-- A key that occurs twice. -/
  | duplicateKey (key : String)
  /-- A value of another kind than the key demands. -/
  | invalidType (found expected key : String)
  deriving Repr, DecidableEq

/-- A fault in a document, and the number of characters that are left at its place. -/
structure Error where
  cause : Cause
  left : Nat
  deriving Repr, DecidableEq

/-- How a character is shown in the text of an error. -/
def showChar (c : Char) : String :=
  match c with
  | '\t' => "\\t"
  | '\n' => "\\n"
  | '\r' => "\\r"
  | '\'' => "\\'"
  | '"' => "\\\""
  | '\\' => "\\\\"
  | c => String.ofList (if ' ' ≤ c ∧ c ≤ '~' then [c] else Text.codeEscape c)

/-- The text of a cause. -/
def Cause.message : Cause → String
  | .unexpectedEnd => "unexpected eof encountered"
  | .invalidInString c => "invalid character in string: `" ++ showChar c ++ "`"
  | .invalidEscape c => "invalid escape character in string: `" ++ showChar c ++ "`"
  | .invalidHexEscape c => "invalid hex escape character in string: `" ++ showChar c ++ "`"
  | .invalidEscapeValue code => s!"invalid escape value: `{code}`"
  | .newlineInString => "newline in string found"
  | .unterminatedString => "unterminated string"
  | .unexpected c => "unexpected character found: `" ++ showChar c ++ "`"
  | .multilineKey => "multiline strings are not allowed for key"
  | .wanted expected found => s!"expected {expected}, found {found}"
  | .unquotedString => "invalid TOML value, did you mean to use a quoted string?"
  | .invalidNumber => "invalid number"
  | .invalidDate => "invalid date"
  | .notDottedTable => "dotted key attempted to extend non-table type"
  | .duplicateTable name =>
    let dotted := ".".intercalate name
    s!"redefinition of table `{dotted}` for key `{dotted}`"
  | .tableAsList name => "table redefined as array for key `" ++ ".".intercalate name ++ "`"
  | .duplicateKey key => s!"duplicate field `{key}`"
  | .invalidType found expected key => s!"{found}, expected {expected} for key `{key}`"

/-- Line and column, both from one, of the end of a text.  A column counts bytes. -/
def placeAfter (before : List Char) : Nat × Nat :=
  before.foldl
    (fun (line, column) c => if c = '\n' then (line + 1, 1) else (line, column + c.utf8Size)) (1, 1)

/-- The text of an error in the document `text`. -/
def Error.message (text : List Char) (e : Error) : String :=
  let folded := foldLineEnds text
  let (line, column) := placeAfter (folded.take (folded.length - e.left))
  s!"{e.cause.message} at line {line} column {column}"

end Groupcast.Toml
