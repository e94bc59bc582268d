import Groupcast.Decimal.Double
import Groupcast.Toml.Token

/-!
# TOML documents

A document is a list of *sections*: the key-value pairs before the first header, and for each header
the pairs that follow it.  `Document.read` reads the sections of a text.  It checks the form of
every key and value, but not how the sections fit together.
-/

namespace Groupcast.Toml

/-- A value of a key. -/
inductive Value where
  | string (text : List Char)
  | boolean (b : Bool)
  | integer (n : Int)
  /-- A number with a fraction or an exponent. -/
  | float (x : Double)
  | datetime
  | array (items : Array Value)
  /-- A table in braces. -/
  | table (entries : Array (String × List Char × Value))
  /-- A table that the first part of a dotted key stands for. -/
  | dotted (entries : Array (String × List Char × Value))
  deriving Repr

/-- The place of a value, as what is left of the document there, and the value.  A value is placed
where it begins, but a number with a point is placed where its fraction begins. -/
abbrev Placed := List Char × Value

/-- A key and its value. -/
abbrev Entry := String × Placed

/-- A header: the line that a section begins with. -/
structure Header where
  name : List String
  /-- Whether the header is in double brackets and so stands for a new element of a list. -/
  isElement : Bool
  /-- What is left of the document where the header begins. -/
  place : List Char
  deriving Repr

/-- A header and the pairs below it.  The pairs before the first header have an empty name. -/
structure Section extends Header where
  entries : Array Entry
  deriving Repr

/-- A document: the sections that it has. -/
structure Document where
  sections : Array Section
  deriving Repr

namespace Document

/-- The pairs before the first header. -/
def entries (d : Document) : Array Entry :=
  match d.sections[0]? with
  | some s => if s.name.isEmpty then s.entries else #[]
  | none => #[]

/-- The place of the last section: its header, or the beginning of a document without headers. -/
def lastPlace (d : Document) : List Char := d.sections.back?.elim [] (·.place)

end Document

/-- A computation that consumes a prefix of a document. -/
abbrev Read := StateT (List Char) (Except Error)

namespace Read

variable {α : Type}

/-- Fails where `rest` begins. -/
def failAt (cause : Cause) (rest : List Char) : Read α := fun _ => Toml.failAt cause rest

/-- The next token without consuming it, and what follows it. -/
def peek : Read (Option (Token × List Char)) := do nextToken (← get)

/-- Consumes a token if there is one. -/
def next : Read (Option Token) := do
  match ← peek with
  | some (t, rest) => set rest; pure (some t)
  | none => pure none

/-- Consumes the token `t` if it is the next one, and tells whether it was. -/
def eat (t : Token) : Read Bool := do
  match ← peek with
  | some (t', rest) => if t' = t then set rest; pure true else pure false
  | none => pure false

/-- Fails because `expected` was due where `found` begins, which is no token at the end. -/
def failWanted (expected : String) (place : List Char) (found : Option Token) : Read α :=
  match found with
  | some t => failAt (.wanted expected t.describe) place
  | none => failAt (.wanted expected "eof") []

/-- Demands the token `t`. -/
def expect (t : Token) : Read Unit := do
  let place ← get
  let found ← next
  if found = some t then pure () else failWanted t.describe place found

/-- Skips spaces and tabs. -/
def skipBlanks : Read Unit := modify (·.dropWhile isSpace)

/-- Demands the end of a line or of the text. -/
def lineEnd : Read Unit := do
  let place ← get
  match ← next with
  | none | some .newline => pure ()
  | found => failWanted "newline" place found

/-- Skips a comment and the end of its line, and tells whether there was one. -/
def skipComment : Read Bool := do
  match ← get with
  | '#' :: rest =>
    set (rest.dropWhile isCommentChar)
    lineEnd
    pure true
  | _ => pure false

/-- Demands that nothing but a comment follows in the line. -/
def restOfLine : Read Unit := do
  skipBlanks
  if !(← skipComment) then lineEnd

/-- Skips blanks, comments and empty lines, at most `n` lines. -/
def skipLines : Nat → Read Unit
  | 0 => pure ()
  | n + 1 => do
    skipBlanks
    if ← skipComment then skipLines n
    else if ← eat .newline then skipLines n
    else pure ()

/-- Reads one part of a key. -/
def key : Read String := do
  let place ← get
  match ← next with
  | some (.word text) => pure (String.ofList text)
  | some (.string value false) => pure (String.ofList value)
  | some (.string _ true) => failAt .multilineKey place
  | found => failWanted "a table key" place found

/-- Reads what follows the first part of a dotted key, at most `n` parts. -/
def moreKeys : Nat → Read (List String)
  | 0 => pure []
  | n + 1 => do
    skipBlanks
    if ← eat .period then
      skipBlanks
      let k ← key
      let ks ← moreKeys n
      pure (k :: ks)
    else pure []

/-- Reads a dotted key: its first part and the others, at most `n`. -/
def dottedKey (n : Nat) : Read (String × List String) := do
  let k ← key
  let ks ← moreKeys n
  pure (k, ks)

/-! ## Numbers and dates -/

/-- The part of a text before the second of two adjacent underscores. -/
def untilDouble : List Char → List Char
  | '_' :: '_' :: _ => ['_']
  | c :: cs => c :: untilDouble cs
  | [] => []

/-- Splits a text that begins at `place` into the integer that it begins with and the rest.  Digits
may have single underscores between them.  Unless `zeros` is set, no digit may follow a zero at the
beginning, and such a digit is the place of the fault. -/
def integerPart (base : Nat) (sign zeros : Bool) (place text : List Char) :
    Read (List Char × List Char) :=
  let signed := sign && text.head? = some '-'
  let digits := if signed then text.drop 1 else text
  let start := if signed then 1 else 0
  let body := untilDouble (digits.takeWhile fun c => Numeral.isDigit base c || c = '_')
  match body with
  | [] => failAt .invalidNumber place
  | c :: more =>
    if c = '_' then failAt .invalidNumber (place.drop start)
    else if !zeros && c = '0' && more.any (Numeral.isDigit base) then
      let skipped := (more.takeWhile fun c => !Numeral.isDigit base c).length
      failAt .invalidNumber (place.drop (start + 1 + skipped))
    else if body.getLast? = some '_' then failAt .invalidNumber place
    else pure (text.take start ++ body, digits.drop body.length)

/-- Reads a text that begins at `place` as an integer of 64 bits. -/
def integer (base : Nat) (place text : List Char) : Read Value := do
  let (part, rest) ← integerPart base (base = 10) (base ≠ 10) place text
  let negative := part.head? = some '-'
  let limit := if negative then 0x8000000000000000 else 0x7fffffffffffffff
  match rest, Numeral.valueUpTo? base limit (part.filter (Numeral.isDigit base)) with
  | [], some n => pure (.integer (if negative then -n else n))
  | _, _ => failAt .invalidNumber place

/-- Demands a word and yields its text, or fails with `cause` at `place`. -/
def wordOr (cause : Cause) (place : List Char) : Read (List Char) := do
  match ← next with
  | some (.word text) => pure text
  | _ => failAt cause place

/-- Reads the exponent of a number that begins at `place`, where `rest` is what follows its digits
in the word.  After a plus sign the exponent is a word of its own. -/
def exponent (place after rest : List Char) : Read (List Char) := do
  match rest with
  | [] => pure []
  | letter :: digits =>
    if letter ≠ 'e' ∧ letter ≠ 'E' then failAt .invalidNumber place
    let (part, rest) ←
      if digits.isEmpty then do
        let _ ← eat .plus
        let after ← get
        let digits ← wordOr .invalidNumber place
        integerPart 10 false true after digits
      else integerPart 10 true true (after.drop 1) digits
    if rest.isEmpty then pure part else failAt .invalidNumber place

/-- The size of an exponent.  Digits after the one that brings it above `0xffff` are left out. -/
def exponentSize (digits : List Char) : Nat :=
  digits.foldl
    (fun n c => if n ≤ 0xffff then 10 * n + (Numeral.digitValue? c).getD 0 else n) 0

/-- Reads a number with a fraction or an exponent.  Its first word is `text` at `place`, and
`fraction` is the place and the text of the word after the point.  Infinite numbers have words of
their own, so digits must not exceed what a finite number can have. -/
def float (place text : List Char) (fraction : Option (List Char × List Char)) : Read Value := do
  let (integral, rest) ← integerPart 10 true false place text
  let (fraction, after, rest) ← match fraction with
    | none => pure ([], place.drop integral.length, rest)
    | some (start, word) =>
      if !rest.isEmpty then failAt .invalidNumber place
      let (digits, rest) ← integerPart 10 false true start word
      pure (digits, start.drop digits.length, rest)
  let exponent ← exponent place after rest
  let fraction := fraction.filter Char.isDigit
  let digits := integral.filter Char.isDigit ++ fraction
  let scale : Int := exponentSize (exponent.filter Char.isDigit)
  let scale := if exponent.head? = some '-' then -scale else scale
  match Double.ofDigits (integral.head? = some '-') digits (scale - fraction.length) with
  | .finite negative units => pure (.float (.finite negative units))
  | _ => failAt .invalidNumber place

/-- Reads what follows the first word of a date or a time; `colon` tells whether a colon has been
consumed.  Of what the words hold nothing is checked. -/
def datetime (place : List Char) (colon : Bool) : Read Placed := do
  match ← get with
  | ' ' :: c :: rest => if isWordChar c then set (rest.dropWhile isWordChar)
  | _ => pure ()
  let timed ← if colon then pure true else eat .colon
  if timed then
    let _ ← wordOr .invalidDate place
    expect .colon
    let _ ← wordOr .invalidDate place
    if ← eat .period then
      let _ ← wordOr .invalidDate place
    if ← eat .plus then
      let _ ← wordOr .invalidDate place
    if ← eat .colon then
      let _ ← wordOr .invalidDate place
  pure (place, .datetime)

/-- The number that a word without digits stands for. -/
def wordNumber? (text : List Char) : Option Double :=
  match String.ofList text with
  | "inf" => some (.infinite false)
  | "-inf" => some (.infinite true)
  | "nan" | "-nan" => some .nan
  | _ => none

/-- Reads a number that begins at `start` and whose first word, after a plus sign if there is one,
is `text` at `place`. -/
def number (start place text : List Char) : Read Placed := do
  let here (v : Value) : Placed := (start, v)
  match text with
  | '0' :: 'x' :: digits => here <$> integer 16 (place.drop 2) digits
  | '0' :: 'o' :: digits => here <$> integer 8 (place.drop 2) digits
  | '0' :: 'b' :: digits => here <$> integer 2 (place.drop 2) digits
  | _ =>
    if text.any fun c => c = 'e' || c = 'E' then here <$> float place text none
    else if ← eat .period then
      let after ← get
      let word ← wordOr .invalidNumber after
      (after, ·) <$> float place text (some (after, word))
    else
      match wordNumber? text with
      | some x => pure (here (.float x))
      | none => here <$> integer 10 place text

/-- Whether a word has the form of a date: a letter `T`, or a hyphen that is neither its sign nor
its exponent's. -/
def isDate (text : List Char) : Bool :=
  text.any (fun c => c = 'T' || c = 't') ||
    ((text.drop 1).any (· = '-') && !hasNegativeExponent text)
where
  /-- Whether the letter of an exponent is followed by a hyphen. -/
  hasNegativeExponent : List Char → Bool
    | c :: d :: cs => ((c = 'e' || c = 'E') && d = '-') || hasNegativeExponent (d :: cs)
    | _ => false

/-- Reads a number or a date whose first word, at `place`, is `text`. -/
def numberOrDate (place text : List Char) : Read Placed := do
  if isDate text then datetime place false
  else if ← eat .colon then datetime place true
  else number place place text

/-- Reads the value that a word at `place` is or begins. -/
def wordValue (place text : List Char) : Read Placed :=
  if text = "true".toList then pure (place, .boolean true)
  else if text = "false".toList then pure (place, .boolean false)
  else if text = "inf".toList ∨ text = "nan".toList then numberOrDate place text
  else
    match text with
    | c :: _ =>
      if c.isDigit || c = '-' then numberOrDate place text else failAt .unquotedString place
    | [] => failAt .unquotedString place

/-! ## Tables and arrays -/

/-- Adds a value under a dotted key.  All parts of the key but the last one stand for tables that
are written by dotted keys only. -/
def addDotted (v : Placed) (k : String) : List String → Array Entry → Except Error (Array Entry)
  | [], entries => .ok (entries.push (k, v))
  | k' :: ks, entries =>
    match entries.findIdx? (·.1 = k) with
    | none => do pure (entries.push (k, v.1, .dotted (← addDotted v k' ks #[])))
    | some i => entries.modifyM i fun
      | (_, place, .dotted inner) => do pure (k, place, .dotted (← addDotted v k' ks inner))
      | (_, place, _) => Toml.failAt .notDottedTable place

mutual

/-- Reads a value; `n` bounds how deep it is nested, how many values an array has, and how many
lines it takes. -/
def value : Nat → Read Placed
  | 0 => do failAt .unexpectedEnd (← get)
  | n + 1 => do
    let place ← get
    let here (v : Value) : Placed := (place, v)
    match ← next with
    | none => failAt .unexpectedEnd []
    | some (.string text _) => pure (here (.string text))
    | some (.word text) => wordValue place text
    | some .plus =>
      let after ← get
      let text ← wordOr .invalidNumber after
      number place after text
    | some .leftBrace =>
      skipBlanks
      if ← eat .rightBrace then pure (here (.table #[]))
      else (here ∘ .table) <$> pairs n #[]
    | some .leftBracket => (here ∘ .array) <$> elements n #[]
    | found => failWanted "a value" place found

/-- Reads the pairs of a table in braces and the closing one, after those in `entries`. -/
def pairs : Nat → Array Entry → Read (Array Entry)
  | 0, _ => do failAt .unexpectedEnd (← get)
  | n + 1, entries => do
    let (k, ks) ← dottedKey n
    skipBlanks
    expect .equals
    skipBlanks
    let v ← value n
    let entries ← addDotted v k ks entries
    skipBlanks
    if ← eat .rightBrace then pure entries
    else
      expect .comma
      skipBlanks
      pairs n entries

/-- Reads the elements of an array and the closing bracket, after those in `items`. -/
def elements : Nat → Array Value → Read (Array Value)
  | 0, _ => do failAt .unexpectedEnd (← get)
  | n + 1, items => do
    skipLines n
    if ← eat .rightBracket then pure items
    else
      let (_, v) ← value n
      skipLines n
      if ← eat .comma then elements n (items.push v)
      else
        expect .rightBracket
        pure (items.push v)

end

/-! ## Lines -/

/-- Reads a pair and adds it to `entries`.  At most `n` characters are left. -/
def pair (n : Nat) (entries : Array Entry) : Read (Array Entry) := do
  let (k, ks) ← dottedKey n
  skipBlanks
  expect .equals
  skipBlanks
  let v ← value (2 * n + 2)
  restOfLine
  addDotted v k ks entries

/-- Reads a header.  At most `n` characters are left. -/
def header (n : Nat) : Read Header := do
  let place ← get
  expect .leftBracket
  let isElement ← eat .leftBracket
  skipBlanks
  let (k, ks) ← dottedKey n
  expect .rightBracket
  if isElement then expect .rightBracket
  restOfLine
  pure { name := k :: ks, isElement, place }

/-- Reads the lines that are left, after those that gave the sections `done`, the header `current`
and the pairs `entries` below it.  At most `n` lines are read. -/
def sections : Nat → Array Section → Header → Array Entry → Read (Array Section)
  | 0, done, current, entries => pure (done.push { current with entries })
  | n + 1, done, current, entries => do
    skipLines n
    match ← peek with
    | none => pure (done.push { current with entries })
    | some (.leftBracket, _) =>
      let new ← header n
      sections n (done.push { current with entries }) new #[]
    | some _ =>
      let entries ← pair n entries
      sections n done current entries

end Read

/-- Reads a document.  A byte order mark at the beginning counts for nothing.  The first section
holds the pairs before the first header, and there is none if there are no such pairs. -/
def Document.read (text : List Char) : Except Error Document := do
  let text := foldLineEnds text
  let start : Header := { name := [], isElement := false, place := text }
  let sections ← (Read.sections (text.length + 1) #[] start #[]).run' (dropMark text)
  pure ⟨sections.filter fun s => !(s.name.isEmpty && s.entries.isEmpty)⟩

end Groupcast.Toml
