import Groupcast.Toml.Error
import Groupcast.Text.Numeral

/-!
# Tokens of a TOML document

The smallest parts of a document whose line ends are folded.  A carriage return that is left then
is no part of any token.
-/

namespace Groupcast.Toml

/-- A token. -/
inductive Token where
  | newline
  /-- Spaces and tabs. -/
  | blank (text : List Char)
  | comment
  | equals
  | period
  | comma
  | colon
  | plus
  | leftBrace
  | rightBrace
  | leftBracket
  | rightBracket
  /-- Letters, digits, hyphens and underscores. -/
  | word (text : List Char)
  /-- A string with its escapes resolved, and whether it may span lines. -/
  | string (value : List Char) (multiline : Bool)
  deriving Repr, DecidableEq

/-- What a token is called in the text of an error. -/
def Token.describe : Token → String
  | newline => "a newline"
  | blank _ => "whitespace"
  | comment => "a comment"
  | equals => "an equals"
  | period => "a period"
  | comma => "a comma"
  | colon => "a colon"
  | plus => "a plus"
  | leftBrace => "a left brace"
  | rightBrace => "a right brace"
  | leftBracket => "a left bracket"
  | rightBracket => "a right bracket"
  | word _ => "an identifier"
  | string _ multiline => if multiline then "a multiline string" else "a string"

/-- A text without the byte order mark that it may begin with. -/
def dropMark : List Char → List Char
  | '\ufeff' :: cs => cs
  | cs => cs

/-- Whether a character can be part of a bare key or a number. -/
def isWordChar (c : Char) : Bool := c.isAlphanum || c = '-' || c = '_'

/-- Whether a character is a space or a tab. -/
def isSpace (c : Char) : Bool := c = ' ' || c = '\t'

/-- Whether a character can be part of a comment. -/
def isCommentChar (c : Char) : Bool := c = '\t' || ' ' ≤ c

/-- Whether a character can stand for itself in a string. -/
def isStringChar (c : Char) : Bool := c = '\t' || (' ' ≤ c && c ≠ '\x7f')

/-- A fault whose place is where `rest` begins. -/
def failAt {α : Type} (cause : Cause) (rest : List Char) : Except Error α :=
  .error ⟨cause, rest.length⟩

/-- Reads `n` hexadecimal digits, to which the value `code` of those before is added.  `opening`
is the place of the string, `rest` that of the escape. -/
def hexEscape (opening rest : List Char) : Nat → Nat → List Char → Except Error (Char × List Char)
  | 0, code, cs =>
    if code.isValidChar then .ok (Char.ofNat code, cs)
    else failAt (.invalidEscapeValue code) rest
  | _ + 1, _, [] => failAt .unterminatedString opening
  | n + 1, code, c :: cs =>
    if Numeral.isDigit 16 c then
      hexEscape opening rest n (16 * code + (Numeral.digitValue? c).getD 0) cs
    else failAt (.invalidHexEscape c) (c :: cs)

/-- Reads what follows a backslash: the character that it stands for, or none if it joins lines. -/
def escape (opening : List Char) (multiline : Bool) (cs : List Char) :
    Except Error (Option Char × List Char) :=
  match cs with
  | [] => failAt .unterminatedString opening
  | '"' :: rest => .ok (some '"', rest)
  | '\\' :: rest => .ok (some '\\', rest)
  | 'b' :: rest => .ok (some '\x08', rest)
  | 'f' :: rest => .ok (some '\x0c', rest)
  | 'n' :: rest => .ok (some '\n', rest)
  | 'r' :: rest => .ok (some '\r', rest)
  | 't' :: rest => .ok (some '\t', rest)
  | 'u' :: rest => (hexEscape opening cs 4 0 rest).map fun (c, rest) => (some c, rest)
  | 'U' :: rest => (hexEscape opening cs 8 0 rest).map fun (c, rest) => (some c, rest)
  | c :: rest =>
    if multiline && (isSpace c || c = '\n') then
      match cs.dropWhile isSpace with
      | [] => failAt .unterminatedString opening
      | '\n' :: rest => .ok (none, rest.dropWhile fun c => isSpace c || c = '\n')
      | _ => failAt (.invalidEscape c) (c :: rest)
    else failAt (.invalidEscape c) (c :: rest)

theorem length_of_hexEscape {opening start : List Char} {n code : Nat} {cs rest : List Char}
    {c : Char} (h : hexEscape opening start n code cs = .ok (c, rest)) :
    rest.length ≤ cs.length := by
  induction n generalizing code cs with
  | zero =>
    unfold hexEscape at h
    split at h
    · cases h
      exact Nat.le_refl _
    · cases h
  | succ n ih =>
    cases cs with
    | nil => cases h
    | cons d cs =>
      unfold hexEscape at h
      split at h
      · exact Nat.le_succ_of_le (ih h)
      · cases h

/-- An escape reads on in the text. -/
theorem length_of_escape {opening : List Char} {multiline : Bool} {cs rest : List Char}
    {c : Option Char} (h : escape opening multiline cs = .ok (c, rest)) :
    rest.length ≤ cs.length := by
  have ofHex {n : Nat} {tail : List Char}
      (h : (hexEscape opening cs n 0 tail).map (fun (c, rest) => (some c, rest)) = .ok (c, rest)) :
      rest.length ≤ tail.length := by
    cases hx : hexEscape opening cs n 0 tail with
    | error e => simp [hx, Except.map] at h
    | ok r =>
      simp only [hx, Except.map, Except.ok.injEq, Prod.mk.injEq] at h
      exact h.2 ▸ length_of_hexEscape hx
  unfold escape at h
  split at h
  case h_9 => exact Nat.le_succ_of_le (ofHex h)
  case h_10 => exact Nat.le_succ_of_le (ofHex h)
  case h_11 d tail _ _ _ _ _ _ _ _ _ =>
    split at h
    · have skipped := (List.dropWhile_sublist isSpace (l := d :: tail)).length_le
      split at h
      · cases h
      · next more hm =>
        cases h
        have joined :=
          (List.dropWhile_sublist (fun c => isSpace c || c = '\n') (l := more)).length_le
        simp only [hm, List.length_cons] at skipped
        simp only [List.length_cons]
        omega
      · cases h
    · cases h
  case h_1 => cases h
  all_goals
    cases h
    exact Nat.le_succ _

/-- The end of a string over several lines, after its three quotes: two more belong to it. -/
def closing (quote : Char) (value : List Char) (cs : List Char) : Token × List Char :=
  let more := (cs.take 2).takeWhile (· = quote)
  (.string (value ++ more) true, cs.drop more.length)

/-- Reads a string up to its end.  `opening` is its place, `value` what it holds so far, the last
character first, and `first` tells whether nothing was read yet. -/
def stringRest (quote : Char) (multiline : Bool) (opening : List Char) (first : Bool)
    (value : List Char) (text : List Char) : Except Error (Token × List Char) :=
  match text with
  | [] => failAt .unterminatedString opening
  | c :: cs =>
    if c = '\n' then
      if !multiline then failAt .newlineInString (c :: cs)
      else
        let value := if first then value else '\n' :: value
        stringRest quote multiline opening false value cs
    else if c = quote then
      if !multiline then .ok (.string value.reverse false, cs)
      else
        match (cs.take 2).takeWhile (· = quote) with
        | [] => stringRest quote multiline opening false (quote :: value) cs
        | [_] => stringRest quote multiline opening false (quote :: quote :: value) (cs.drop 1)
        | _ => .ok (closing quote value.reverse (cs.drop 2))
    else if c = '\\' ∧ quote = '"' then
      match _read : escape opening multiline cs with
      | .error e => .error e
      | .ok (some c, rest) => stringRest quote multiline opening false (c :: value) rest
      | .ok (none, rest) => stringRest quote multiline opening false value rest
    else if isStringChar c then stringRest quote multiline opening false (c :: value) cs
    else failAt (.invalidInString c) (c :: cs)
termination_by text.length
decreasing_by
  · exact Nat.lt_succ_self _
  · exact Nat.lt_succ_self _
  · simp only [List.length_drop, List.length_cons]
    omega
  · exact Nat.lt_succ_of_le (length_of_escape _read)
  · exact Nat.lt_succ_of_le (length_of_escape _read)
  · exact Nat.lt_succ_self _

/-- Reads a string that begins at `opening` and has `cs` after its first quote. -/
def string (quote : Char) (opening cs : List Char) : Except Error (Token × List Char) :=
  match cs with
  | c :: d :: rest =>
    if c = quote ∧ d = quote then stringRest quote true opening true [] rest
    else if c = quote then .ok (.string [] false, d :: rest)
    else stringRest quote false opening true [] cs
  | _ =>
    if cs = [quote] then .ok (.string [] false, [])
    else stringRest quote false opening true [] cs

/-- The first token of a text and what follows it, or nothing at the end of the text. -/
def nextToken (text : List Char) : Except Error (Option (Token × List Char)) :=
  let span (p : Char → Bool) (make : List Char → Token) :=
    .ok (some (make (text.takeWhile p), text.dropWhile p))
  match text with
  | [] => .ok none
  | c :: cs =>
    match c with
    | '\n' => .ok (some (.newline, cs))
    | '#' => .ok (some (.comment, cs.dropWhile isCommentChar))
    | '=' => .ok (some (.equals, cs))
    | '.' => .ok (some (.period, cs))
    | ',' => .ok (some (.comma, cs))
    | ':' => .ok (some (.colon, cs))
    | '+' => .ok (some (.plus, cs))
    | '\x7b' => .ok (some (.leftBrace, cs))
    | '\x7d' => .ok (some (.rightBrace, cs))
    | '[' => .ok (some (.leftBracket, cs))
    | ']' => .ok (some (.rightBracket, cs))
    | '\'' => (string c text cs).map some
    | '"' => (string c text cs).map some
    | c =>
      if isSpace c then span isSpace .blank
      else if isWordChar c then span isWordChar .word
      else failAt (.unexpected c) text

end Groupcast.Toml
