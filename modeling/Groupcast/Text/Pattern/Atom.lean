import Groupcast.Text.Numeral
import Groupcast.Text.Words

/-!
# Atoms of patterns

The smallest parts of a pattern, and the flags that say how they are to be understood.
-/

namespace Groupcast.Text.Pattern

/-! ## Flags -/

/-- How a part of a pattern is to be understood. -/
structure Flags where
  /-- Letters stand for themselves in either case. -/
  ignoresCase : Bool := false
  /-- The pattern is about characters, not bytes. -/
  ofCharacters : Bool := true
  /-- Blanks and remarks between the parts of the pattern count for nothing. -/
  isVerbose : Bool := false
  deriving Repr, DecidableEq

namespace Flags

/-- Turns the flag with a letter on or off, if it has a bearing on what is well formed. -/
def turn (on : Bool) (f : Flags) : Char → Flags
  | 'i' => { f with ignoresCase := on }
  | 'u' => { f with ofCharacters := on }
  | 'x' => { f with isVerbose := on }
  | _ => f

/-- Changes flags as a text asks for: flags before a dash are turned on, those after it are turned
off.  None may be there twice. -/
def change? (f : Flags) (text : List Char) : Option Flags :=
  let on := text.takeWhile (· ≠ '-')
  let off := text.dropWhile (· ≠ '-')
  if text.all ("-imsURux".toList.contains ·) && text.eraseDups.length = text.length &&
      text.getLast? ≠ some '-' then
    some (off.foldl (turn false) (on.foldl (turn true) f))
  else none

/-- A text without the blanks and remarks at its beginning.  A remark goes from a number sign to
the end of the line. -/
def skipRemarks (inRemark : Bool) : List Char → List Char
  | [] => []
  | c :: cs =>
    if inRemark then skipRemarks (c ≠ '\n') cs
    else if c = '#' then skipRemarks true cs
    else if isBlank c then skipRemarks false cs
    else c :: cs

/-- A text without what counts for nothing at its beginning. -/
def skip (f : Flags) (cs : List Char) : List Char :=
  if f.isVerbose then skipRemarks false cs else cs

/-- The character that a text goes on with.  Blanks are passed over if they count for nothing, but
of a remark the first character that is no blank is taken. -/
def next? (f : Flags) (cs : List Char) : Option Char :=
  if f.isVerbose then
    match cs.dropWhile isBlank with
    | '#' :: remark => (remark.dropWhile isBlank).head?
    | rest => rest.head?
  else cs.head?

/-- Whether characters can be matched.  In either case they could be only with a table. -/
def canMatch (f : Flags) : Bool := !(f.ignoresCase && f.ofCharacters)

end Flags

/-! ## Atoms -/

/-- What a smallest part of a pattern stands for. -/
inductive Atom where
  | literal (code : Nat)
  /-- Any of several characters. -/
  | set
  /-- A place between characters. -/
  | place
  /-- A place between a character of a word and one that is not, by the kinds of all characters. -/
  | wordBound
  deriving Repr, DecidableEq

/-- Reads the code point of a character as `n` hexadecimal digits, after those whose value is
`code`. -/
def codePoint? (f : Flags) : Nat → Nat → List Char → Option (Nat × List Char)
  | 0, code, cs => if code.isValidChar then some (code, cs) else none
  | n + 1, code, cs =>
    match f.skip cs with
    | [] => none
    | c :: cs => do codePoint? f n (16 * code + (← Numeral.digitValue? c)) cs

/-- The control characters that have an escape of their own. -/
def controlCodes : List (Char × Nat) :=
  [('a', 0x7), ('f', 0xc), ('n', 0xa), ('r', 0xd), ('t', 0x9), ('v', 0xb)]

/-- Reads what follows a backslash.  Among characters, the kinds of characters need a table; among
bytes, what is not of a kind need not be text. -/
def escape? (f : Flags) : List Char → Option (Atom × List Char)
  | [] => none
  | 'x' :: cs => do
    let (code, cs) ← codePoint? f 2 0 cs
    if f.ofCharacters || code < 0x80 then some (.literal code, cs) else none
  | 'u' :: cs => (codePoint? f 4 0 cs).map fun (code, cs) => (.literal code, cs)
  | 'U' :: cs => (codePoint? f 8 0 cs).map fun (code, cs) => (.literal code, cs)
  | c :: cs =>
    if ['d', 's', 'w'].contains c then if f.ofCharacters then none else some (.set, cs)
    else if ['b', 'B', '<', '>'].contains c then
      some (if f.ofCharacters then .wordBound else .place, cs)
    else if c = 'A' || c = 'z' then some (.place, cs)
    else
      match controlCodes.lookup c with
      | some code => some (.literal code, cs)
      | none => if c.toNat < 0x80 && !c.isAlphanum then some (.literal c.toNat, cs) else none

/-! ## Depth -/

/-- The depth of a part that is made up of parts with the given depths.  A part alone stands for
itself, and several parts are one level below what they make up. -/
def depthAround : List Nat → Nat
  | [] => 0
  | [depth] => depth
  | depths => depths.foldl max 0 + 1

end Groupcast.Text.Pattern
