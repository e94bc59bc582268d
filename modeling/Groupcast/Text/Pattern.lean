import Groupcast.Text.Alphanumeric
import Groupcast.Text.Pattern.Class

/-!
# Patterns

`Pattern.check` says which texts are patterns: literals, classes in square brackets, groups in
parentheses, alternatives, the repetitions `*`, `+` and `?`, and escapes.  A pattern stands between
braces and so has none of its own that is closed; an opening brace outside of a class, which would
begin a count or a name, is therefore never right.

A pattern is well formed only if it can be searched for without tables of the properties of
characters, if what it finds is always text, and if it is not too deep.  By default it is about
characters; in the scope of the flag `-u` it is about bytes.
-/

namespace Groupcast.Text

/-- Why a text cannot be searched for as a pattern. -/
inductive PatternError where
  | malformed
  /-- The bounds of words are looked for among all characters. -/
  | wordBounds
  deriving Repr, DecidableEq

/-- The text shown for a pattern that cannot be searched for. -/
def PatternError.message : PatternError → String
  | .malformed => "error building NFA"
  | .wordBounds => "unsupported regex feature for DFAs: cannot build DFAs for regexes with " ++
      "Unicode word boundaries; switch to ASCII word boundaries, or heuristically enable " ++
      "Unicode word boundaries or use a different regex engine"

namespace Pattern

/-! ## What is read of a pattern -/

/-- A part of a pattern. -/
structure Part where
  depth : Nat
  /-- Whether the part can be repeated.  A change of flags cannot. -/
  isRepeatable : Bool
  deriving Repr, DecidableEq

/-- What is read of a group. -/
structure Branches where
  /-- The parts of the alternative that is read, the last one first. -/
  parts : List Part := []
  /-- The depths of the alternatives before it. -/
  earlier : List Nat := []
  deriving Repr, DecidableEq

namespace Branches

/-- The depth of what is inside of the group. -/
def depth (b : Branches) : Nat :=
  depthAround (depthAround (b.parts.map Part.depth) :: b.earlier)

/-- With one more part. -/
def add (b : Branches) (part : Part) : Branches := { b with parts := part :: b.parts }

/-- With a new alternative. -/
def branch (b : Branches) : Branches where
  earlier := depthAround (b.parts.map Part.depth) :: b.earlier

/-- With the last part repeated. -/
def repeatLast? (b : Branches) : Option Branches :=
  match b.parts with
  | ⟨depth, true⟩ :: parts => some { b with parts := ⟨depth + 1, true⟩ :: parts }
  | _ => none

end Branches

/-- What is read of a pattern. -/
structure Progress where
  flags : Flags := {}
  /-- What is read of the innermost open group. -/
  branches : Branches := {}
  /-- The flags outside of each open group and what is read around it, from the innermost on. -/
  outer : List (Flags × Branches) := []
  /-- The names that groups have. -/
  names : List (List Char) := []
  /-- Whether the bounds of words are looked for among all characters. -/
  hasWordBounds : Bool := false
  deriving Repr, DecidableEq

namespace Progress

/-- With one more part that can be repeated. -/
def add (p : Progress) (depth : Nat) : Progress :=
  { p with branches := p.branches.add ⟨depth, true⟩ }

/-- With a change of flags. -/
def addFlags (p : Progress) (flags : Flags) : Progress :=
  { p with flags, branches := p.branches.add ⟨0, false⟩ }

/-- Inside of a group that is just opened. -/
def enter (p : Progress) (flags : Flags) : Progress :=
  { p with flags, branches := {}, outer := (p.flags, p.branches) :: p.outer }

/-- Outside of the group that is just closed. -/
def leave? (p : Progress) : Option Progress :=
  match p.outer with
  | [] => none
  | (flags, around) :: outer =>
    some { p with flags, outer, branches := around.add ⟨p.branches.depth + 1, true⟩ }

end Progress

/-! ## Reading -/

/-- Whether a text can be the name of a group. -/
def isGroupName : List Char → Bool
  | [] => false
  | c :: cs =>
    (c = '_' || isAlphabetic c) &&
      cs.all fun c => isAlphanumeric c || ['_', '.', '[', ']'].contains c

/-- Reads the name of a group and the angle bracket after it. -/
def named? (p : Progress) (cs : List Char) : Option (Progress × List Char) :=
  let name := cs.takeWhile (· ≠ '>')
  match cs.dropWhile (· ≠ '>') with
  | '>' :: rest =>
    if isGroupName name && !p.names.contains name then
      some ({ p.enter p.flags with names := name :: p.names }, rest)
    else none
  | _ => none

/-- Reads on after an opening parenthesis. -/
def group? (p : Progress) (cs : List Char) : Option (Progress × List Char) :=
  match p.flags.skip cs with
  | '?' :: 'P' :: '<' :: cs => named? p cs
  | '?' :: '<' :: cs => named? p cs
  | '?' :: cs =>
    let text := cs.takeWhile fun c => c ≠ ':' && c ≠ ')'
    match p.flags.change? text, cs.drop text.length with
    | some flags, ':' :: rest => some (p.enter flags, rest)
    | some flags, ')' :: rest => if text.isEmpty then none else some (p.addFlags flags, rest)
    | _, _ => none
  | cs => some (p.enter p.flags, cs)

/-- Reads on after the first character `c` of a part of a pattern. -/
def part? (p : Progress) (c : Char) (cs : List Char) : Option (Progress × List Char) :=
  match c with
  | '(' => group? p cs
  | ')' => p.leave?.map (·, cs)
  | '|' => some ({ p with branches := p.branches.branch }, cs)
  | '[' => (class? p.flags cs).map fun (depth, rest) => (p.add depth, rest)
  | '{' => none
  | '\\' => do
    match ← escape? p.flags cs with
    | (.literal _, cs) => if p.flags.canMatch then some (p.add 0, cs) else none
    | (.wordBound, cs) => some ({ p.add 0 with hasWordBounds := true }, cs)
    | (_, cs) => some (p.add 0, cs)
  | '.' => if p.flags.ofCharacters then some (p.add 0, cs) else none
  | _ =>
    if c = '*' || c = '+' || c = '?' then do
      let branches ← p.branches.repeatLast?
      match cs with
      | '?' :: cs => some ({ p with branches }, cs)
      | cs => some ({ p with branches }, cs)
    else if c = '^' || c = '$' || p.flags.canMatch then some (p.add 0, cs)
    else none

/-- Reads a pattern to the end.  Every part takes up a character at least, so that `fuel` need only
exceed the length of the text. -/
def finish? (fuel : Nat) (p : Progress) (cs : List Char) : Option Progress :=
  match fuel, p.flags.skip cs with
  | _, [] => if p.outer.isEmpty then some p else none
  | 0, _ => none
  | fuel + 1, c :: cs => do
    let (p, rest) ← part? p c cs
    finish? fuel p rest

/-- How deep a pattern may be. -/
def maxDepth : Nat := 250

/-- Checks whether a text can be searched for as a pattern. -/
def check (text : List Char) : Except PatternError Unit :=
  match finish? (text.length + 1) {} text with
  | none => .error .malformed
  | some p =>
    if maxDepth < p.branches.depth then .error .malformed
    else if p.hasWordBounds then .error .wordBounds
    else .ok ()

/-- Whether a text can be searched for as a pattern. -/
def isSearchable (text : String) : Bool := (check text.toList).toOption.isSome

example : isSearchable "(a|b[^]x-z]*)+?\\." = true := by decide +kernel

example : isSearchable "(?x: a # b\n)(?-u:\\d+\\b)(?i-u)a" = true := by decide +kernel

example : ["(", ")", "[a", "*", "a|+", "[z-a]", "\\", "\\d", "a\x7b2", "(?i)a", "(?P<n>a)(?<n>b)",
    "\\b"].any isSearchable = false := by decide +kernel

example : (finish? 9 {} "((a*)b)*".toList).map (·.branches.depth) = some 5 := by decide +kernel

end Pattern

end Groupcast.Text
