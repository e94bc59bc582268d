import Groupcast.Text.Pattern.Atom

/-!
# Classes of characters in patterns

A class in square brackets has members: characters, ranges of them, kinds of characters by their
names, and other classes.  Two such lists of members can be combined by `&&`, `--` and `~~`.
-/

namespace Groupcast.Text.Pattern

/-- The kinds of characters that have a name in classes. -/
def kindNames : List String :=
  ["alnum", "alpha", "ascii", "blank", "cntrl", "digit", "graph", "lower", "print", "punct",
    "space", "upper", "word", "xdigit"]

/-- Reads the name of a kind between colons and the bracket after it, and whether the kind is to be
excluded. -/
def kind? : List Char → Option (Bool × List Char)
  | ':' :: cs =>
    let (excluded, cs) := match cs with
      | '^' :: cs => (true, cs)
      | cs => (false, cs)
    match cs.dropWhile (· ≠ ':') with
    | ':' :: ']' :: rest =>
      if kindNames.contains (String.ofList (cs.takeWhile (· ≠ ':'))) then some (excluded, rest)
      else none
    | _ => none
  | _ => none

/-- Reads a member of a class. -/
def member? (f : Flags) : List Char → Option (Atom × List Char)
  | [] => none
  | '\\' :: cs => do
    match ← escape? f cs with
    | (.set, cs) => some (.set, cs)
    | (.literal code, cs) =>
      if f.ofCharacters || code < 0x80 then some (.literal code, cs) else none
    | _ => none
  | c :: cs => if f.ofCharacters || c.toNat < 0x80 then some (.literal c.toNat, cs) else none

/-- Reads a member of a class or a range from one to another. -/
def range? (f : Flags) (cs : List Char) : Option (List Char) := do
  let (first, rest) ← member? f cs
  match f.skip rest with
  | '-' :: after =>
    if f.next? after = some ']' || f.next? after = some '-' then some ('-' :: after)
    else
      match first, ← member? f (f.skip after) with
      | .literal m, (.literal n, rest) => if m ≤ n then some rest else none
      | _, _ => none
  | rest => some rest

/-- What is read of a class. -/
structure ClassBody where
  /-- Whether nothing but dashes has come, which are members there. -/
  isFresh : Bool := true
  /-- The depths of the members after the last operator. -/
  members : List Nat := []
  /-- The depth of what is before that operator. -/
  left : Option Nat := none
  deriving Repr, DecidableEq

namespace ClassBody

/-- The depth of what is between the brackets. -/
def depth (b : ClassBody) : Nat :=
  let right := depthAround b.members
  b.left.elim right fun left => max left right + 1

/-- With one more member. -/
def add (b : ClassBody) (depth : Nat) : ClassBody :=
  { b with isFresh := false, members := depth :: b.members }

/-- With one more dash where nothing else has come. -/
def addDash (b : ClassBody) : ClassBody := { b with members := 0 :: b.members }

/-- With an operator. -/
def operate (b : ClassBody) : ClassBody := { isFresh := false, left := some b.depth }

end ClassBody

/-- Reads the caret after the bracket that opens a class, if there is one.  Among bytes, what is not
in a class need not be text. -/
def openClass? (f : Flags) (cs : List Char) : Option (List Char) :=
  match f.skip cs with
  | '^' :: cs => if f.ofCharacters then some cs else none
  | cs => some cs

/-- Reads the rest of a class that is inside of others, and yields the depth of the outermost one.
A bracket that comes first is a member. -/
def classRest? (f : Flags) : Nat → ClassBody → List ClassBody → List Char → Option (Nat × List Char)
  | 0, _, _, _ => none
  | fuel + 1, body, outer, cs =>
    let withMember (cs : List Char) :=
      if f.canMatch then classRest? f fuel (body.add 0) outer cs else none
    match f.skip cs with
    | [] => none
    | '[' :: cs =>
      match kind? cs with
      | some (excluded, rest) => if excluded && !f.ofCharacters then none else withMember rest
      | none => (openClass? f cs).bind (classRest? f fuel {} (body :: outer))
    | ']' :: cs =>
      if body.isFresh && body.members.isEmpty then withMember cs
      else
        match outer with
        | [] => some (body.depth + 1, cs)
        | around :: outer => classRest? f fuel (around.add (body.depth + 1)) outer cs
    | '-' :: cs =>
      if body.isFresh then
        if f.canMatch then classRest? f fuel body.addDash outer cs else none
      else
        match cs with
        | '-' :: cs => classRest? f fuel body.operate outer cs
        | cs => (range? f ('-' :: cs)).bind withMember
    | '&' :: '&' :: cs => classRest? f fuel body.operate outer cs
    | '~' :: '~' :: cs => classRest? f fuel body.operate outer cs
    | cs => (range? f cs).bind withMember

/-- Reads a class after the bracket that opens it, and yields its depth. -/
def class? (f : Flags) (cs : List Char) : Option (Nat × List Char) := do
  let inside ← openClass? f cs
  classRest? f (inside.length + 1) {} [] inside

example : class? {} "^]a-z[:alpha:][b]--c]d".toList = some (4, ['d']) := by decide +kernel

example : ["", "a", "[a]", "z-a]", "a-\\d]", "\\b]"].map (fun s => class? {} s.toList) =
    List.replicate 6 none := by decide +kernel

end Groupcast.Text.Pattern
