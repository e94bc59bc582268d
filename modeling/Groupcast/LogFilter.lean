import Groupcast.Text.Pattern
import Groupcast.Text.Slice

/-!
# Log filters

What a process is to tell about its run.  A filter is a list of directives with commas between
them; a directive is a level, or a target or span with the level up to which it is told of.  A
directive that is wrong is left out and `LogFilter.warnings` says why, but the filter stands.
-/

namespace Groupcast

/-- How much is told.  Each level tells all that those before it tell. -/
inductive LogLevel where
  | off
  | error
  | warn
  | info
  | debug
  | trace
  deriving Repr, DecidableEq

namespace LogLevel

/-- The levels by their names, in the order of their numbers. -/
def names : List (String × LogLevel) :=
  [("off", off), ("error", error), ("warn", warn), ("info", info), ("debug", debug),
    ("trace", trace)]

/-- The level with a number, or with a name in letters of either case. -/
def read? (text : List Char) : Option LogLevel :=
  match Numeral.read? 5 text with
  | some n => names[n]?.map Prod.snd
  | none => names.lookup (String.ofList (text.map Char.toLower))

/-- Whether a level tells what is told from another one on. -/
def tells (level least : LogLevel) : Bool :=
  names.findIdx (·.2 = least) ≤ names.findIdx (·.2 = level)

end LogLevel

/-! ## Directives -/

/-- What is wrong with a directive. -/
inductive DirectiveError where
  | malformed
  | badLevel
  /-- The value that a field is to have is neither a number nor a pattern. -/
  | badPattern (cause : Text.PatternError)
  /-- A part of the directive would begin or end within a character. -/
  | cutsCharacter
  deriving Repr, DecidableEq

/-- The text shown for a directive that is wrong. -/
def DirectiveError.message : DirectiveError → String
  | .malformed => "invalid filter directive"
  | .badLevel => "error parsing level filter: expected one of \"off\", \"error\", \"warn\", " ++
      "\"info\", \"debug\", \"trace\", or a number 0-5"
  | .badPattern cause => "invalid field filter: " ++ cause.message
  | .cutsCharacter => "a part begins or ends within a character"

/-- A level, and what it is for. -/
structure LogDirective where
  /-- What is told of; if there is no target, everything. -/
  target : Option (List Char)
  /-- The name of the span of the run in which it is told. -/
  span : Option (List Char)
  level : LogLevel
  deriving Repr, DecidableEq

namespace LogDirective

/-- Whether a text is a decimal number without a sign. -/
def isDecimal (text : List Char) : Bool :=
  let whole := text.takeWhile Char.isDigit
  let (fraction, rest) := match text.dropWhile Char.isDigit with
    | '.' :: cs => (cs.takeWhile Char.isDigit, cs.dropWhile Char.isDigit)
    | cs => ([], cs)
  let isExponent : List Char → Bool
    | [] => true
    | e :: cs =>
      let digits := match cs with
        | '+' :: cs | '-' :: cs => cs
        | cs => cs
      (e = 'e' || e = 'E') && !digits.isEmpty && digits.all Char.isDigit
  !(whole ++ fraction).isEmpty && isExponent rest

/-- Whether a text is a number with a plus sign. -/
def isPositive : List Char → Bool
  | '+' :: number =>
    isDecimal number ||
      ["inf", "infinity", "nan"].contains (String.ofList (number.map Char.toLower))
  | _ => false

/-- Checks the text of a field: a name, and after an equals sign the value that it is to have, a
number or a pattern.  Of several values only the first one counts, and a number is a pattern as well
unless it has a plus sign. -/
def checkField (text : List Char) : Except DirectiveError Unit :=
  if text.isEmpty then .error .malformed
  else
    match text.dropWhile (· ≠ '=') with
    | _ :: values =>
      let value := values.takeWhile (· ≠ '=')
      if isPositive value then .ok () else (Text.Pattern.check value).mapError .badPattern
    | [] => .ok ()

/-- Whether a directive may begin with a character. -/
def isFirst (c : Char) : Bool := c = '[' || ['-', ':', '_'].contains c || Text.isAlphanumeric c

/-- A text without the blanks around it. -/
def trimmed (text : List Char) : List Char :=
  ((text.dropWhile Text.isBlank).reverse.dropWhile Text.isBlank).reverse

/-- The part of a directive between two places. -/
def cut (text : List Char) (start stop : Nat) : Except DirectiveError (List Char) :=
  match Text.slice? start stop text with
  | some part => .ok part
  | none => .error .cutsCharacter

/-- Reads the level that is written from a place of a directive on.  Without one all is told. -/
def readLevel (text : List Char) (place : Nat) : Except DirectiveError LogLevel := do
  match ← cut text place (Text.size text) with
  | [] => pure .trace
  | written =>
    match LogLevel.read? written with
    | some level => pure level
    | none => throw .badLevel

/-- Reads a span after the bracket that opens it at a place of a directive.  It yields the name of
the span, and the place and the text after the bracket that closes it.  In the span, a field may
stand in braces. -/
def readSpan (text : List Char) (place : Nat) (inside : List Char) :
    Except DirectiveError (List Char × Nat × List Char) := do
  let label := inside.takeWhile fun c => c ≠ ']' && c ≠ '{'
  let stop := place + Text.size label
  match inside.drop label.length with
  | ']' :: rest => pure (← cut text place stop, stop + 1, rest)
  | '{' :: inside =>
    let name ← cut text place stop
    let field := inside.takeWhile (· ≠ '}')
    let fieldStop := stop + 1 + Text.size field
    match inside.drop field.length with
    | '}' :: rest =>
      checkField (← cut text (stop + 1) fieldStop)
      match rest with
      | ']' :: rest => pure (name, fieldStop + 2, rest)
      | _ => throw .malformed
    | _ => throw .malformed
  | _ => throw .malformed

/-- Reads a directive: a target or a span or both, and the level after an equals sign.  A word is a
level if it can be one.  Blanks around a directive do not belong to it.  The places of its parts are
counted without the blanks in front, but the parts are cut out of the text with them. -/
def read (text : List Char) : Except DirectiveError LogDirective := do
  let bare := trimmed text
  if !bare.head?.any isFirst then throw .malformed
  let label := bare.takeWhile fun c => c ≠ '=' && c ≠ '['
  let place := Text.size label
  match bare.drop label.length with
  | [] =>
    match LogLevel.read? text with
    | some level => pure ⟨none, none, level⟩
    | none => pure ⟨some text, none, .trace⟩
  | '[' :: inside =>
    let target ← cut text 0 place
    let target := if label.isEmpty then none else some target
    match ← readSpan text (place + 1) inside with
    | (span, _, []) => pure ⟨target, some span, .trace⟩
    | (span, place, '=' :: _) => pure ⟨target, some span, ← readLevel text (place + 1)⟩
    | _ => throw .malformed
  | _ =>
    let target ← cut text 0 place
    pure ⟨some target, none, ← readLevel text (place + 1)⟩

example : (read "WARN".toList).toOption = some ⟨none, none, .warn⟩ := by decide +kernel

example : (read "a[b\x7bc=d*\x7d]=5".toList).toOption =
    some ⟨some ['a'], some ['b'], .trace⟩ := by decide +kernel

end LogDirective

/-! ## Filters -/

/-- What a process is to tell about its run. -/
structure LogFilter where
  directives : List LogDirective
  /-- The directives that are left out, and what is wrong with them. -/
  ignored : List (List Char × DirectiveError)
  deriving Repr, DecidableEq

namespace LogFilter

/-- The filter that a text describes. -/
def ofString (text : String) : LogFilter :=
  let parts := (Text.pieces ',' text.toList).filter (!·.isEmpty)
  { directives := parts.filterMap fun part => (LogDirective.read part).toOption
    ignored := parts.filterMap fun part =>
      match LogDirective.read part with
      | .ok _ => none
      | .error e => some (part, e) }

/-- Whether a directive cannot even be left out: a part of it would begin or end within a
character. -/
def isFatal (f : LogFilter) : Bool := f.ignored.any (·.2 = .cutsCharacter)

/-- The lines that tell which directives are left out. -/
def warnings (f : LogFilter) : String :=
  String.join (f.ignored.map fun (part, e) => s!"ignoring `{String.ofList part}`: {e.message}\n")

/-- How much is told of a target outside of spans.  The directive with the longest target that the
given one begins with counts, and the last one of several.  Without directives errors are told. -/
def level (f : LogFilter) (target : String) : LogLevel :=
  let applies (d : LogDirective) : Bool :=
    d.span.isNone && d.target.all (·.isPrefixOf target.toList)
  let length (d : LogDirective) : Nat := d.target.elim 0 fun t => t.length + 1
  if f.directives.isEmpty then .error
  else
    ((f.directives.filter applies).foldl
      (fun best? d =>
        match best? with
        | some best => if length best ≤ length d then some d else some best
        | none => some d)
      none).elim .off LogDirective.level

example : (ofString "info,a=b,,[,c\x7b,[\x7bd=(\x7d]").ignored =
    [("a=b".toList, .badLevel), ("[".toList, .malformed),
      ("[\x7bd=(\x7d]".toList, .badPattern .malformed)] := by
  decide +kernel

example : (ofString " a=info,\té=5,\u2003[a]").ignored =
    [(" a=info".toList, .badLevel), ("\té=5".toList, .cutsCharacter),
      ("\u2003[a]".toList, .cutsCharacter)] := by
  decide +kernel

example : (ofString "warn,=").warnings = "ignoring `=`: invalid filter directive\n" := by
  decide +kernel

example : (ofString "a=info,a::b=debug,trace").level "a::bc" = .debug := by decide +kernel

end LogFilter

end Groupcast
