import Groupcast.LogFilter
import Groupcast.Message
import Groupcast.Scenario

/-!
# Command lines

What a process is told to do by the words of its command line.  `Request.ofWords` reads them from
left to right: the first word that is wrong makes the command line wrong, and a request for help or
for the version counts as soon as it is met, whatever comes after it.
-/

namespace Groupcast

/-- What a process has to know to run. -/
structure Options where
  id : HostId
  hosts : String
  output : String
  config : String
  tuning : Option String
  detectFailures : Bool
  /-- What the process is to tell about its run. -/
  logFilter : LogFilter
  mode : Mode
  deriving Repr, DecidableEq

/-- What a process is asked for. -/
inductive Request where
  | run (options : Options)
  | help
  | version
  deriving Repr, DecidableEq

/-- The settings that take a value.  All of them are options but the mode, which is a word of its
own. -/
inductive Setting where
  | id
  | hosts
  | output
  | config
  | tuning
  | logLevel
  | mode
  deriving Repr, DecidableEq

/-- The name of a setting; the name of an option follows two dashes. -/
def Setting.name : Setting → String
  | id => "id"
  | hosts => "hosts"
  | output => "output"
  | config => "config"
  | tuning => "tuning"
  | logLevel => "log-level"
  | mode => "mode"

/-- The option with a name. -/
def Setting.ofOption? (name : String) : Option Setting :=
  [Setting.id, .hosts, .output, .config, .tuning, .logLevel].find? fun s => s.name = name

/-- Why a command line is wrong. -/
inductive UsageError where
  | unknownOption (word : String)
  /-- An option that takes no value has one. -/
  | unexpectedValue (word : String)
  | noValue (setting : Setting)
  | badValue (setting : Setting) (value : String)
  /-- An option is given twice. -/
  | repeated (word : String)
  /-- There is a word after the mode. -/
  | unexpectedWord (word : String)
  | missing (setting : Setting)
  deriving Repr, DecidableEq

/-- The text shown for a wrong command line. -/
def UsageError.message : UsageError → String
  | .unknownOption word => s!"unknown option {word}"
  | .unexpectedValue word => s!"unexpected value in {word}"
  | .noValue setting => s!"no value for --{setting.name}"
  | .badValue setting value => s!"bad {setting.name} {value}"
  | .repeated word => s!"{word} is given twice"
  | .unexpectedWord word => s!"unexpected word {word}"
  | .missing .mode => "missing mode: links, fifo or lattice"
  | .missing setting => s!"missing --{setting.name}"

/-- The settings read so far. -/
structure Draft where
  id : Option HostId := none
  hosts : Option String := none
  output : Option String := none
  config : Option String := none
  tuning : Option String := none
  logLevel : Option String := none
  mode : Option Mode := none
  detectFailures : Bool := false

/-- Reads the number of a host.  Zero may have a minus sign. -/
def readHostId? (value : String) : Option HostId :=
  match value.toList with
  | '-' :: digits => if Numeral.ofDigits? 10 digits = some 0 then some 0 else none
  | word => Numeral.readWord? word

/-- Reads a path, which is not empty. -/
def readPath? (value : String) : Option String := if value.isEmpty then none else some value

namespace Draft

/-- The value of a setting that is given a word, if it has none yet. -/
def fill {α : Type} (setting : Setting) (word value : String) (read? : String → Option α) :
    Option α → Except UsageError (Option α)
  | some _ => .error (if setting = .mode then .unexpectedWord word else .repeated word)
  | none =>
    match read? value with
    | some a => .ok (some a)
    | none => .error (.badValue setting value)

/-- Gives a setting a value.  `word` is the word of the command line where it begins. -/
def set (d : Draft) (setting : Setting) (word value : String) : Except UsageError Draft :=
  match setting with
  | .id => do pure { d with id := ← fill .id word value readHostId? d.id }
  | .hosts => do pure { d with hosts := ← fill .hosts word value readPath? d.hosts }
  | .output => do pure { d with output := ← fill .output word value readPath? d.output }
  | .config => do pure { d with config := ← fill .config word value readPath? d.config }
  | .tuning => do pure { d with tuning := ← fill .tuning word value readPath? d.tuning }
  | .logLevel => do pure { d with logLevel := ← fill .logLevel word value some d.logLevel }
  | .mode => do pure { d with mode := ← fill .mode word value Mode.ofName? d.mode }

/-- The options of a draft, if nothing is missing that has no default. -/
def finish (d : Draft) : Except UsageError Options := do
  let some id := d.id | throw (.missing .id)
  let some hosts := d.hosts | throw (.missing .hosts)
  let some output := d.output | throw (.missing .output)
  let some config := d.config | throw (.missing .config)
  let some mode := d.mode | throw (.missing .mode)
  pure {
    id, hosts, output, config, mode
    tuning := d.tuning
    detectFailures := d.detectFailures
    logFilter := .ofString (d.logLevel.getD "info") }

end Draft

namespace Request

/-- What a word of the command line is before a lone `--`. -/
inductive Word where
  /-- A name after two dashes, and the value after an equals sign if there is one. -/
  | long (name : String) (value : Option String)
  /-- The letters after a dash. -/
  | short (letters : List Char)
  /-- A lone `--`, after which no word is an option. -/
  | separator
  | plain
  deriving Repr, DecidableEq

/-- What a word of the command line is. -/
def Word.ofString (word : String) : Word :=
  match word.toList with
  | '-' :: '-' :: [] => .separator
  | '-' :: '-' :: rest =>
    let name := String.ofList (rest.takeWhile (· ≠ '='))
    match rest.dropWhile (· ≠ '=') with
    | [] => .long name none
    | _ :: value => .long name (some (String.ofList value))
  | '-' :: c :: letters => .short (c :: letters)
  | _ => .plain

/-- Reads words of which none is an option. -/
def ofPlainWords (d : Draft) : List String → Except UsageError Request
  | [] => run <$> d.finish
  | word :: words => do ofPlainWords (← d.set .mode word word) words

/-- Reads the words of a command line after those that make up a draft. -/
def ofWordsAfter (d : Draft) : List String → Except UsageError Request
  | [] => run <$> d.finish
  | word :: words =>
    match Word.ofString word with
    | .separator => ofPlainWords d words
    | .plain => do ofWordsAfter (← d.set .mode word word) words
    | .short ('h' :: _) => .ok help
    | .short ('V' :: _) => .ok version
    | .short _ => .error (.unknownOption word)
    | .long "help" none => .ok help
    | .long "version" none => .ok version
    | .long "detect-failures" none =>
      if d.detectFailures then .error (.repeated word)
      else ofWordsAfter { d with detectFailures := true } words
    | .long name value? =>
      match Setting.ofOption? name, value?, words with
      | none, none, _ => .error (.unknownOption word)
      | none, some _, _ =>
        if ["help", "version", "detect-failures"].contains name then .error (.unexpectedValue word)
        else .error (.unknownOption word)
      | some setting, some value, words => do ofWordsAfter (← d.set setting word value) words
      | some setting, none, [] => .error (.noValue setting)
      | some setting, none, value :: words =>
        match Word.ofString value with
        | .plain => do ofWordsAfter (← d.set setting word value) words
        | _ => .error (.noValue setting)

/-- What the words of a command line ask for. -/
def ofWords (words : List String) : Except UsageError Request := ofWordsAfter {} words

example : ofWords ["--id", "1", "--version", "--id", "2"] = .ok .version := by cbv

example : ofWords ["--id", "--version"] = .error (.noValue .id) := by cbv

example : ofWords ["--id=1", "--id", "2", "--version"] = .error (.repeated "--id") := by cbv

end Request

/-- The text that tells the version of the program. -/
def versionText : String := "lattice-bcast 0.1.0\n"

/-- The text that tells how to use the program. -/
def helpText : String :=
  "Layered links, broadcasts, failure detection and lattice agreement over UDP\n\n" ++
  "Usage: lattice-bcast [OPTIONS] --id <ID> --hosts <FILE> --output <FILE> --config <FILE>" ++
  " <MODE>\n\n" ++
  "  <MODE>               links, fifo or lattice\n" ++
  "  --id <ID>            the number of this process in the hosts file\n" ++
  "  --hosts <FILE>       the hosts, each as a line with its number, address and port\n" ++
  "  --output <FILE>      where the log of events goes\n" ++
  "  --config <FILE>      the scenario\n" ++
  "  --tuning <FILE>      the timing, if it differs from the default\n" ++
  "  --detect-failures    watch the other processes by heartbeats\n" ++
  "  --log-level <LEVEL>  how much to tell about the run\n" ++
  "  -h, --help           show this text\n" ++
  "  -V, --version        show the version\n"

end Groupcast
