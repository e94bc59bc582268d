import Groupcast.Host
import Groupcast.Toml.Error
import Groupcast.Tuning

/-!
# Setup errors

What can go wrong before a node runs: files that cannot be read, configuration files that are
malformed, and settings that do not fit together.  All of these errors are fatal.
-/

namespace Groupcast

/-- Why the system refuses to open, read or write a file, or to bind an address. -/
inductive FileError where
  | notFound
  | isDirectory
  | notDirectory
  | permissionDenied
  | nameTooLong
  /-- An address is none of the machine's own. -/
  | addressNotAvailable
  | invalidArgument
  /-- The content is no text. -/
  | notText
  /-- The name holds the character that ends names. -/
  | nulInName
  /-- Any other refusal, in the words of the system. -/
  | other (text : String)
  deriving Repr, DecidableEq

/-- The text shown for a refusal, with the system's number for it if there is one. -/
def FileError.message : FileError → String
  | .notFound => "No such file or directory (os error 2)"
  | .isDirectory => "Is a directory (os error 21)"
  | .notDirectory => "Not a directory (os error 20)"
  | .permissionDenied => "Permission denied (os error 13)"
  | .nameTooLong => "File name too long (os error 36)"
  | .addressNotAvailable => "Cannot assign requested address (os error 99)"
  | .invalidArgument => "Invalid argument (os error 22)"
  | .notText => "stream did not contain valid UTF-8"
  | .nulInName => "file name contained an unexpected NUL byte"
  | .other text => text

/-- What a word of a configuration file stands for. -/
inductive WordRole where
  | hostId
  | hostName
  | port
  | number
  | value
  deriving Repr, DecidableEq

/-- The name of a role in the text of an error. -/
def WordRole.name : WordRole → String
  | .hostId => "host id"
  | .hostName => "host name"
  | .port => "port"
  | .number => "number"
  | .value => "value"

/-- What is wrong with a line of a configuration file. -/
inductive LineError where
  | missing (role : WordRole)
  | bad (role : WordRole) (word : List Char)
  /-- A host line with more than three words. -/
  | notHostLine
  /-- A header with another number of words than a scenario of point-to-point sends has. -/
  | notLinksHeader
  /-- A header with another number of words than a scenario of broadcasts has. -/
  | notBroadcastHeader
  /-- A header with another number of words than a scenario of proposals has. -/
  | notLatticeHeader
  /-- A proposal with more values than the header allows. -/
  | tooManyValues (most : Nat)
  /-- Fewer proposals than the header announces. -/
  | tooFewProposals (announced : Nat)
  /-- A scenario without a header. -/
  | empty
  deriving Repr, DecidableEq

/-- The text shown for a malformed line. -/
def LineError.message : LineError → String
  | .missing role => "missing " ++ role.name
  | .bad role word => "bad " ++ role.name ++ " " ++ String.ofList (Text.quote word)
  | .notHostLine => "expected `id host port`"
  | .notLinksHeader => "expected `messages receiver`"
  | .notBroadcastHeader => "expected `messages`"
  | .notLatticeHeader => "expected `slots max-values distinct-values`"
  | .tooManyValues most => s!"more than {most} values"
  | .tooFewProposals announced => s!"expected {announced} proposal lines"
  | .empty => "empty config"

/-- Why a node cannot be set up. -/
inductive SetupError where
  | unreadable (path : String) (cause : FileError)
  | malformed (path : String) (line : Nat) (cause : LineError)
  | badHosts (cause : HostsError)
  | unknownHost (id : HostId)
  | unresolved (host : List Char) (port : UInt16)
  | zeroTuning (field : TuningField)
  /-- A tuning file is no document or has a value of the wrong kind. -/
  | badTuning (text : List Char) (cause : Toml.Error)
  /-- A scenario announces more proposals than a list can have. -/
  | tooLarge
  deriving Repr, DecidableEq

/-- The text shown for a setup error. -/
def SetupError.message : SetupError → String
  | .unreadable path cause => s!"failed to read {path}: {cause.message}"
  | .malformed path line cause => s!"{path}:{line}: {cause.message}"
  | .badHosts cause => cause.message
  | .unknownHost id => s!"host {id} is not in the host table"
  | .unresolved host port => String.ofList ("could not resolve ".toList ++ host) ++ s!":{port}"
  | .zeroTuning field => s!"tuning value {field.key} must be positive"
  | .badTuning text cause => "invalid tuning file: " ++ cause.message text
  | .tooLarge => "capacity overflow"

end Groupcast
