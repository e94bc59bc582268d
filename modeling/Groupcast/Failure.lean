import Groupcast.Setup

/-!
# Failures

Why a process stops, as it is told to the user: a summary of what the process was about, and the
causes behind it, from the outermost to the innermost.
-/

namespace Groupcast

/-- Why a process stops before it has done its work. -/
structure Failure where
  summary : String
  causes : List String
  /-- The exit code of the process. -/
  exitCode : UInt32
  deriving Repr, DecidableEq

namespace Failure

/-- A text in which every line after the first begins with a margin. -/
def indent (margin text : String) : String :=
  String.ofList (text.toList.flatMap fun c => if c = '\n' then c :: margin.toList else [c])

/-- A number with blanks before it, so that it takes up five places. -/
def padded (n : Nat) : String :=
  let digits := toString n
  "".pushn ' ' (5 - digits.length) ++ digits

/-- The text of the causes.  They are numbered if there is more than one. -/
def causeLines : List String → List String
  | [] => []
  | [cause] => ["    " ++ indent "    " cause]
  | causes => causes.zipIdx.map fun (cause, n) => padded n ++ ": " ++ indent "       " cause

/-- The report on a failure. -/
def report (f : Failure) : String :=
  let causes := causeLines f.causes
  let behind := if causes.isEmpty then "" else "\n\nCaused by:\n" ++ "\n".intercalate causes
  "Error: " ++ f.summary ++ behind ++ "\n"

/-- The failure behind another one, which says what the process was about. -/
def within (f : Failure) (summary : String) : Failure :=
  { f with summary, causes := f.summary :: f.causes }

/-- The failure due to a refusal of the system. -/
def ofFileError (e : FileError) : Failure := ⟨e.message, [], 1⟩

/-- The failure due to a setup error. -/
def ofSetupError (e : SetupError) : Failure where
  summary := e.message
  causes := match e with
    | .unreadable _ cause => [cause.message]
    | .badTuning text cause => [cause.message text]
    | _ => []
  exitCode := match e with
    | .tooLarge => 101
    | _ => 1

example : (ofFileError .notFound |>.within "creating out.log").report =
    "Error: creating out.log\n\nCaused by:\n    No such file or directory (os error 2)\n" := by
  decide +kernel

end Failure

end Groupcast
