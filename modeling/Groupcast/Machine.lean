import Groupcast.Address.Text
import Groupcast.Assignment
import Groupcast.Directory
import Groupcast.Session

/-!
# Machines

A machine on which the program runs: a working directory, addresses that can be bound, and addresses
that datagrams can reach.  `Machine.run` says what a run comes to that is ended by a signal once the
process has had some time for its commands.
-/

namespace Groupcast

/-- What a run of the program depends on besides its command line. -/
structure Machine where
  directory : Directory
  /-- What becomes of an attempt to receive datagrams at an address. -/
  bind : Address → Except FileError Unit
  /-- Which addresses datagrams can reach. -/
  reaches : Address → Bool

/-- What a run of the program comes to. -/
structure Outcome where
  exitCode : UInt32
  stdout : String
  stderr : String
  /-- The directory after the run. -/
  directory : Directory

namespace Assignment

/-- The log after a node has gone through its commands and then run for some milliseconds, alone
but for datagrams to itself. -/
def rehearse (a : Assignment) (reaches : Address → Bool) (milliseconds : Nat) : OutputLog :=
  let _ := a.protocol
  let self := a.node.host.id
  let session := Session.ofNodes a.node.hosts [(a.node, OutputLog.empty)] reaches
  let stage : Stage a.π :=
    { starting := [self], commands := a.commands.map (self, ·), expected := []
      linger := milliseconds }
  ((session.play [stage]).bind fun s => s.runs[self]?).elim .empty Run.sink

end Assignment

namespace Machine

/-- What becomes of an attempt to receive datagrams at an address on a machine that knows no address
as its own.  Of the addresses of four bytes it takes all for what may be its own, of those of eight
groups only the ones that are not a single machine's. -/
def bindUnconnected (a : Address) : Except FileError Unit :=
  if a.isPrivileged then .error .permissionDenied
  else
    match a.ip with
    | .v4 _ => .ok ()
    | .v6 ip scope =>
      if ip.needsScope && scope = 0 then .error .invalidArgument
      else if ip.isUnspecified || ip.isMulticast || ip.mapped?.isSome then .ok ()
      else .error .addressNotAvailable

/-- A machine without a network, where no datagram arrives anywhere. -/
def isolated (directory : Directory) : Machine where
  directory
  bind := bindUnconnected
  reaches _ := false

/-- For how many milliseconds a process runs before the signal comes. -/
def moment : Nat := 50

/-- The directory after a process has done what its options say. -/
def execute (m : Machine) (o : Options) : Except Failure Directory := do
  let settings ← Settings.load m.directory.read o
  let address := settings.self.address
  match m.bind address with
  | .ok () => pure ()
  | .error e => throw ((Failure.ofFileError e).within s!"binding {address.text}")
  let log := settings.assignment.rehearse m.reaches moment
  match m.directory.write o.output (.ofText log.text) with
  | .ok directory => pure directory
  | .error e => throw ((Failure.ofFileError e).within s!"creating {o.output}")

/-- What a run with the words of a command line comes to. -/
def run (m : Machine) (words : List String) : Outcome :=
  let outcome (exitCode : UInt32) (stdout stderr : String) : Outcome :=
    { exitCode, stdout, stderr, directory := m.directory }
  match Request.ofWords words with
  | .error e => outcome 2 "" s!"error: {e.message}\n"
  | .ok .help => outcome 0 helpText ""
  | .ok .version => outcome 0 versionText ""
  | .ok (.run options) =>
    let warnings := options.logFilter.warnings
    match m.execute options with
    | .ok directory => { outcome 0 "" warnings with directory }
    | .error failure => outcome failure.exitCode "" (warnings ++ failure.report)

end Machine

end Groupcast
