import Groupcast.Assignment
import Groupcast.Log
import Std.Async.Signal
import Std.Async.Timer
import Std.Async.UDP

/-!
# The program

The node of one process over a socket, real files and the clock of the machine.  What the process is
to do, and all that its node does, is defined elsewhere; here it is read, sent and written.
-/

namespace Groupcast.Main

open Std.Async

/-! ## Files and addresses -/

/-- The refusal that an error of the system stands for. -/
def refusal : IO.Error → FileError
  | .noFileOrDirectory .. => .notFound
  | .inappropriateType _ 21 _ => .isDirectory
  | .inappropriateType _ 20 _ => .notDirectory
  | .permissionDenied .. => .permissionDenied
  | .invalidArgument .. => .invalidArgument
  | e@(.unsupportedOperation code _) =>
    if -code = 99 then .addressNotAvailable else .other (toString e)
  | e => .other (toString e)

/-- What an action comes to: its result, or the refusal of the system. -/
def attempt {α : Type} (action : IO α) : IO (Except FileError α) := do
  match ← action.toBaseIO with
  | .ok a => pure (.ok a)
  | .error e => pure (.error (refusal e))

/-- Reads the files at some paths, once and for all. -/
def readFiles (paths : List String) : IO FileReader := do
  let contents ← paths.mapM fun (path : String) => do
    pure (path, (← attempt (IO.FS.readBinFile path)).map ByteArray.toList)
  pure fun path => (contents.lookup path).getD (.error .notFound)

/-- An address as sockets take it. -/
def toSocketAddress (a : Address) : Std.Net.SocketAddress :=
  match a.ip with
  | .v4 ip => .v4 ⟨⟨#v[ip.a, ip.b, ip.c, ip.d]⟩, a.port⟩
  | .v6 ip _ => .v6 ⟨⟨⟨ip.groups.toArray, by simp [ip.length_groups]⟩⟩, a.port⟩

/-- An address as sockets give it. -/
def ofSocketAddress : Std.Net.SocketAddress → Address
  | .v4 a => ⟨.v4 ⟨a.addr.octets[0], a.addr.octets[1], a.addr.octets[2], a.addr.octets[3]⟩, a.port⟩
  | .v6 a => ⟨.v6 ⟨a.addr.segments.toList, by simp⟩ 0, a.port⟩

/-! ## The node -/

/-- Where a process is connected to the world. -/
structure Connection where
  socket : UDP.Socket
  /-- Whether a signal has come that ends the process. -/
  isInterrupted : IO Bool
  /-- Tells about the run. -/
  tell : String → IO Unit

/-- The largest datagram that can arrive. -/
def maxDatagram : UInt64 := 65536

/-- For how many milliseconds to wait at most before a look at the signals. -/
def patience : Nat := 100

/-- Whether one of the signals has come that end the process. -/
def watchSignals : IO (IO Bool) := do
  let signals ← [Signal.sigint, Signal.sigterm].mapM fun signal => do
    (← Signal.Waiter.mk signal false).wait
  pure (signals.anyM fun signal => IO.hasFinished signal)

/-- Waits for a datagram, but at most for some milliseconds. -/
def Connection.wait (c : Connection) (milliseconds : Nat) : Async (Option (Address × Bytes)) := do
  let timer ← Selector.sleep (.ofNat milliseconds)
  Selectable.one #[
    .case (c.socket.recvSelector maxDatagram) fun (bytes, source) =>
      pure (source.map fun source => (ofSocketAddress source, bytes.toList)),
    .case timer fun () => pure none]

/-- Sends and records what a node gives out.  A datagram that cannot be sent is left to be sent
again when its time comes. -/
def Connection.emit (c : Connection) (log : OutputLog) (o : Output) : Async OutputLog := do
  for d in o.sent do
    try c.socket.send (ByteArray.mk d.bytes.toArray) (some (toSocketAddress d.target))
    catch e => c.tell s!"send to {d.target.text} failed: {e}"
  for s in o.suspicions do
    match s with
    | .suspect peer => c.tell s!"peer {peer} suspected"
    | .restore peer timeout => c.tell s!"peer {peer} restored, timeout {timeout} ms"
  match o.events.foldlM Sink.recordEvent log with
  | .ok log => pure log
  | .error e => throw (.userError e.message)

/-- Gives a node a command.  A command that cannot be met is dropped. -/
def Connection.command {π : Type} [Protocol π] (c : Connection) (node : Node π)
    (command : Protocol.Command π) : Async (Node π × Output) := do
  match node.onCommand command (← IO.monoMsNow) with
  | .ok given => pure given
  | .error e =>
    c.tell s!"command rejected: {e.message}"
    pure (node, .empty)

/-- Lets a node take in the next datagram, or do what is due if none comes in some milliseconds. -/
def Connection.next {π : Type} [Protocol π] (c : Connection) (node : Node π)
    (milliseconds : Nat) : Async (Node π × Output) := do
  match ← c.wait milliseconds with
  | some (source, bytes) => pure (node.onDatagram source bytes (← IO.monoMsNow))
  | none => pure (node.onTimeout (← IO.monoMsNow))

/-- Runs a node until a signal comes, and returns its log.  While there are commands left, one of
them is given between any two looks at the socket. -/
partial def Connection.serve {π : Type} [Protocol π] (c : Connection) (node : Node π)
    (log : OutputLog) (commands : List (Protocol.Command π)) : Async OutputLog := do
  if ← c.isInterrupted then return log
  match commands with
  | command :: commands =>
    let (node, given) ← c.command node command
    let log ← c.emit log given
    let (node, output) ← c.next node 0
    c.serve node (← c.emit log output) commands
  | [] =>
    let now ← IO.monoMsNow
    let (node, output) ← c.next node (min patience (node.nextDeadline?.elim patience (· - now)))
    c.serve node (← c.emit log output) []

/-! ## The process -/

/-- Whether the user wants to be told about the run. -/
def isTold (o : Options) : Bool := (o.logFilter.level "lattice_bcast").tells .info

/-- Runs the node that options describe. -/
def run (o : Options) : IO (Except Failure Unit) := do
  let files ← readFiles ([o.hosts, o.config] ++ o.tuning.toList)
  match Settings.load files o with
  | .error failure => pure (.error failure)
  | .ok settings =>
    let address := settings.self.address
    let socket ← UDP.Socket.mk
    match ← attempt (socket.bind (toSocketAddress address)) with
    | .error e => pure (.error ((Failure.ofFileError e).within s!"binding {address.text}"))
    | .ok () =>
      match ← attempt (IO.FS.writeFile o.output "") with
      | .error e => pure (.error ((Failure.ofFileError e).within s!"creating {o.output}"))
      | .ok () =>
        let connection : Connection := {
          socket
          isInterrupted := ← watchSignals
          tell := fun text => if isTold o then IO.println text else pure () }
        let assignment := settings.assignment
        let _ := assignment.protocol
        let node := assignment.node.start (← IO.monoMsNow)
        connection.tell "running until signalled"
        let log ← (connection.serve node .empty assignment.commands).block
        match ← attempt (IO.FS.writeFile o.output log.flush.text) with
        | .error e => pure (.error ((Failure.ofFileError e).within "node failed"))
        | .ok () =>
          connection.tell s!"output written to {o.output}"
          pure (.ok ())

/-- Reads the words of a command line and does what they ask for. -/
def program (words : List String) : IO UInt32 := do
  match Request.ofWords words with
  | .error e =>
    IO.eprintln s!"error: {e.message}"
    pure 2
  | .ok .help =>
    IO.print helpText
    pure 0
  | .ok .version =>
    IO.print versionText
    pure 0
  | .ok (.run options) =>
    IO.eprint options.logFilter.warnings
    match ← run options with
    | .error failure =>
      IO.eprint failure.report
      pure failure.exitCode
    | .ok () => pure 0

end Groupcast.Main

/-- The entry point. -/
def main (words : List String) : IO UInt32 := Groupcast.Main.program words
