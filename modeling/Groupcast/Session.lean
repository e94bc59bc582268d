import Groupcast.Log
import Groupcast.Network

/-!
# Sessions

Nodes that run side by side in simulated time, each with a sink for its events.  A session goes on
by the millisecond: the datagrams of the last one are handed over, and then every node does what is
due.  Datagrams to an address that cannot be reached are lost.  Datagrams to a node that has not
been started wait for it.

A run that goes wrong because its sink does takes no further part, but does not disturb the others.
-/

namespace Groupcast

/-- Events go to whichever of two kinds of sinks there is. -/
instance {σ τ : Type} [Sink σ] [Sink τ] : Sink (σ ⊕ τ) where
  record s e := match s with
    | .inl s => .inl <$> Sink.record s e
    | .inr s => .inr <$> Sink.record s e
  recordIndexed s index e := match s with
    | .inl s => .inl <$> Sink.recordIndexed s index e
    | .inr s => .inr <$> Sink.recordIndexed s index e
  flush s := match s with
    | .inl s => .inl <$> Sink.flush s
    | .inr s => .inr <$> Sink.flush s

/-- What a run of a node has come to. -/
structure Run (σ : Type) where
  sink : σ
  /-- The events recorded so far, in order. -/
  recorded : List Event
  /-- How many of the events have been waited for. -/
  awaited : Nat
  /-- Why the run has ended early, if it has. -/
  failure : Option SinkError

namespace Run

variable {σ : Type} [Sink σ]

/-- A run without events. -/
def ofSink (sink : σ) : Run σ := ⟨sink, [], 0, none⟩

/-- Records events, up to the first one that the sink refuses. -/
def record (r : Run σ) : List Event → Run σ
  | [] => r
  | e :: events =>
    match Sink.recordEvent r.sink e with
    | .ok sink => record { r with sink, recorded := r.recorded ++ [e] } events
    | .error cause => { r with failure := some cause }

/-- Completes what has been recorded. -/
def flush (r : Run σ) : Run σ :=
  match Sink.flush r.sink with
  | .ok sink => { r with sink }
  | .error cause => { r with failure := some cause }

end Run

/-- Nodes that run side by side. -/
structure Session (π σ : Type) where
  /-- The nodes that have been started and the datagrams on their way. -/
  network : Network π
  /-- The nodes that have not been started. -/
  waiting : Std.ExtTreeMap HostId (Node π)
  runs : Std.ExtTreeMap HostId (Run σ)
  /-- Which addresses datagrams can reach. -/
  reaches : Address → Bool

/-- One part of a session. -/
structure Stage (π : Type) [Protocol π] where
  /-- The nodes to start. -/
  starting : List HostId
  /-- The commands to give, and the nodes to give them to. -/
  commands : List (HostId × Protocol.Command π)
  /-- How many further events of which nodes to wait for. -/
  expected : List (HostId × Nat)
  /-- For how many milliseconds to go on after that. -/
  linger : Nat

namespace Session

variable {π σ : Type} [Protocol π] [Sink σ]

/-- For how many milliseconds a session waits for an event before it gives up. -/
def patience : Nat := 5000

/-- A session of members of a group, each with a sink, in which no node has been started. -/
def ofNodes (hosts : Hosts) (members : List (Node π × σ)) (reaches : Address → Bool) :
    Session π σ where
  network := { hosts, now := 0, nodes := ∅, flight := [] }
  waiting := .ofList (members.map fun (node, _) => (node.host.id, node))
  runs := .ofList (members.map fun (node, sink) => (node.host.id, Run.ofSink sink))
  reaches

/-- Notes what happened in the network: events are recorded, datagrams that cannot arrive are
lost, and nodes whose run has gone wrong are taken out. -/
def note (s : Session π σ) (happened : Network π × Report) : Session π σ :=
  let runs := happened.2.outputs.foldl
    (fun runs (id, output) => runs.modify id (·.record output.events)) s.runs
  { s with
    runs
    network := { happened.1 with
      nodes := happened.1.nodes.filter fun id _ => (runs[id]?.bind Run.failure).isNone
      flight := happened.1.flight.filter fun f => s.reaches f.datagram.target } }

/-- Starts a node, unless it has been started. -/
def start (s : Session π σ) (id : HostId) : Session π σ :=
  match s.waiting[id]? with
  | none => s
  | some node =>
    { s with
      network := { s.network with nodes := s.network.nodes.insert id (node.start s.network.now) }
      waiting := s.waiting.erase id }

/-- Whether a node takes commands. -/
def accepts (s : Session π σ) (id : HostId) : Bool := s.network.nodes.contains id

/-- Gives a command to a node.  A command that cannot be met is dropped. -/
def command (s : Session π σ) (id : HostId) (c : Protocol.Command π) : Session π σ :=
  s.note (s.network.act (.command id c))

/-- Whether a datagram is for a node that has not been started. -/
def isEarly (s : Session π σ) (f : Flight) : Bool :=
  (s.network.hosts.at? f.datagram.target).any fun host => s.waiting.contains host.id

/-- Hands over the datagrams on their way. -/
def exchange (s : Session π σ) : Session π σ :=
  let (early, ready) := s.network.flight.partition s.isEarly
  let (network, outputs) := { s.network with flight := early }.handOverAll ready
  s.note (network.settle outputs none)

/-- Goes on for a millisecond. -/
def step (s : Session π σ) : Session π σ :=
  let s := s.exchange
  s.note (s.network.act (.tick 1))

/-- Goes on for a number of milliseconds. -/
def elapse (s : Session π σ) : Nat → Session π σ
  | 0 => s
  | n + 1 => s.step.elapse n

/-- Whether a node has recorded an event that has not been waited for. -/
def hasNews (s : Session π σ) (id : HostId) : Bool :=
  s.runs[id]?.any fun r => r.awaited < r.recorded.length

/-- Waits at most a number of milliseconds for one further event of a node. -/
def awaitOne (s : Session π σ) (id : HostId) : Nat → Option (Session π σ)
  | 0 => none
  | n + 1 =>
    if s.hasNews id then
      some { s with runs := s.runs.modify id fun r => { r with awaited := r.awaited + 1 } }
    else s.step.awaitOne id n

/-- Waits for a number of further events of a node, for each of them as long as the patience
lasts. -/
def await (s : Session π σ) (id : HostId) : Nat → Option (Session π σ)
  | 0 => some s
  | n + 1 => (s.awaitOne id (patience + 1)).bind fun s => s.await id n

/-- Stops all nodes and completes their runs. -/
def stop (s : Session π σ) : Session π σ where
  network := { s.network with nodes := ∅, flight := [] }
  waiting := ∅
  runs := s.runs.map fun id r => if s.network.nodes.contains id then r.flush else r
  reaches := s.reaches

/-- Goes through a stage.  There is no outcome if an expected event does not happen. -/
def perform (s : Session π σ) (stage : Stage π) : Option (Session π σ) := do
  let s := stage.starting.foldl start s
  let s := stage.commands.foldl (fun s (id, c) => s.command id c) s
  let s ← stage.expected.foldlM (fun s (id, n) => s.await id n) s
  pure (s.elapse stage.linger)

/-- Goes through stages and then stops all nodes. -/
def play (s : Session π σ) (stages : List (Stage π)) : Option (Session π σ) :=
  (stages.foldlM perform s).map stop

end Session

end Groupcast
