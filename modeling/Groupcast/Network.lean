import Groupcast.Node

/-!
# Simulated networks

All nodes of a group in one place, with the datagrams between them in flight and a clock.  Nothing
happens by itself: an action passes a command to a node, moves the clock, or says what becomes of
datagrams in flight, which can be handed over in any order, more than once, or not at all.
-/

namespace Groupcast

/-- A datagram in flight. -/
structure Flight where
  sender : HostId
  datagram : Datagram
  deriving Repr, DecidableEq

/-- The nodes of a group and the datagrams between them. -/
structure Network (π : Type) where
  hosts : Hosts
  now : Nat
  nodes : Std.ExtTreeMap HostId (Node π)
  flight : List Flight

/-- Which datagrams in flight are handed over, and in which order. -/
structure Delivery where
  /-- Whether the last one comes first. -/
  reversed : Bool
  /-- Every which datagram is lost, and the first one, if any is lost. -/
  lost : Option (Nat × Nat)
  /-- The senders and receivers between which every datagram is lost. -/
  blocked : List (HostId × HostId)
  deriving Repr, DecidableEq

/-- Something that happens to a network. -/
inductive Action (π : Type) [Protocol π] where
  /-- A node is given a command. -/
  | command (node : HostId) (c : Protocol.Command π)
  /-- Time passes, and then every node does what is due. -/
  | tick (milliseconds : Nat)
  /-- A datagram in flight is handed over; it stays in flight if `keep` is set. -/
  | deliver (index : Nat) (keep : Bool)
  /-- A datagram in flight is lost. -/
  | drop (index : Nat)
  /-- All datagrams in flight are handed over or lost. -/
  | flush (delivery : Delivery)
  /-- A node is stopped. -/
  | stop (node : HostId)

/-- What happens in a network at once. -/
structure Report where
  /-- The new datagrams in flight, by the number of their sender. -/
  sent : List Flight
  /-- What each node has given out. -/
  outputs : List (HostId × Output)
  /-- Why a command was refused. -/
  refused : Option CommandError

namespace Network

variable {π : Type} [Protocol π]

/-- The network of a group at time zero, where every node has been started. -/
def ofHosts (hosts : Hosts) (make : HostId → Node π) : Network π where
  hosts := hosts
  now := 0
  nodes := .ofList (hosts.ids.map fun id => (id, (make id).start 0))
  flight := []

/-- Replaces a node, and notes what it gives out. -/
def put (n : Network π) (outputs : List (HostId × Output)) (id : HostId) (p : Node π × Output) :
    Network π × List (HostId × Output) :=
  ({ n with nodes := n.nodes.insert id p.1 }, outputs ++ [(id, p.2)])

/-- Hands a datagram over to the node at its address, with the address of its sender. -/
def handOver (n : Network π) (outputs : List (HostId × Output)) (f : Flight) :
    Network π × List (HostId × Output) :=
  match n.hosts.get? f.sender, (n.hosts.at? f.datagram.target).bind fun h => n.nodes[h.id]? with
  | some source, some node =>
    n.put outputs node.host.id (node.onDatagram source.address f.datagram.bytes n.now)
  | _, _ => (n, outputs)

/-- Hands datagrams over in order. -/
def handOverAll (n : Network π) (flights : List Flight) : Network π × List (HostId × Output) :=
  flights.foldl (fun (n, outputs) f => n.handOver outputs f) (n, [])

/-- Every node does what is due. -/
def tickAll (n : Network π) : Network π × List (HostId × Output) :=
  n.nodes.toList.foldl (fun (n, outputs) (id, node) => n.put outputs id (node.onTimeout n.now))
    (n, [])

/-- The datagrams that a delivery hands over. -/
def chosen (n : Network π) (d : Delivery) : List Flight :=
  let flights := if d.reversed then n.flight.reverse else n.flight
  (flights.zipIdx.filter fun (f, position) =>
    !(d.lost.any fun (every, first) => position % every = first) &&
      !((n.hosts.at? f.datagram.target).any fun receiver =>
        d.blocked.contains (f.sender, receiver.id)))
    |>.map Prod.fst

/-- The output of one node. -/
def outputOf (outputs : List (HostId × Output)) (id : HostId) : Output :=
  (outputs.filter fun (id', _) => id' = id).foldl (fun all (_, o) => all ++ o) .empty

/-- Puts what the nodes have given out in flight, and reports it. -/
def settle (n : Network π) (outputs : List (HostId × Output)) (refused : Option CommandError) :
    Network π × Report :=
  let outputs := n.nodes.keys.map fun id => (id, outputOf outputs id)
  let sent := outputs.flatMap fun (id, o) => o.sent.map (⟨id, ·⟩)
  ({ n with flight := n.flight ++ sent }, { sent, outputs, refused })

/-- Lets an action happen. -/
def act (n : Network π) (a : Action π) : Network π × Report :=
  match a with
  | .command id c =>
    match n.nodes[id]? with
    | none => n.settle [] none
    | some node =>
      match node.onCommand c n.now with
      | .error e => n.settle [] (some e)
      | .ok p =>
        let (n, outputs) := n.put [] id p
        n.settle outputs none
  | .tick milliseconds =>
    let (n, outputs) := { n with now := n.now + milliseconds }.tickAll
    n.settle outputs none
  | .deliver index keep =>
    let i := index % n.flight.length
    let flight := if keep then n.flight else n.flight.eraseIdx i
    let (n, outputs) := { n with flight }.handOverAll n.flight[i]?.toList
    n.settle outputs none
  | .drop index => { n with flight := n.flight.eraseIdx (index % n.flight.length) }.settle [] none
  | .flush delivery =>
    let (n, outputs) := { n with flight := [] }.handOverAll (n.chosen delivery)
    n.settle outputs none
  | .stop id => { n with nodes := n.nodes.modify id Node.stop }.settle [] none

/-- When the first of the nodes has something to do. -/
def nextDeadline? (n : Network π) : Option Nat :=
  (n.nodes.values.filterMap Node.nextDeadline?).min?

end Network

end Groupcast
