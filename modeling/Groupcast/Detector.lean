import Groupcast.Link.Group

/-!
# Failure detector

For each peer there are two timers of the same period.  One sends a heartbeat; the other checks
that a heartbeat was answered since it looked last.  A silent peer is suspected.  A suspected peer
that answers again is restored, and its period is doubled, so that the same delay does not mislead
the detector twice.

The detector has links of its own to all peers, which carry nothing but heartbeats and answers.
-/

namespace Groupcast

/-- What a timer of the detector is for. -/
inductive Beat where
  /-- To send a heartbeat to a peer. -/
  | send (peer : HostId)
  /-- To check that a peer has answered. -/
  | monitor (peer : HostId)
  deriving Repr, DecidableEq

namespace Beat

/-- The place of a timer among those that are due at once: sending comes before checking. -/
def rank : Beat → Nat
  | send _ => 0
  | monitor _ => 1

/-- The peer of a timer. -/
def peer : Beat → HostId
  | send peer | monitor peer => peer

/-- All sending comes before all checking, and each goes in the order of the peers. -/
instance : Ord Beat := ⟨compareLex (compareOn rank) (compareOn peer)⟩

instance : Std.TransOrd Beat :=
  inferInstanceAs (Std.TransCmp (compareLex (compareOn rank) (compareOn peer)))

instance : Std.LawfulEqOrd Beat where
  compare_self {a} := by
    change (compare a.rank a.rank).then (compare a.peer a.peer) = .eq
    simp
  eq_of_compare {a b} h := by
    change (compare a.rank b.rank).then (compare a.peer b.peer) = .eq at h
    rw [Ordering.then_eq_eq, Std.compare_eq_iff_eq, Std.compare_eq_iff_eq] at h
    cases a <;> cases b <;> simp_all [rank, peer]

end Beat

/-- A change in what the detector believes of a peer. -/
inductive Suspicion where
  /-- The peer is silent. -/
  | suspect (peer : HostId)
  /-- The peer has answered again, and is watched with a new timeout. -/
  | restore (peer : HostId) (timeout : Nat)
  deriving Repr, DecidableEq

/-- What the detector remembers of a peer's heartbeats. -/
structure Watch where
  /-- The ids of the heartbeats that may still be answered. -/
  outstanding : Std.ExtTreeSet UInt32
  /-- The ids of those that have been answered, but not been checked. -/
  answered : Std.ExtTreeSet UInt32
  deriving DecidableEq

namespace Watch

/-- Nothing has been sent yet. -/
def empty : Watch := ⟨∅, ∅⟩

/-- Forgets heartbeats. -/
def forget (w : Watch) (ids : List UInt32) : Watch where
  outstanding := ids.foldl Std.ExtTreeSet.erase w.outstanding
  answered := ids.foldl Std.ExtTreeSet.erase w.answered

/-- Adds a heartbeat that has been sent, and forgets the oldest ones beyond `window`. -/
def sent (w : Watch) (id : UInt32) (window : Nat) : Watch :=
  let outstanding := w.outstanding.insert id
  { w with outstanding }.forget (outstanding.toList.take (outstanding.size - window))

/-- Notes an answer, which counts only if the heartbeat is outstanding. -/
def answer (w : Watch) (id : UInt32) : Watch :=
  if w.outstanding.contains id then { w with answered := w.answered.insert id } else w

/-- The heartbeats that have been answered since the last check. -/
def fresh (w : Watch) : List UInt32 := w.outstanding.toList.filter w.answered.contains

end Watch

/-- The failure detector of one member. -/
structure Detector where
  self : HostId
  links : Links
  /-- How many unanswered heartbeats are remembered of each peer. -/
  window : Nat
  /-- The period of each peer. -/
  timeouts : Std.ExtTreeMap HostId Nat
  watches : Std.ExtTreeMap HostId Watch
  suspected : Std.ExtTreeSet HostId
  timers : Timers Beat

namespace Detector

/-- The detector of the member with a number.  It watches all other members. -/
def ofHosts (self : HostId) (hosts : Hosts) (tuning : Tuning) : Detector :=
  let peers := hosts.toList.filter fun h => h.id ≠ self
  { self := self
    links := .toPeers self peers tuning
    window := max tuning.heartbeatWindow 1
    timeouts := .ofList (peers.map fun h => (h.id, tuning.heartbeat))
    watches := .ofList (peers.map fun h => (h.id, Watch.empty))
    suspected := ∅
    timers := .empty }

/-- Arms the timers of all peers: heartbeats are due at once, the first check a period later. -/
def start (d : Detector) (now : Nat) : Detector :=
  { d with
    timers := d.timeouts.toList.foldl
      (fun timers (peer, timeout) =>
        (timers.schedule (.send peer) now timeout).schedule (.monitor peer) (now + timeout) timeout)
      d.timers }

/-- Gives up on everything. -/
def stop (d : Detector) : Detector := { d with timers := .empty, links := d.links.stop }

/-- Whether a peer is suspected. -/
def isSuspected (d : Detector) (peer : HostId) : Bool := d.suspected.contains peer

/-- The period of a peer. -/
def timeout? (d : Detector) (peer : HostId) : Option Nat := d.timeouts[peer]?

/-- What is remembered of a peer is changed. -/
def modifyWatch (d : Detector) (peer : HostId) (f : Watch → Watch) : Detector :=
  { d with watches := d.watches.modify peer f }

/-- Sends a heartbeat to a peer. -/
def sendHeartbeat (d : Detector) (peer : HostId) (now : Nat) : Step Detector Unit :=
  match d.links.send peer (.ofHeartbeat d.self) now with
  | .error _ => ⟨d, [], ()⟩
  | .ok step =>
    ⟨{ d with links := step.state }.modifyWatch peer (·.sent step.result d.window), step.sent, ()⟩

/-- Restores a suspected peer with twice its timeout. -/
def restore (d : Detector) (peer : HostId) (now : Nat) : Detector × Option Suspicion :=
  let d := { d with suspected := d.suspected.erase peer }
  match d.timeouts[peer]? with
  | none => (d, none)
  | some timeout =>
    let timeout := 2 * timeout
    ({ d with
        timeouts := d.timeouts.insert peer timeout
        timers := ((d.timers.reschedule (.send peer) timeout now).1.reschedule (.monitor peer)
          timeout now).1 },
      some (.restore peer timeout))

/-- Checks whether a peer has answered since the last check. -/
def check (d : Detector) (peer : HostId) (now : Nat) : Detector × Option Suspicion :=
  match d.watches[peer]? with
  | none => (d, none)
  | some w =>
    if w.fresh.isEmpty then
      if d.suspected.contains peer then (d, none)
      else ({ d with suspected := d.suspected.insert peer }, some (.suspect peer))
    else
      let d := d.modifyWatch peer (·.forget w.fresh)
      if d.suspected.contains peer then d.restore peer now else (d, none)

/-- Does what a timer is for. -/
def onBeat (d : Detector) (b : Beat) (now : Nat) : Step Detector (List Suspicion) :=
  match b with
  | .send peer =>
    let step := d.sendHeartbeat peer now
    ⟨step.state, step.sent, []⟩
  | .monitor peer =>
    let (d, change) := d.check peer now
    ⟨d, [], change.toList⟩

/-- Does what several timers are for, in order. -/
def onBeats (d : Detector) (now : Nat) : List Beat → Step Detector (List Suspicion)
  | [] => ⟨d, [], []⟩
  | b :: bs =>
    let first := d.onBeat b now
    let rest := first.state.onBeats now bs
    ⟨rest.state, first.sent ++ rest.sent, first.result ++ rest.result⟩

/-- Does what is due, and returns the changes in what is believed. -/
def onTimeout (d : Detector) (now : Nat) : Step Detector (List Suspicion) :=
  let step := d.links.onTimeout now
  let beats := d.timers.due now
  let beating :=
    { d with links := step.state, timers := d.timers.advance now }.onBeats now beats
  ⟨beating.state, step.sent ++ beating.sent, beating.result⟩

/-- Takes in heartbeat traffic that has passed the link.  A heartbeat is answered at once. -/
def onHeartbeat (d : Detector) (sender : HostId) (m : Message) (now : Nat) : Step Detector Unit :=
  match m.kind with
  | .heartbeat =>
    match d.links.send sender (m.heartbeatAck d.self) now with
    | .ok step => ⟨{ d with links := step.state }, step.sent, ()⟩
    | .error _ => ⟨d, [], ()⟩
  | .heartbeatAck =>
    match m.ackedId with
    | .ok id => ⟨d.modifyWatch sender (·.answer id), [], ()⟩
    | .error _ => ⟨d, [], ()⟩
  | .ack | .data => ⟨d, [], ()⟩

/-- Takes in a message of a member. -/
def deliver (d : Detector) (sender : HostId) (m : Message) (now : Nat) : Step Detector Unit :=
  let step := d.links.deliver sender m
  let d := { d with links := step.state }
  match step.result with
  | none => ⟨d, step.sent, ()⟩
  | some m =>
    let answered := d.onHeartbeat sender m now
    ⟨answered.state, step.sent ++ answered.sent, ()⟩

/-- When something is due next. -/
def nextDeadline? (d : Detector) : Option Nat :=
  earlier? d.links.nextDeadline? d.timers.nextDeadline?

end Detector

end Groupcast
