import Groupcast.Proofs.Node.Member

/-!
# What a detector asks of its links

All that a failure detector does to its links is to hand them what arrives, to let them do what is
due, and to give them orders: a heartbeat for each sending timer that fires (`Detector.beatOrders`),
and an answer to each heartbeat that gets through (`Detector.answers`).  What the links become and
emit in a step of the detector is what they become and emit when they do these things
(`Detector.links_deliver`, `Detector.links_onTimeout`).
-/

namespace Groupcast

theorem Links.performAll_cons (g : Links) (now : Nat) (o : Order) (os : List Order) :
    g.performAll now (o :: os) =
      (((g.perform o now).1.performAll now os).1,
        (g.perform o now).2 ++ ((g.perform o now).1.performAll now os).2) := rfl

namespace Detector

variable {d : Detector}

/-- To send a heartbeat to a peer. -/
def heartbeatTo (d : Detector) (peer : HostId) : Order := .one peer (.ofHeartbeat d.self) nofun

/-- What is sent when timers fire. -/
def beatOrders (d : Detector) : List Beat → List Order
  | [] => []
  | .send peer :: bs => d.heartbeatTo peer :: d.beatOrders bs
  | .monitor _ :: bs => d.beatOrders bs

/-- What is sent in answer to a message that has passed the link. -/
def answers (d : Detector) (sender : HostId) (m : Message) : List Order :=
  match m.kind with
  | .heartbeat => [.one sender (m.heartbeatAck d.self) nofun]
  | .heartbeatAck | .ack | .data => []

/-- What is sent when timers fire are heartbeats. -/
theorem message_of_mem_beatOrders {bs : List Beat} {o : Order} (ho : o ∈ d.beatOrders bs) :
    o.message = .ofHeartbeat d.self := by
  induction bs with
  | nil => cases ho
  | cons b bs ih =>
    cases b with
    | send peer =>
      rcases List.mem_cons.mp ho with rfl | hrest
      · rfl
      · exact ih hrest
    | monitor peer => exact ih ho

/-- What is sent in answer is an answer to a heartbeat. -/
theorem message_of_mem_answers {sender : HostId} {m : Message} {o : Order}
    (ho : o ∈ d.answers sender m) : o.message = m.heartbeatAck d.self := by
  rw [answers] at ho
  split at ho
  · rw [List.mem_singleton.mp ho]
    rfl
  · cases ho
  · cases ho
  · cases ho

/-! ## Who the detector is -/

theorem self_check (peer : HostId) (now : Nat) : (d.check peer now).1.self = d.self := by
  simp only [check, restore]
  repeat' split
  all_goals rfl

theorem self_onBeat (b : Beat) (now : Nat) : (d.onBeat b now).state.self = d.self := by
  cases b with
  | send peer =>
    simp only [onBeat, sendHeartbeat]
    split <;> rfl
  | monitor peer => exact self_check peer now

theorem beatOrders_congr {d' : Detector} (h : d'.self = d.self) (bs : List Beat) :
    d'.beatOrders bs = d.beatOrders bs := by
  induction bs with
  | nil => rfl
  | cons b bs ih =>
    cases b with
    | send peer => rw [beatOrders, beatOrders, heartbeatTo, heartbeatTo, ih, h]
    | monitor peer => exact ih

/-! ## What the links do -/

/-- Sending a heartbeat is all that a timer ever asks of the links. -/
theorem links_onBeat (b : Beat) (now : Nat) :
    ((d.onBeat b now).state.links, (d.onBeat b now).sent) =
      d.links.performAll now (d.beatOrders [b]) := by
  cases b with
  | send peer =>
    rw [beatOrders, beatOrders, Links.performAll_singleton]
    simp only [onBeat, sendHeartbeat, heartbeatTo, Links.perform]
    cases d.links.send peer (.ofHeartbeat d.self) now <;> rfl
  | monitor peer =>
    show ((d.check peer now).1.links, []) = (d.links, [])
    rw [links_check]

theorem links_onBeats (bs : List Beat) (now : Nat) :
    ((d.onBeats now bs).state.links, (d.onBeats now bs).sent) =
      d.links.performAll now (d.beatOrders bs) := by
  induction bs generalizing d with
  | nil => rfl
  | cons b bs ih =>
    have hfirst := links_onBeat (d := d) b now
    have hrest := ih (d := (d.onBeat b now).state)
    rw [beatOrders_congr (self_onBeat b now)] at hrest
    have hlinks := congrArg Prod.fst hrest
    have hsent := congrArg Prod.snd hrest
    simp only at hlinks hsent
    cases b with
    | send peer =>
      rw [beatOrders, beatOrders, Links.performAll_singleton] at hfirst
      rw [beatOrders, Links.performAll_cons, ← hfirst, ← hlinks, ← hsent]
      rfl
    | monitor peer =>
      have hsame : (d.onBeat (.monitor peer) now).state.links = d.links :=
        congrArg Prod.fst hfirst
      rw [hsame] at hlinks hsent
      rw [beatOrders]
      exact Prod.ext hlinks hsent

theorem links_onTimeout (now : Nat) :
    ((d.onTimeout now).state.links, (d.onTimeout now).sent) =
      (((d.links.onTimeout now).state.performAll now (d.beatOrders (d.timers.due now))).1,
        (d.links.onTimeout now).sent ++
          ((d.links.onTimeout now).state.performAll now (d.beatOrders (d.timers.due now))).2) := by
  let d' : Detector :=
    { d with links := (d.links.onTimeout now).state, timers := d.timers.advance now }
  have hbeats := links_onBeats (d := d') (d.timers.due now) now
  have hself : d'.self = d.self := rfl
  rw [beatOrders_congr hself] at hbeats
  show _ = ((d'.links.performAll now _).1, _ ++ (d'.links.performAll now _).2)
  rw [← hbeats]
  rfl

theorem links_onHeartbeat (sender : HostId) (m : Message) (now : Nat) :
    ((d.onHeartbeat sender m now).state.links, (d.onHeartbeat sender m now).sent) =
      d.links.performAll now (d.answers sender m) := by
  cases hkind : m.kind with
  | heartbeat =>
    simp only [onHeartbeat, answers, hkind, Links.performAll_singleton, Links.perform]
    cases d.links.send sender (m.heartbeatAck d.self) now <;> rfl
  | heartbeatAck =>
    simp only [onHeartbeat, answers, hkind]
    cases m.ackedId <;> rfl
  | ack | data =>
    simp only [onHeartbeat, answers, hkind]
    rfl

theorem links_deliver (sender : HostId) (m : Message) (now : Nat) : ∃ os,
    (∀ o ∈ os, o.message = m.heartbeatAck d.self) ∧
      ((d.deliver sender m now).state.links, (d.deliver sender m now).sent) =
        (((d.links.deliver sender m).state.performAll now os).1,
          (d.links.deliver sender m).sent ++
            ((d.links.deliver sender m).state.performAll now os).2) := by
  let d' : Detector := { d with links := (d.links.deliver sender m).state }
  cases hresult : (d.links.deliver sender m).result with
  | none =>
    refine ⟨[], nofun, ?_⟩
    simp only [deliver, hresult]
    exact Prod.ext rfl (List.append_nil _).symm
  | some m' =>
    obtain ⟨rfl, -⟩ := Links.eq_of_deliver_result hresult
    refine ⟨d'.answers sender m', fun o ho => message_of_mem_answers ho, ?_⟩
    have hanswer := links_onHeartbeat (d := d') sender m' now
    simp only [deliver, hresult]
    show _ = ((d'.links.performAll now _).1, _ ++ (d'.links.performAll now _).2)
    rw [← hanswer]

end Detector

end Groupcast
