import Groupcast.Proofs.Detector.Orders
import Groupcast.Proofs.Detector.Run
import Groupcast.Proofs.Link.Driven

/-!
# What a detector emits

A detector emits what its links emit, and so what it emits in a run can be told from what the links
go through (`Detector.driven_after_of`).  It uses them for control traffic in its own name, if that
is all that it is given to take in (`Detector.driven_after`).
-/

namespace Groupcast

open PerfectLink (Move)

theorem Links.driven_performAll {g : Links} {allowed : HostId → Move → Prop} {now : Nat}
    {os : List Order} (hrest : ∀ id, allowed id .rest)
    (hos : ∀ o ∈ os, ∀ id, allowed id (.send o.message now)) :
    Driven allowed g (g.performAll now os) := by
  refine driven_run fun c hc id => ?_
  obtain ⟨o, ho, rfl⟩ := List.mem_map.mp hc
  rw [moveOf]
  split
  · exact hos o ho id
  · exact hrest id

namespace Detector

variable {d : Detector} {owner : HostId} {now : Nat}

/-- All that a detector emits in a run. -/
def emitted (d : Detector) : List (Call × Nat) → List Datagram
  | [] => []
  | (c, now) :: run => (d.effect c now).sent ++ (d.effect c now).state.emitted run

theorem emitted_append (run rest : List (Call × Nat)) :
    d.emitted (run ++ rest) = d.emitted run ++ (d.after run).emitted rest := by
  induction run generalizing d with
  | nil => rfl
  | cons c run ih =>
    rw [List.cons_append, emitted, ih, ← List.append_assoc]
    rfl

/-- What is taken in is control traffic in the name of the host that it comes from. -/
def Call.Genuine (c : Call) : Prop :=
  ∀ sender m, c = .deliver sender m → m.kind.isControl = true ∧ m.sender = sender

theorem self_onBeats (bs : List Beat) (now : Nat) : (d.onBeats now bs).state.self = d.self := by
  induction bs generalizing d with
  | nil => rfl
  | cons b bs ih => exact ih.trans (self_onBeat b now)

theorem self_deliver (sender : HostId) (m : Message) (now : Nat) :
    (d.deliver sender m now).state.self = d.self := by
  simp only [deliver, onHeartbeat]
  repeat' split
  all_goals rfl

theorem self_effect (c : Call) (now : Nat) : (d.effect c now).state.self = d.self := by
  cases c with
  | start | stop => rfl
  | timeout => exact self_onBeats (d.timers.due now) now
  | deliver sender m => exact self_deliver sender m now

/-- What a detector makes its links do of its own accord is allowed: to let time pass, to stop, and
to send heartbeats and answers in the name of its owner. -/
structure Allows (allowed : HostId → Move → Prop) (owner : HostId) : Prop where
  rest : ∀ id, allowed id .rest
  timeout : ∀ id now, allowed id (.timeout now)
  stop : ∀ id, allowed id .stop
  heartbeat : ∀ id now, allowed id (.send (.ofHeartbeat owner) now)
  answer : ∀ id (m : Message) now, allowed id (.send (m.heartbeatAck owner) now)

variable {allowed : HostId → Move → Prop} {run : List (Call × Nat)}

/-- Apart from what a detector makes its links do of its own accord, it hands them what comes in. -/
theorem driven_effect_of (h : Allows allowed owner) (hself : d.self = owner) (c : Call) (now : Nat)
    (hdeliver : ∀ sender m, c = .deliver sender m → allowed sender (.deliver m)) :
    Links.Driven allowed d.links ((d.effect c now).state.links, (d.effect c now).sent) := by
  subst hself
  cases c with
  | start => exact .nil d.links
  | stop => exact Links.driven_stop h.stop
  | timeout =>
    show Links.Driven _ d.links ((d.onTimeout now).state.links, (d.onTimeout now).sent)
    rw [links_onTimeout]
    refine .trans (Links.driven_onTimeout fun id => h.timeout id now)
      (Links.driven_performAll h.rest fun o ho id => ?_)
    rw [message_of_mem_beatOrders ho]
    exact h.heartbeat id now
  | deliver sender m =>
    show Links.Driven _ d.links
      ((d.deliver sender m now).state.links, (d.deliver sender m now).sent)
    obtain ⟨os, hos, heq⟩ := links_deliver (d := d) sender m now
    rw [heq]
    refine .trans (Links.driven_deliver h.rest (hdeliver sender m rfl))
      (Links.driven_performAll h.rest fun o ho id => ?_)
    rw [hos o ho]
    exact h.answer id m now

theorem driven_after_of (h : Allows allowed owner) (hself : d.self = owner)
    (hrun : ∀ c ∈ run, ∀ sender m, c.1 = .deliver sender m → allowed sender (.deliver m)) :
    Links.Driven allowed d.links ((d.after run).links, d.emitted run) := by
  induction run generalizing d with
  | nil => exact .nil d.links
  | cons c run ih =>
    obtain ⟨hc, hrest⟩ := List.forall_mem_cons.mp hrun
    have hself' : (d.effect c.1 c.2).state.self = owner := (self_effect c.1 c.2).trans hself
    exact .trans (driven_effect_of h hself c.1 c.2 hc) (ih hself' hrest)

/-- In every run, what a detector emits is what its links go through. -/
theorem driven_emitted (d : Detector) (run : List (Call × Nat)) :
    Links.Driven (fun _ _ => True) d.links ((d.after run).links, d.emitted run) :=
  driven_after_of ⟨fun _ => trivial, fun _ _ => trivial, fun _ => trivial, fun _ _ => trivial,
    fun _ _ _ => trivial⟩ rfl fun _ _ _ _ _ => trivial

theorem allows_inName (owner : HostId) :
    Allows (fun id mv => mv.InName true owner id) owner :=
  ⟨fun _ => trivial, fun _ _ => trivial, fun _ => trivial, fun _ _ => ⟨rfl, rfl⟩,
    fun _ _ _ => ⟨rfl, rfl⟩⟩

/-- A detector uses its links for control traffic in its own name. -/
theorem driven_effect (hself : d.self = owner) {c : Call} (hc : c.Genuine) (now : Nat) :
    Links.Driven (fun id mv => mv.InName true owner id) d.links
      ((d.effect c now).state.links, (d.effect c now).sent) :=
  driven_effect_of (allows_inName owner) hself c now hc

theorem driven_after (hself : d.self = owner) (hrun : ∀ c ∈ run, c.1.Genuine) :
    Links.Driven (fun id mv => mv.InName true owner id) d.links
      ((d.after run).links, d.emitted run) :=
  driven_after_of (allows_inName owner) hself hrun

end Detector

end Groupcast
