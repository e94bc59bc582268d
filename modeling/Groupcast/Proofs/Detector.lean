import Groupcast.Detector
import Groupcast.Proofs.Link.Group

/-!
# The failure detector keeps to itself

A failure detector has links of its own, but they share the wire with the links of the protocol.
They do not get in each other's way: a detector sends nothing but heartbeats and answers to them
(`IsControl`), since no message ever waits on its links (`Links.Quiet`).
-/

namespace Groupcast

/-- All that is sent is control traffic. -/
def IsControl (sent : List Datagram) : Prop :=
  ∀ d ∈ sent, ∃ m : Message, m.kind.isControl = true ∧ d.bytes = m.encode

theorem isControl_nil : IsControl [] := fun _ hd => absurd hd List.not_mem_nil

theorem IsControl.append {ds es : List Datagram} (hds : IsControl ds) (hes : IsControl es) :
    IsControl (ds ++ es) := by
  intro d hd
  rcases List.mem_append.mp hd with h | h
  · exact hds d h
  · exact hes d h

namespace PerfectLink

/-- A move that has to do with control traffic alone. -/
def Move.IsControl : Move → Prop
  | .send m _ | .deliver m => m.kind.isControl = true
  | .rest | .timeout _ | .stop => True

/-- Control traffic never waits. -/
theorem sent_move_of_isControl {l : PerfectLink} {mv : Move} (hquiet : l.link.sent = ∅)
    (hmv : mv.IsControl) :
    (l.move mv).state.link.sent = ∅ ∧ Groupcast.IsControl (l.move mv).sent := by
  cases mv with
  | send m now =>
    have hdata : (l.link.stamp m).kind ≠ .data := by
      intro hkind
      replace hmv : (l.link.stamp m).kind.isControl = true := hmv
      rw [hkind] at hmv
      cases hmv
    refine ⟨?_, fun d hd => ?_⟩
    · simp only [move, send, StubbornLink.send, if_neg hdata]
      exact hquiet
    · rw [List.mem_singleton.mp hd]
      exact ⟨l.link.stamp m, hmv, rfl⟩
  | deliver m =>
    rw [move, deliver_of_isControl hmv]
    exact ⟨hquiet, isControl_nil⟩
  | timeout now =>
    refine ⟨hquiet, fun d hd => ?_⟩
    obtain ⟨id, m, hget, -⟩ := StubbornLink.mem_sent_onTimeout hd
    rw [hquiet] at hget
    simp at hget
  | stop => exact ⟨rfl, isControl_nil⟩
  | rest => exact ⟨hquiet, isControl_nil⟩

end PerfectLink

namespace Links

/-- No message waits for an acknowledgement. -/
def Quiet (g : Links) : Prop :=
  ∀ (id : HostId) (l : PerfectLink), g.links[id]? = some l → l.link.sent = ∅

variable {g : Links}

theorem Quiet.moved (h : g.Quiet) {move : HostId → PerfectLink.Move}
    {r : Links × List Datagram} (hmoved : g.Moved move r) (hmove : ∀ id, (move id).IsControl) :
    r.1.Quiet ∧ IsControl r.2 := by
  constructor
  · intro id l hl
    rw [hmoved.getElem?_links] at hl
    obtain ⟨l₀, hl₀, rfl⟩ := Option.map_eq_some_iff.mp hl
    exact (PerfectLink.sent_move_of_isControl (h id l₀ hl₀) (hmove id)).1
  · intro d hd
    obtain ⟨id, l, hl, hd⟩ := (hmoved.mem_sent d).mp hd
    exact (PerfectLink.sent_move_of_isControl (h id l hl) (hmove id)).2 d hd

theorem Quiet.send (h : g.Quiet) {receiver : HostId} {m : Message} {now : Nat}
    {step : Step Links UInt32} (hm : m.kind.isControl = true)
    (hstep : g.send receiver m now = .ok step) : step.state.Quiet ∧ IsControl step.sent := by
  have hack : m.kind ≠ .ack := by
    intro hkind
    rw [hkind] at hm
    cases hm
  have hmoved := moved_perform (g := g) (.one receiver m hack) now
  simp only [perform, hstep] at hmoved
  refine h.moved hmoved fun id => ?_
  split
  · exact hm
  · trivial

theorem Quiet.deliver (h : g.Quiet) (sender : HostId) {m : Message}
    (hm : m.kind.isControl = true) :
    (g.deliver sender m).state.Quiet ∧ IsControl (g.deliver sender m).sent := by
  refine h.moved (moved_deliver sender m) fun id => ?_
  split
  · exact hm
  · trivial

theorem Quiet.onTimeout (h : g.Quiet) (now : Nat) :
    (g.onTimeout now).state.Quiet ∧ IsControl (g.onTimeout now).sent :=
  h.moved (moved_effect (.input .timeout) now) fun _ => trivial

theorem Quiet.stop (h : g.Quiet) : g.stop.Quiet :=
  (h.moved (moved_effect (.input .stop) 0) fun _ => trivial).1

end Links

namespace Detector

variable {d : Detector}

/-- A detector watches in silence at first. -/
theorem quiet_ofHosts (self : HostId) (hosts : Hosts) (tuning : Tuning) :
    (ofHosts self hosts tuning).links.Quiet := Links.forall_link_toPeers fun _ => rfl

theorem quiet_onHeartbeat (h : d.links.Quiet) (sender : HostId) (m : Message) (now : Nat) :
    (d.onHeartbeat sender m now).state.links.Quiet ∧
      IsControl (d.onHeartbeat sender m now).sent := by
  rw [onHeartbeat]
  split
  · split
    · rename_i step hstep
      exact h.send rfl hstep
    · exact ⟨h, isControl_nil⟩
  · split <;> exact ⟨h, isControl_nil⟩
  · exact ⟨h, isControl_nil⟩
  · exact ⟨h, isControl_nil⟩

/-- Taking in control traffic, a detector sends control traffic. -/
theorem quiet_deliver (h : d.links.Quiet) (sender : HostId) {m : Message}
    (hm : m.kind.isControl = true) (now : Nat) :
    (d.deliver sender m now).state.links.Quiet ∧ IsControl (d.deliver sender m now).sent := by
  obtain ⟨hquiet, hsent⟩ := h.deliver sender hm
  rw [deliver]
  split
  · exact ⟨hquiet, hsent⟩
  · rename_i m' _
    let d' : Detector := { d with links := (d.links.deliver sender m).state }
    have hd' : d'.links.Quiet := hquiet
    obtain ⟨hquiet', hsent'⟩ := quiet_onHeartbeat hd' sender m' now
    exact ⟨hquiet', hsent.append hsent'⟩

theorem links_check (peer : HostId) (now : Nat) : (d.check peer now).1.links = d.links := by
  simp only [check, restore]
  repeat' split
  all_goals rfl

theorem quiet_onBeat (h : d.links.Quiet) (b : Beat) (now : Nat) :
    (d.onBeat b now).state.links.Quiet ∧ IsControl (d.onBeat b now).sent := by
  cases b with
  | send peer =>
    simp only [onBeat, sendHeartbeat]
    split
    · exact ⟨h, isControl_nil⟩
    · rename_i step hstep
      exact h.send rfl hstep
  | monitor peer =>
    refine ⟨?_, isControl_nil⟩
    show (d.check peer now).1.links.Quiet
    rw [links_check]
    exact h

theorem quiet_onBeats (bs : List Beat) (h : d.links.Quiet) (now : Nat) :
    (d.onBeats now bs).state.links.Quiet ∧ IsControl (d.onBeats now bs).sent := by
  induction bs generalizing d with
  | nil => exact ⟨h, isControl_nil⟩
  | cons b bs ih =>
    obtain ⟨hquiet, hsent⟩ := quiet_onBeat h b now
    obtain ⟨hquiet', hsent'⟩ := ih hquiet
    exact ⟨hquiet', hsent.append hsent'⟩

/-- Doing what is due, a detector sends control traffic. -/
theorem quiet_onTimeout (h : d.links.Quiet) (now : Nat) :
    (d.onTimeout now).state.links.Quiet ∧ IsControl (d.onTimeout now).sent := by
  obtain ⟨hquiet, hsent⟩ := h.onTimeout now
  let d' : Detector :=
    { d with links := (d.links.onTimeout now).state, timers := d.timers.advance now }
  have hd' : d'.links.Quiet := hquiet
  obtain ⟨hquiet', hsent'⟩ := quiet_onBeats (d.timers.due now) hd' now
  exact ⟨hquiet', hsent.append hsent'⟩

end Detector

end Groupcast
