import Groupcast.Proofs.Detector.Traffic
import Groupcast.Proofs.Link.Schedule

/-!
# Detectors that keep pace

While the timers of a detector fire, a peer that is restored gets new ones.  As long as no peer has
the period zero (`Detector.Regular`) these, too, are armed for later, and so nothing is due any more
when all that was due has been done (`Regular.lt_nextDeadline?`).  The links of a detector never
have a timer, since it sends no data (`idle_after`).
-/

namespace Groupcast

/-- Control traffic leaves links without timers. -/
theorem Links.Idle.of_control {g : Links} {r : Links × List Datagram} {owner : HostId}
    (h : g.Idle) (hdriven : Driven (fun id mv => mv.InName true owner id) g r) : r.1.Idle := by
  refine hdriven.forall_link h fun id l mv hl hmv => hl.move ?_
  rintro m now rfl hkind
  obtain ⟨hcontrol, -⟩ := hmv
  rw [hkind] at hcontrol
  cases hcontrol

namespace Detector

variable {d : Detector} {now : Nat}

/-- No peer has the period zero. -/
structure Regular (d : Detector) : Prop where
  timers : d.timers.Regular
  timeout_pos : ∀ (p : HostId) (timeout : Nat), d.timeouts[p]? = some timeout → 0 < timeout

theorem regular_ofHosts (self : HostId) (hosts : Hosts) {tuning : Tuning}
    (hpos : 0 < tuning.heartbeat) : (ofHosts self hosts tuning).Regular where
  timers := Timers.regular_empty
  timeout_pos p timeout htimeout := by
    simp only [ofHosts, Std.ExtTreeMap.ofList_eq_foldl] at htimeout
    rcases Tables.mem_of_getElem?_foldl_insert htimeout with hold | ⟨x, hx, rfl⟩
    · simp at hold
    · obtain ⟨peer, -, rfl⟩ := List.mem_map.mp hx
      exact hpos

/-- All peers are watched at their own periods. -/
theorem Regular.start (h : d.Regular) (now : Nat) : (d.start now).Regular where
  timers := by
    refine List.foldlRecOn _ _ h.timers fun timers ih x hx => ?_
    have hpos := h.timeout_pos x.1 x.2 (Std.ExtTreeMap.mem_toList_iff_getElem?_eq_some.mp hx)
    exact (ih.schedule _ _ hpos).schedule _ _ hpos
  timeout_pos := h.timeout_pos

/-- The doubled period of a peer that is restored is no more zero than the one before. -/
theorem Regular.restore (h : d.Regular) (p : HostId) (now : Nat) :
    (d.restore p now).1.Regular ∧
      (d.timers.Ahead now → (d.restore p now).1.timers.Ahead now) := by
  simp only [Detector.restore]
  cases htimeout : d.timeouts[p]? with
  | none => exact ⟨⟨h.timers, h.timeout_pos⟩, id⟩
  | some timeout =>
    have hpos : 0 < 2 * timeout := Nat.mul_pos Nat.two_pos (h.timeout_pos p timeout htimeout)
    refine ⟨⟨(h.timers.reschedule _ hpos now).reschedule _ hpos now, ?_⟩,
      fun hahead => (hahead.reschedule _ hpos).reschedule _ hpos⟩
    intro q timeout' htimeout'
    rw [Std.ExtTreeMap.getElem?_insert] at htimeout'
    split at htimeout'
    · cases htimeout'
      exact hpos
    · exact h.timeout_pos q timeout' htimeout'

theorem Regular.check (h : d.Regular) (p : HostId) (now : Nat) :
    (d.check p now).1.Regular ∧ (d.timers.Ahead now → (d.check p now).1.timers.Ahead now) := by
  unfold Detector.check
  split
  · exact ⟨h, id⟩
  · rename_i w _
    split
    · split
      · exact ⟨h, id⟩
      · exact ⟨⟨h.timers, h.timeout_pos⟩, id⟩
    · have hforget : (d.modifyWatch p (·.forget w.fresh)).Regular := ⟨h.timers, h.timeout_pos⟩
      simp only
      split
      · exact hforget.restore p now
      · exact ⟨hforget, id⟩

/-- Doing what a timer is for makes none of the timers due. -/
theorem Regular.onBeat (h : d.Regular) (b : Beat) (now : Nat) :
    (d.onBeat b now).state.Regular ∧
      (d.timers.Ahead now → (d.onBeat b now).state.timers.Ahead now) := by
  cases b with
  | send p =>
    simp only [Detector.onBeat, sendHeartbeat]
    split
    · exact ⟨h, id⟩
    · exact ⟨⟨h.timers, h.timeout_pos⟩, id⟩
  | monitor p => exact h.check p now

theorem Regular.onBeats (h : d.Regular) (bs : List Beat) (now : Nat) :
    (d.onBeats now bs).state.Regular ∧
      (d.timers.Ahead now → (d.onBeats now bs).state.timers.Ahead now) := by
  induction bs generalizing d with
  | nil => exact ⟨h, id⟩
  | cons b bs ih =>
    obtain ⟨hfirst, hahead⟩ := h.onBeat b now
    obtain ⟨hrest, hahead'⟩ := ih hfirst
    exact ⟨hrest, fun hold => hahead' (hahead hold)⟩

/-- **When a detector has done what is due, none of its timers is.** -/
theorem Regular.onTimeout (h : d.Regular) (now : Nat) :
    (d.onTimeout now).state.Regular ∧ (d.onTimeout now).state.timers.Ahead now := by
  let beating : Detector :=
    { d with links := (d.links.onTimeout now).state, timers := d.timers.advance now }
  have hbeating : beating.Regular := ⟨h.timers.advance now, h.timeout_pos⟩
  obtain ⟨hstate, hahead⟩ := hbeating.onBeats (d.timers.due now) now
  exact ⟨hstate, hahead (h.timers.ahead_advance now)⟩

theorem Regular.deliver (h : d.Regular) (sender : HostId) (m : Message) (now : Nat) :
    (d.deliver sender m now).state.Regular := by
  simp only [Detector.deliver, onHeartbeat]
  repeat' split
  all_goals exact ⟨h.timers, h.timeout_pos⟩

theorem Regular.effect (h : d.Regular) (c : Call) (now : Nat) : (d.effect c now).state.Regular := by
  cases c with
  | start => exact h.start now
  | stop => exact ⟨Timers.regular_empty, h.timeout_pos⟩
  | timeout => exact (h.onTimeout now).1
  | deliver sender m => exact h.deliver sender m now

theorem Regular.after (h : d.Regular) (run : List (Call × Nat)) : (d.after run).Regular := by
  induction run generalizing d with
  | nil => exact h
  | cons c run ih => exact ih (h.effect c.1 c.2)

/-! ## The links of a detector -/

theorem idle_ofHosts (self : HostId) (hosts : Hosts) (tuning : Tuning) :
    (ofHosts self hosts tuning).links.Idle := Links.forall_link_toPeers fun _ => rfl

/-- The links of a detector have nothing to send again. -/
theorem idle_effect (h : d.links.Idle) {c : Call} (hc : c.Genuine) (now : Nat) :
    (d.effect c now).state.links.Idle := h.of_control (driven_effect rfl hc now)

theorem idle_after (h : d.links.Idle) {run : List (Call × Nat)}
    (hrun : ∀ c ∈ run, c.1.Genuine) : (d.after run).links.Idle :=
  h.of_control (driven_after rfl hrun)

/-- A detector with idle links waits for its timers alone. -/
theorem nextDeadline?_of_idle (h : d.links.Idle) : d.nextDeadline? = d.timers.nextDeadline? := by
  rw [Detector.nextDeadline?, h.nextDeadline?]
  rfl

/-- **After a detector has done what is due, its next deadline lies in the future.** -/
theorem Regular.lt_nextDeadline? (h : d.Regular) (hidle : d.links.Idle) (now : Nat) :
    ∀ deadline ∈ (d.onTimeout now).state.nextDeadline?, now < deadline := by
  have hidle' : (d.onTimeout now).state.links.Idle := idle_effect (c := .timeout) hidle nofun now
  rw [nextDeadline?_of_idle hidle']
  obtain ⟨hstate, hahead⟩ := h.onTimeout now
  exact hahead.lt_nextDeadline? hstate.timers.consistent

/-- Before its next deadline a detector has nothing to do. -/
theorem onTimeout_of_lt (hidle : d.links.Idle)
    (h : ∀ deadline ∈ d.nextDeadline?, now < deadline) : d.onTimeout now = ⟨d, [], []⟩ := by
  rw [nextDeadline?_of_idle hidle] at h
  have hlinks : d.links.onTimeout now = ⟨d.links, [], ()⟩ := by
    refine Links.onTimeout_of_lt ?_
    rw [hidle.nextDeadline?]
    nofun
  simp only [onTimeout, Timers.due_of_lt h, Timers.advance_of_lt h, hlinks, onBeats,
    List.append_nil]

end Detector

end Groupcast
