import Groupcast.Proofs.Detector.Guards
import Groupcast.Proofs.Link.Traffic

/-!
# Runs of a detector

The owner of a detector makes calls (`Detector.Call`), each at a time of its own.  In a run in which
nothing is late (`OnTime`) what is due is done exactly at its deadline.

What a run makes of a detector it makes of each ward (`Guards.after`), and what the detector reports
of the peer is what the ward reports.  A run that is on time for the detector is on time for the
ward (`Guards.onTime`), and the heartbeats that the ward sends are on the wire
(`Guards.mem_heartbeatsTo`).

Of a ward it is always true that the ids of its heartbeats go up and that its peer is checked once a
period (`Ward.Sound`).  When its timers fire they do so one by one, with one check among them at
most, and what is to be shown of a ward is shown along them (`Ward.Sound.onTimeout_induction`).
-/

namespace Groupcast

instance (g : Links) : Decidable g.Unwrapped :=
  decidable_of_iff (∀ l ∈ g.links.values, l.sentCount < UInt32.size)
    ⟨fun h id l hl => h l (Tables.mem_values_iff.mpr ⟨id, hl⟩),
      fun h l hl => (Tables.mem_values_iff.mp hl).elim fun id hid => h id l hid⟩

namespace Detector

/-- What the owner of a detector can call. -/
inductive Call where
  | start
  | stop
  /-- To do what is due. -/
  | timeout
  /-- To take in a message of a member. -/
  | deliver (sender : HostId) (m : Message)
  deriving DecidableEq

/-- What a call does. -/
def effect (d : Detector) (c : Call) (now : Nat) : Step Detector (List Suspicion) :=
  match c with
  | .start => ⟨d.start now, [], []⟩
  | .stop => ⟨d.stop, [], []⟩
  | .timeout => d.onTimeout now
  | .deliver sender m => ⟨(d.deliver sender m now).state, (d.deliver sender m now).sent, []⟩

/-- The detector after a run of calls, each with its time. -/
def after (d : Detector) : List (Call × Nat) → Detector
  | [] => d
  | (c, now) :: run => (d.effect c now).state.after run

/-- All that is reported in a run. -/
def reports (d : Detector) : List (Call × Nat) → List Suspicion
  | [] => []
  | (c, now) :: run => (d.effect c now).result ++ (d.effect c now).state.reports run

/-- How often a peer is checked in a run. -/
def checks (d : Detector) (p : HostId) : List (Call × Nat) → Nat
  | [] => 0
  | (c, now) :: run =>
    (if c = .timeout ∧ .monitor p ∈ d.timers.due now then 1 else 0) +
      (d.effect c now).state.checks p run

/-- A run in which nothing is late: time does not go back, and at no call has a deadline passed.  So
what is due is done exactly at its deadline. -/
def OnTime (d : Detector) (clock : Nat) : List (Call × Nat) → Prop
  | [] => True
  | (c, now) :: run =>
    clock ≤ now ∧ (∀ deadline ∈ d.nextDeadline?, now ≤ deadline) ∧
      (d.effect c now).state.OnTime now run

/-- The next deadline, looked up where the timers are queued. -/
theorem nextDeadline?_eq_earlier? (d : Detector) :
    d.nextDeadline? = earlier?
      (d.links.links.values.filterMap fun l =>
        l.link.timers.queue.toList.head?.map Deadline.time).min?
      (d.timers.queue.toList.head?.map Deadline.time) := by
  simp only [← Timers.nextDeadline?_eq_head?]
  rfl

instance (d : Detector) (now : Nat) : Decidable (∀ deadline ∈ d.nextDeadline?, now ≤ deadline) :=
  decidable_of_iff _ (iff_of_eq (congrArg (fun o : Option Nat => ∀ deadline ∈ o, now ≤ deadline)
    d.nextDeadline?_eq_earlier?.symm))

instance decidableOnTime (d : Detector) (clock : Nat) : ∀ run, Decidable (d.OnTime clock run)
  | [] => inferInstanceAs (Decidable True)
  | (c, now) :: run =>
    have := decidableOnTime (d.effect c now).state now run
    inferInstanceAs (Decidable (_ ∧ _ ∧ _))

/-- The time of the last call. -/
def clock (start : Nat) : List (Call × Nat) → Nat
  | [] => start
  | (_, now) :: run => clock now run

/-- The ids of the heartbeats to a host among datagrams. -/
def heartbeatsTo (p : HostId) (sent : List Datagram) : List UInt32 :=
  sent.filterMap fun e =>
    match Message.decode e.bytes with
    | .ok m => if m.kind = .heartbeat ∧ m.receiver = p then some m.id else none
    | .error _ => none

end Detector

namespace Ward

open Detector (Call)

variable {w : Ward} {window now : Nat} {run : List (Call × Nat)}

/-! ## Runs of a ward -/

/-- What a call does to a ward. -/
def effect (w : Ward) (window : Nat) (c : Call) (now : Nat) : Ward × List Suspicion :=
  match c with
  | .start => (w.start now, [])
  | .stop => (w.stop, [])
  | .timeout => w.onTimeout window now
  | .deliver sender m => (if sender = w.peer then w.onMessage m else w, [])

/-- The ward after a run. -/
def after (w : Ward) (window : Nat) : List (Call × Nat) → Ward
  | [] => w
  | (c, now) :: run => (w.effect window c now).1.after window run

/-- All that is reported of the peer in a run. -/
def reports (w : Ward) (window : Nat) : List (Call × Nat) → List Suspicion
  | [] => []
  | (c, now) :: run =>
    (w.effect window c now).2 ++ (w.effect window c now).1.reports window run

/-- How often the peer is checked in a run. -/
def checks (w : Ward) (window : Nat) : List (Call × Nat) → Nat
  | [] => 0
  | (c, now) :: run =>
    (if c = .timeout ∧ .monitor w.peer ∈ w.due now then 1 else 0) +
      (w.effect window c now).1.checks window run

/-- A run in which nothing that the ward has to do is late. -/
def OnTime (w : Ward) (window clock : Nat) : List (Call × Nat) → Prop
  | [] => True
  | (c, now) :: run =>
    clock ≤ now ∧ (∀ e ∈ w.deadlines, now ≤ e.time) ∧
      (w.effect window c now).1.OnTime window now run

@[simp] theorem peer_effect (c : Call) : (w.effect window c now).1.peer = w.peer := by
  cases c with
  | start => rfl
  | stop => rfl
  | timeout => exact peer_onTimeout
  | deliver sender m =>
    show (if sender = w.peer then w.onMessage m else w).peer = w.peer
    split <;> rfl

@[simp] theorem peer_after : (w.after window run).peer = w.peer := by
  induction run generalizing w with
  | nil => rfl
  | cons c run ih => exact ih.trans (peer_effect c.1)

/-! ## Counting messages -/

theorem count_le_onBeat (b : Beat) : w.count ≤ (w.onBeat window now b).1.count := by
  cases b with
  | send q => exact Nat.le_succ _
  | monitor q => exact Nat.le_of_eq count_check.symm

theorem count_le_onBeats (bs : List Beat) : w.count ≤ (w.onBeats window now bs).1.count := by
  induction bs generalizing w with
  | nil => exact Nat.le_refl _
  | cons b bs ih => exact Nat.le_trans (count_le_onBeat b) ih

theorem count_le_onMessage (m : Message) : w.count ≤ (w.onMessage m).count := by
  show w.count ≤ if m.kind = .heartbeat then w.count + 1 else w.count
  split
  · exact Nat.le_succ _
  · exact Nat.le_refl _

theorem count_le_effect (c : Call) : w.count ≤ (w.effect window c now).1.count := by
  cases c with
  | start => exact Nat.le_refl _
  | stop => exact Nat.le_refl _
  | timeout => exact count_le_onBeats (w := w.advance now) (w.due now)
  | deliver sender m =>
    show w.count ≤ (if sender = w.peer then w.onMessage m else w).count
    split
    · exact count_le_onMessage m
    · exact Nat.le_refl _

theorem count_le_after (run : List (Call × Nat)) : w.count ≤ (w.after window run).count := by
  induction run generalizing w with
  | nil => exact Nat.le_refl _
  | cons c run ih => exact Nat.le_trans (count_le_effect c.1) ih

theorem after_append (run rest : List (Call × Nat)) :
    w.after window (run ++ rest) = (w.after window run).after window rest := by
  induction run generalizing w with
  | nil => rfl
  | cons c run ih => exact ih

theorem count_le_of_earlier {earlier : List (Call × Nat)} (h : earlier <+: run) :
    (w.after window earlier).count ≤ (w.after window run).count := by
  obtain ⟨rest, rfl⟩ := h
  rw [after_append]
  exact count_le_after rest

theorem onTime_append {start : Nat} {rest : List (Call × Nat)} :
    w.OnTime window start (run ++ rest) ↔ w.OnTime window start run ∧
      (w.after window run).OnTime window (Detector.clock start run) rest := by
  induction run generalizing w start with
  | nil => exact (and_iff_right trivial).symm
  | cons c run ih =>
    simp only [List.cons_append, OnTime, ih, and_assoc]
    rfl

/-! ## Timers that fire -/

theorem peer_of_mem_due {b : Beat} (hb : b ∈ w.due now) : b.peer = w.peer := by
  obtain ⟨e, he, rfl⟩ := List.mem_map.mp hb
  rcases mem_deadlines_iff.mp (List.mem_filter.mp he).1 with ⟨s, -, rfl⟩ | ⟨m, -, rfl⟩ <;> rfl

theorem nodup_due : (w.due now).Nodup := by
  have hkeys : (w.deadlines.map Deadline.key).Nodup := by
    rw [deadlines]
    cases w.send <;> cases w.monitor
    · exact .nil
    · exact List.nodup_singleton _
    · exact List.nodup_singleton _
    · simp only
      split <;> simp
  exact (List.filter_sublist.map Deadline.key).nodup hkeys

theorem monitor_mem_due_iff :
    .monitor w.peer ∈ w.due now ↔ ∃ m, w.monitor = some m ∧ m.deadline ≤ now := by
  simp only [due, List.mem_map, List.mem_filter, decide_eq_true_eq, mem_deadlines_iff]
  constructor
  · rintro ⟨e, ⟨⟨s, -, rfl⟩ | ⟨m, hm, rfl⟩, htime⟩, hkey⟩
    · cases hkey
    · exact ⟨m, hm, htime⟩
  · rintro ⟨m, hm, htime⟩
    exact ⟨_, ⟨Or.inr ⟨m, hm, rfl⟩, htime⟩, rfl⟩

/-- Timers fire one by one, and the peer is checked at most once.  `Q` is to hold as long as the
check has yet to come, and `P` when it has come or none is due. -/
theorem onBeats_induction {P Q : Ward → Prop} {bs : List Beat}
    (hsend : ∀ w, P w → P (w.sendHeartbeat window))
    (hsend' : ∀ w, Q w → Q (w.sendHeartbeat window)) (hcheck : ∀ w, Q w → P (w.check now).1)
    {p : HostId} (hpeer : ∀ b ∈ bs, b.peer = p) (hnodup : bs.Nodup)
    (hdue : .monitor p ∈ bs → Q w) (hnot : .monitor p ∉ bs → P w) :
    P (w.onBeats window now bs).1 := by
  induction bs generalizing w with
  | nil => exact hnot List.not_mem_nil
  | cons b bs ih =>
    obtain ⟨hb, hrest⟩ := List.forall_mem_cons.mp hpeer
    obtain ⟨hfresh, hdistinct⟩ := List.nodup_cons.mp hnodup
    cases b with
    | send q =>
      refine ih hrest hdistinct (fun hmem => ?_) (fun hmem => ?_)
      · exact hsend' w (hdue (List.mem_cons_of_mem _ hmem))
      · exact hsend w (hnot fun h => hmem ((List.mem_cons.mp h).resolve_left nofun))
    | monitor q =>
      obtain rfl : q = p := hb
      refine ih hrest hdistinct (fun hmem => absurd hmem hfresh) fun _ => ?_
      exact hcheck w (hdue List.mem_cons_self)

theorem onTimeout_induction (w : Ward) (now : Nat) {P Q : Ward → Prop}
    (hsend : ∀ w, P w → P (w.sendHeartbeat window))
    (hsend' : ∀ w, Q w → Q (w.sendHeartbeat window)) (hcheck : ∀ w, Q w → P (w.check now).1)
    (hdue : .monitor w.peer ∈ w.due now → Q (w.advance now))
    (hnot : .monitor w.peer ∉ w.due now → P (w.advance now)) : P (w.onTimeout window now).1 :=
  onBeats_induction hsend hsend' hcheck (fun _ => peer_of_mem_due) nodup_due hdue hnot

/-! ## What is always true of a ward -/

/-- The ids of heartbeats go up, and the peer is checked once a period. -/
structure Sound (w : Ward) : Prop where
  upto : w.watch.Upto w.count
  monitor_period : ∀ m ∈ w.monitor, m.period = w.timeout

theorem toNat_nextId (hcount : w.count + 1 < UInt32.size) : w.nextId.toNat = w.count + 1 :=
  UInt32.toNat_ofNat_of_lt hcount

theorem sound_new (p : HostId) (timeout : Nat) : (new p timeout).Sound where
  upto := Watch.upto_empty 0
  monitor_period := nofun

theorem Sound.sendHeartbeat (h : w.Sound) (hcount : w.count + 1 < UInt32.size) :
    (w.sendHeartbeat window).Sound where
  upto := h.upto.sent (toNat_nextId hcount) window
  monitor_period := h.monitor_period

theorem Sound.restore (h : w.Sound) (now : Nat) : (w.restore now).Sound where
  upto := h.upto
  monitor_period m hm := by
    obtain ⟨-, -, rfl⟩ := Option.map_eq_some_iff.mp hm
    rfl

theorem Sound.check (h : w.Sound) (now : Nat) : (w.check now).1.Sound := by
  have hforget : Sound { w with watch := w.watch.forget w.watch.fresh } :=
    ⟨h.upto.forget _, h.monitor_period⟩
  rw [Ward.check]
  split_ifs
  · exact h
  · exact ⟨h.upto, h.monitor_period⟩
  · exact hforget.restore now
  · exact hforget

theorem Sound.advance (h : w.Sound) (now : Nat) : (w.advance now).Sound where
  upto := h.upto
  monitor_period m hm := by
    obtain ⟨m₀, hm₀, rfl⟩ := Option.map_eq_some_iff.mp hm
    rw [Timer.period_advance]
    exact h.monitor_period m₀ hm₀

theorem Sound.onMessage (h : w.Sound) (m : Message) : (w.onMessage m).Sound where
  upto := by
    refine Watch.Upto.mono ?_ (count_le_onMessage m)
    simp only [Ward.onMessage]
    split
    · split
      · exact h.upto.answer _
      · exact h.upto
    · exact h.upto
    · exact h.upto
    · exact h.upto
  monitor_period := h.monitor_period

theorem Sound.start (h : w.Sound) (now : Nat) : (w.start now).Sound where
  upto := h.upto
  monitor_period m hm := by
    cases hm
    rfl

/-- Timers fire one by one, while the ids of heartbeats go up. -/
theorem Sound.onTimeout_induction (h : w.Sound)
    (hcount : (w.onTimeout window now).1.count < UInt32.size) {P Q : Ward → Prop}
    (hsend : ∀ v : Ward, v.Sound → v.count + 1 < UInt32.size → P v → P (v.sendHeartbeat window))
    (hsend' : ∀ v : Ward, v.Sound → v.count + 1 < UInt32.size → Q v → Q (v.sendHeartbeat window))
    (hcheck : ∀ v, Q v → P (v.check now).1)
    (hdue : .monitor w.peer ∈ w.due now → Q (w.advance now))
    (hnot : .monitor w.peer ∉ w.due now → P (w.advance now)) :
    (w.onTimeout window now).1.Sound ∧ P (w.onTimeout window now).1 := by
  refine Ward.onTimeout_induction w now
    (P := fun v => v.count < UInt32.size → v.Sound ∧ P v)
    (Q := fun v => v.count < UInt32.size → v.Sound ∧ Q v) ?_ ?_ ?_ ?_ ?_ hcount
  · intro v hv hlt
    obtain ⟨hsound, hP⟩ := hv (Nat.lt_of_succ_lt hlt)
    exact ⟨hsound.sendHeartbeat hlt, hsend v hsound hlt hP⟩
  · intro v hv hlt
    obtain ⟨hsound, hQ⟩ := hv (Nat.lt_of_succ_lt hlt)
    exact ⟨hsound.sendHeartbeat hlt, hsend' v hsound hlt hQ⟩
  · intro v hv hlt
    rw [count_check] at hlt
    obtain ⟨hsound, hQ⟩ := hv hlt
    exact ⟨hsound.check now, hcheck v hQ⟩
  · exact fun hmem _ => ⟨h.advance now, hdue hmem⟩
  · exact fun hmem _ => ⟨h.advance now, hnot hmem⟩

theorem Sound.effect (h : w.Sound) {c : Call}
    (hcount : (w.effect window c now).1.count < UInt32.size) :
    (w.effect window c now).1.Sound := by
  cases c with
  | start => exact h.start now
  | stop => exact ⟨h.upto, nofun⟩
  | timeout =>
    exact (h.onTimeout_induction hcount (P := fun _ => True) (Q := fun _ => True)
      (fun _ _ _ => id) (fun _ _ _ => id) (fun _ => id) (fun _ => trivial) (fun _ => trivial)).1
  | deliver sender m =>
    show (if sender = w.peer then w.onMessage m else w).Sound
    split
    · exact h.onMessage m
    · exact h

theorem Sound.after (h : w.Sound) {run : List (Call × Nat)}
    (hcount : (w.after window run).count < UInt32.size) : (w.after window run).Sound := by
  induction run generalizing w with
  | nil => exact h
  | cons c run ih =>
    exact ih (h.effect (Nat.lt_of_le_of_lt (count_le_after run) hcount)) hcount

end Ward

namespace Detector

variable {d : Detector} {w : Ward} {now : Nat} {p : HostId} {run : List (Call × Nat)}

/-! ## What a run makes of a ward -/

theorem window_effect (c : Call) : (d.effect c now).state.window = d.window := by
  cases c with
  | start => rfl
  | stop => rfl
  | timeout => exact window_onTimeout now
  | deliver sender m => exact window_deliver m now

theorem window_after (run : List (Call × Nat)) : (d.after run).window = d.window := by
  induction run generalizing d with
  | nil => rfl
  | cons c run ih => exact ih.trans (window_effect c.1)

/-- **What a call does to a detector it does to each ward.** -/
theorem Guards.effect (h : d.Guards w) (c : Call) (now : Nat) :
    (d.effect c now).state.Guards (w.effect d.window c now).1 ∧
      ((d.effect c now).result.filter fun x => x.peer = w.peer) = (w.effect d.window c now).2 := by
  cases c with
  | start => exact ⟨h.start now, rfl⟩
  | stop => exact ⟨h.stop, rfl⟩
  | timeout => exact h.onTimeout now
  | deliver sender m =>
    refine ⟨?_, rfl⟩
    show (d.deliver sender m now).state.Guards (if sender = w.peer then w.onMessage m else w)
    split
    · rename_i hsender
      subst hsender
      exact h.deliver m now
    · rename_i hsender
      exact h.deliver_of_ne hsender m now

theorem Guards.after (h : d.Guards w) (run : List (Call × Nat)) :
    (d.after run).Guards (w.after d.window run) ∧
      ((d.reports run).filter fun x => x.peer = w.peer) = w.reports d.window run := by
  induction run generalizing d w with
  | nil => exact ⟨h, rfl⟩
  | cons c run ih =>
    obtain ⟨hfirst, hresult⟩ := h.effect c.1 c.2
    have hrest := ih hfirst
    rw [Ward.peer_effect, window_effect] at hrest
    refine ⟨hrest.1, ?_⟩
    show ((d.effect c.1 c.2).result ++ _).filter _ = (w.effect d.window c.1 c.2).2 ++ _
    rw [List.filter_append, hresult, hrest.2]

/-- Whether a timer of the peer is due is up to the ward. -/
theorem Guards.mem_due_iff (h : d.Guards w) {b : Beat} (hb : b.peer = w.peer) :
    b ∈ d.timers.due now ↔ b ∈ w.due now := by
  rw [← h.filter_due, List.mem_filter]
  simp [hb]

theorem Guards.checks_eq (h : d.Guards w) (run : List (Call × Nat)) :
    d.checks w.peer run = w.checks d.window run := by
  induction run generalizing d w with
  | nil => rfl
  | cons c run ih =>
    have hrest := ih (h.effect c.1 c.2).1
    rw [Ward.peer_effect, window_effect] at hrest
    show (if _ then 1 else 0) + _ = (if _ then 1 else 0) + _
    rw [hrest]
    have hdue : .monitor w.peer ∈ d.timers.due c.2 ↔ .monitor w.peer ∈ w.due c.2 :=
      h.mem_due_iff rfl
    simp only [hdue]

/-- No timer of the peer fires before the next deadline. -/
theorem Guards.nextDeadline?_le (h : d.Guards w) {e : Deadline Beat} (he : e ∈ w.deadlines) :
    ∃ deadline, d.nextDeadline? = some deadline ∧ deadline ≤ e.time := by
  have htask : ∃ task, d.timers.tasks[e.key]? = some task ∧ task.deadline = e.time := by
    rcases Ward.mem_deadlines_iff.mp he with ⟨s, hs, rfl⟩ | ⟨m, hm, rfl⟩
    · exact ⟨s, h.send_eq.trans hs, rfl⟩
    · exact ⟨m, h.monitor_eq.trans hm, rfl⟩
  obtain ⟨task, htask, htime⟩ := htask
  obtain ⟨deadline, hnext, hle⟩ := Timers.nextDeadline?_le h.consistent htask
  rw [Detector.nextDeadline?, hnext]
  cases d.links.nextDeadline? with
  | none => exact ⟨deadline, rfl, htime ▸ hle⟩
  | some other => exact ⟨min other deadline, rfl, Nat.le_trans (Nat.min_le_right _ _) (htime ▸ hle)⟩

theorem Guards.onTime (h : d.Guards w) {clock : Nat} (hrun : d.OnTime clock run) :
    w.OnTime d.window clock run := by
  induction run generalizing d w clock with
  | nil => trivial
  | cons c run ih =>
    obtain ⟨hclock, hdeadline, hrest⟩ := hrun
    have hrest' := ih (h.effect c.1 c.2).1 hrest
    rw [window_effect] at hrest'
    refine ⟨hclock, fun e he => ?_, hrest'⟩
    obtain ⟨deadline, hnext, hle⟩ := h.nextDeadline?_le he
    exact Nat.le_trans (hdeadline deadline hnext) hle

/-- The messages of the ward have not run out of ids. -/
theorem Guards.count_lt (h : d.Guards w) (hwrap : d.links.Unwrapped) : w.count < UInt32.size := by
  obtain ⟨l, hl, hcounts⟩ := h.link
  rw [← hcounts.sentCount_eq]
  exact hwrap w.peer l hl

/-! ## Heartbeats on the wire -/

theorem mem_heartbeatsTo_append {id : UInt32} {sent sent' : List Datagram} :
    id ∈ heartbeatsTo p (sent ++ sent') ↔ id ∈ heartbeatsTo p sent ∨ id ∈ heartbeatsTo p sent' := by
  rw [heartbeatsTo, List.filterMap_append, List.mem_append]
  rfl

theorem Guards.mem_heartbeatsTo_sendHeartbeat (h : d.Guards w) (now : Nat) :
    w.nextId ∈ heartbeatsTo w.peer (d.sendHeartbeat w.peer now).sent := by
  obtain ⟨l, -, hcounts, hsend⟩ := h.exists_send (.ofHeartbeat d.self) now
  simp only [Detector.sendHeartbeat, hsend]
  show w.nextId ∈ heartbeatsTo w.peer [l.link.datagram (l.link.stamp (.ofHeartbeat d.self))]
  have hkind : (l.link.stamp (.ofHeartbeat d.self)).kind = .heartbeat := rfl
  have hreceiver : (l.link.stamp (.ofHeartbeat d.self)).receiver = w.peer := hcounts.peer_eq
  have hid : (l.link.stamp (.ofHeartbeat d.self)).id = w.nextId := nextId_eq hcounts
  simp [heartbeatsTo, StubbornLink.datagram, hkind, hreceiver, ← hid]

theorem Guards.mem_heartbeatsTo_onBeats (h : d.Guards w) {bs : List Beat}
    (hsend : .send w.peer ∈ bs) (now : Nat) :
    w.nextId ∈ heartbeatsTo w.peer (d.onBeats now bs).sent := by
  induction bs generalizing d w with
  | nil => cases hsend
  | cons b bs ih =>
    show w.nextId ∈ heartbeatsTo w.peer ((d.onBeat b now).sent ++ _)
    rw [mem_heartbeatsTo_append]
    by_cases hb : b.peer = w.peer
    · cases b with
      | send q =>
        obtain rfl : q = w.peer := hb
        exact Or.inl (h.mem_heartbeatsTo_sendHeartbeat now)
      | monitor q =>
        have hfirst := (h.onBeat hb now).1
        have hpeer : (w.onBeat d.window now (.monitor q)).1.peer = w.peer := Ward.peer_onBeat _
        have hnext : (w.onBeat d.window now (.monitor q)).1.nextId = w.nextId := Ward.nextId_check
        have hrest := (List.mem_cons.mp hsend).resolve_left nofun
        have hsent := ih hfirst (by rwa [hpeer])
        rw [hpeer, hnext] at hsent
        exact Or.inr hsent
    · have hrest := (List.mem_cons.mp hsend).resolve_left fun heq => hb (heq ▸ rfl)
      exact Or.inr (ih (h.onBeat_of_ne hb now).1 hrest)

/-- **A heartbeat that is due is sent.** -/
theorem Guards.mem_heartbeatsTo (h : d.Guards w) (hsend : .send w.peer ∈ w.due now) :
    w.nextId ∈ heartbeatsTo w.peer (d.onTimeout now).sent := by
  let d' : Detector :=
    { d with links := (d.links.onTimeout now).state, timers := d.timers.advance now }
  have hd' : d'.Guards (w.advance now) := h.advance now
  rw [← h.mem_due_iff rfl] at hsend
  show w.nextId ∈ heartbeatsTo w.peer ((d.links.onTimeout now).sent ++ _)
  rw [mem_heartbeatsTo_append]
  exact Or.inr (hd'.mem_heartbeatsTo_onBeats hsend now)

end Detector

end Groupcast
