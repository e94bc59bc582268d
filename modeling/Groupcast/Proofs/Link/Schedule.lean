import Groupcast.Proofs.Link.Driven
import Groupcast.Proofs.Timers.Regular

/-!
# When links send again

A link arms a timer for each message that comes to wait, and takes the timer away together with the
message (`PerfectLink.Scheduled`).  So it has a deadline exactly if some message waits, and at that
deadline sends a message again (`Scheduled.exists_mem_sent`).  This rests on ids that do not wrap:
otherwise a new message could have the id of one that has been acknowledged.

Before the next deadline there is nothing to do (`onTimeout_of_lt`), and whenever links have done
what is due the next deadline lies in the future (`Regular.lt_nextDeadline?`).  Links without a
timer stay so as long as they send no data (`Idle.driven`).
-/

namespace Groupcast

namespace PerfectLink

variable {l : PerfectLink} {now : Nat}

/-! ## What moves do to the timers of a link -/

@[simp] theorem move_interval (mv : Move) :
    (l.move mv).state.link.interval = l.link.interval := by
  cases mv with
  | deliver m =>
    cases hkind : m.kind with
    | ack =>
      rw [move, (deliver_of_ack hkind).2.2]
      cases m.ackedId with
      | error e => rfl
      | ok id =>
        simp only [StubbornLink.acknowledge]
        split <;> rfl
    | data =>
      rw [move, (deliver_of_data hkind).2.2]
    | heartbeat | heartbeatAck =>
      rw [move, deliver_of_isControl (by rw [hkind]; rfl)]
  | send m now =>
    simp only [move, send, StubbornLink.send]
    split <;> rfl
  | rest | timeout now | stop => rfl

/-- All that moves do to the timers of a link: one is armed for data that is sent, those that are
due are armed again, and some are taken away. -/
theorem timers_move {P : Timers UInt32 → Prop} (h : P l.link.timers) (mv : Move)
    (hcancel : ∀ timers id, P timers → P (timers.cancel id).1) (hempty : P .empty)
    (hadvance : ∀ now, mv = .timeout now → P (l.link.timers.advance now))
    (hschedule : ∀ m now, mv = .send m now → m.kind = .data →
      P (l.link.timers.schedule (l.link.lastId + 1) (now + l.link.interval) l.link.interval)) :
    P (l.move mv).state.link.timers := by
  cases mv with
  | rest => exact h
  | send m now =>
    simp only [move, send, StubbornLink.send]
    split
    · rename_i hkind
      exact hschedule m now rfl hkind
    · exact h
  | deliver m =>
    cases hkind : m.kind with
    | ack =>
      rw [move, (deliver_of_ack hkind).2.2]
      cases m.ackedId with
      | error e => exact h
      | ok id =>
        simp only [StubbornLink.acknowledge]
        split
        · exact hcancel _ id h
        · exact h
    | data =>
      rw [move, (deliver_of_data hkind).2.2]
      exact h
    | heartbeat | heartbeatAck =>
      rw [move, deliver_of_isControl (by rw [hkind]; rfl)]
      exact h
  | timeout now =>
    show P ((l.link.timers.due now).filter l.link.acked.contains |>.foldl
      (fun timers id => (timers.cancel id).1) (l.link.timers.advance now))
    exact List.foldlRecOn _ _ (hadvance now rfl) fun timers ih id _ => hcancel timers id ih
  | stop => exact hempty

/-! ## Links without timers -/

/-- Nothing is to be sent again. -/
def Idle (l : PerfectLink) : Prop := l.link.timers = .empty

theorem Idle.nextDeadline? (h : l.Idle) : l.nextDeadline? = none := by
  rw [PerfectLink.nextDeadline?, StubbornLink.nextDeadline?, h, Timers.nextDeadline?_empty]

/-- A link gets timers only by sending data. -/
theorem Idle.move (h : l.Idle) {mv : Move}
    (hsend : ∀ m now, mv = .send m now → m.kind ≠ .data) : (l.move mv).state.Idle := by
  refine timers_move (P := (· = .empty)) h mv ?_ rfl ?_ ?_
  · rintro timers id rfl
    rw [Timers.cancel]
    split
    · rename_i htask
      rw [show (Timers.empty : Timers UInt32).tasks[id]? = none from
        Std.ExtTreeMap.getElem?_empty] at htask
      cases htask
    · rfl
  · rintro now -
    rw [h]
    exact Timers.advance_of_lt (by simp)
  · intro m now hmv hkind
    exact absurd hkind (hsend m now hmv)

/-- Whoever sends data has a deadline, and sending more does not take it away. -/
theorem nextDeadline?_move_send_ne_none {m : Message} {now : Nat}
    (h : m.kind = .data ∨ l.nextDeadline? ≠ none) :
    (l.move (.send m now)).state.nextDeadline? ≠ none := by
  simp only [move, send, StubbornLink.send, PerfectLink.nextDeadline?,
    StubbornLink.nextDeadline?]
  split
  · exact Timers.nextDeadline?_schedule_ne_none _ _
  · rename_i hkind
    exact h.resolve_left hkind

/-! ## Links that keep pace -/

/-- A link that waits some time before it sends a message again. -/
structure Regular (l : PerfectLink) : Prop where
  interval_pos : 0 < l.link.interval
  timers : l.link.timers.Regular

theorem regular_ofPeer (self : HostId) (peer : Host) {interval : Nat} (hpos : 0 < interval) :
    (ofPeer self peer interval).Regular := ⟨hpos, Timers.regular_empty⟩

theorem Regular.move (h : l.Regular) (mv : Move) : (l.move mv).state.Regular where
  interval_pos := by
    rw [move_interval]
    exact h.interval_pos
  timers := timers_move h.timers mv (fun _ id ht => ht.cancel id) Timers.regular_empty
    (fun now _ => h.timers.advance now) fun _ _ _ _ => h.timers.schedule _ _ h.interval_pos

/-- **After a link has done what is due, its next deadline lies in the future.** -/
theorem Regular.lt_nextDeadline? (h : l.Regular) (now : Nat) :
    ∀ deadline ∈ (l.onTimeout now).state.nextDeadline?, now < deadline := by
  have hahead : (l.move (.timeout now)).state.link.timers.Ahead now :=
    List.foldlRecOn (motive := Timers.Ahead now) _ _ (h.timers.ahead_advance now)
      fun timers ih id _ => Timers.Ahead.cancel ih id
  exact hahead.lt_nextDeadline? (h.move (.timeout now)).timers.consistent

/-- Before the next deadline there is nothing to do. -/
theorem onTimeout_of_lt (h : ∀ deadline ∈ l.nextDeadline?, now < deadline) :
    l.onTimeout now = ⟨l, [], ()⟩ := by
  simp only [onTimeout, StubbornLink.onTimeout, Timers.due_of_lt h, Timers.advance_of_lt h,
    List.filter_nil, List.filterMap_nil, List.foldl_nil]

/-! ## A timer for each message that waits -/

/-- A link has a timer for each message that waits and for no other.  The ids that it has given out
go up to the number of messages sent, and no message that waits counts as acknowledged. -/
structure Scheduled (l : PerfectLink) : Prop where
  consistent : l.link.timers.Consistent
  mem_tasks_iff : ∀ i : UInt32, i ∈ l.link.timers.tasks ↔ i ∈ l.link.sent
  sound : l.link.acked.Sound
  lastId_eq : l.link.lastId.toNat = l.sentCount
  le_of_mem : ∀ i : UInt32, i ∈ l.link.sent → i.toNat ≤ l.sentCount
  le_of_acked : ∀ i, l.link.acked.contains i = true → i.toNat ≤ l.sentCount
  unacked : ∀ i : UInt32, i ∈ l.link.sent → l.link.acked.contains i = false

theorem scheduled_ofPeer (self : HostId) (peer : Host) (interval : Nat) :
    (ofPeer self peer interval).Scheduled where
  consistent := Timers.consistent_empty
  mem_tasks_iff i := by simp [ofPeer, StubbornLink.ofPeer, Timers.empty]
  sound := Window.sound_empty
  lastId_eq := rfl
  le_of_mem i hi := by simp [ofPeer, StubbornLink.ofPeer] at hi
  le_of_acked i hi := by
    rw [Window.contains_empty.mp hi]
    exact Nat.zero_le _
  unacked i hi := by simp [ofPeer, StubbornLink.ofPeer] at hi

/-- The id of a new message is new. -/
theorem Scheduled.send (h : l.Scheduled) {m : Message} (hwrap : l.sentCount + 1 < UInt32.size) :
    (l.move (.send m now)).state.Scheduled := by
  have hnext : (l.link.lastId + 1).toNat = l.sentCount + 1 := by
    rw [UInt32.toNat_add, h.lastId_eq]
    exact Nat.mod_eq_of_lt hwrap
  have hnew : l.link.acked.contains (l.link.lastId + 1) = false := by
    cases hold : l.link.acked.contains (l.link.lastId + 1) with
    | false => rfl
    | true =>
      have hle := h.le_of_acked _ hold
      omega
  simp only [move, PerfectLink.send, StubbornLink.send]
  split
  · constructor
    · exact Timers.consistent_schedule h.consistent _ _ _
    · intro i
      have hold := h.mem_tasks_iff i
      simp only [Std.ExtTreeMap.mem_iff_isSome_getElem?, Timers.getElem?_tasks_schedule,
        Std.ExtTreeMap.getElem?_insert, Std.compare_eq_iff_eq, StubbornLink.stamp_id] at hold ⊢
      split
      · rfl
      · exact hold
    · exact h.sound
    · exact hnext
    · intro i hi
      rcases Std.ExtTreeMap.mem_insert.mp hi with heq | hold
      · exact Nat.le_of_eq (Std.compare_eq_iff_eq.mp heq ▸ hnext)
      · exact Nat.le_succ_of_le (h.le_of_mem i hold)
    · exact fun i hi => Nat.le_succ_of_le (h.le_of_acked i hi)
    · intro i hi
      rcases Std.ExtTreeMap.mem_insert.mp hi with heq | hold
      · exact Std.compare_eq_iff_eq.mp heq ▸ hnew
      · exact h.unacked i hold
  · exact ⟨h.consistent, h.mem_tasks_iff, h.sound, hnext,
      fun i hi => Nat.le_succ_of_le (h.le_of_mem i hi),
      fun i hi => Nat.le_succ_of_le (h.le_of_acked i hi), h.unacked⟩

/-- The message that is acknowledged is taken away together with its timer. -/
theorem Scheduled.acknowledge (h : l.Scheduled) (id : UInt32) :
    Scheduled { l with link := l.link.acknowledge id } := by
  rw [StubbornLink.acknowledge]
  split
  · rename_i hwaits
    constructor
    · exact Timers.consistent_cancel h.consistent
    · intro i
      have hold := h.mem_tasks_iff i
      simp only [Std.ExtTreeMap.mem_iff_isSome_getElem?, Timers.getElem?_tasks_cancel,
        Std.ExtTreeMap.getElem?_erase, Std.compare_eq_iff_eq] at hold ⊢
      split
      · rfl
      · exact hold
    · exact Window.sound_insert h.sound id
    · exact h.lastId_eq
    · exact fun i hi => h.le_of_mem i (Std.ExtTreeMap.mem_of_mem_erase hi)
    · intro i hi
      rcases (Window.contains_insert h.sound id i).mp hi with rfl | hold
      · exact h.le_of_mem i (Std.ExtTreeMap.contains_iff_mem.mp hwaits)
      · exact h.le_of_acked i hold
    · intro i hi
      obtain ⟨hne, hmem⟩ := Std.ExtTreeMap.mem_erase.mp hi
      cases hacked : (l.link.acked.insert id).contains i with
      | false => rfl
      | true =>
        rcases (Window.contains_insert h.sound id i).mp hacked with rfl | hold
        · exact absurd Std.compare_self hne
        · rw [h.unacked i hmem] at hold
          cases hold
  · exact h

/-- What is due waits, so no timer is taken away at a deadline. -/
theorem Scheduled.filter_due (h : l.Scheduled) (now : Nat) :
    (l.link.timers.due now).filter l.link.acked.contains = [] := by
  refine List.filter_eq_nil_iff.mpr fun id hid => ?_
  obtain ⟨task, htask, -⟩ := (Timers.mem_due_iff h.consistent).mp hid
  have hmem : id ∈ l.link.timers.tasks :=
    Std.ExtTreeMap.mem_iff_isSome_getElem?.mpr (by rw [htask]; rfl)
  rw [h.unacked id ((h.mem_tasks_iff id).mp hmem)]
  exact Bool.false_ne_true

theorem Scheduled.onTimeout (h : l.Scheduled) (now : Nat) : (l.onTimeout now).state.Scheduled := by
  simp only [PerfectLink.onTimeout, StubbornLink.onTimeout, h.filter_due, List.foldl_nil]
  refine { h with consistent := Timers.consistent_advance h.consistent now, mem_tasks_iff := ?_ }
  intro i
  rw [← h.mem_tasks_iff i, Std.ExtTreeMap.mem_iff_isSome_getElem?,
    Std.ExtTreeMap.mem_iff_isSome_getElem?, Timers.getElem?_tasks_advance h.consistent,
    Option.isSome_map]

/-- **As long as ids do not wrap, a link has a timer for each message that waits.** -/
theorem Scheduled.move (h : l.Scheduled) {mv : Move}
    (hwrap : (l.move mv).state.sentCount < UInt32.size) : (l.move mv).state.Scheduled := by
  rw [move_sentCount] at hwrap
  cases mv with
  | rest => exact h
  | send m now => exact h.send hwrap
  | deliver m =>
    cases hkind : m.kind with
    | ack =>
      rw [PerfectLink.move, (deliver_of_ack hkind).2.2]
      cases m.ackedId with
      | ok id => exact h.acknowledge id
      | error e => exact h
    | data =>
      rw [PerfectLink.move, (deliver_of_data hkind).2.2]
      exact { h with }
    | heartbeat | heartbeatAck =>
      rw [PerfectLink.move, deliver_of_isControl (by rw [hkind]; rfl)]
      exact h
  | timeout now => exact h.onTimeout now
  | stop =>
    exact { h with
      consistent := Timers.consistent_empty
      mem_tasks_iff i := by simp [PerfectLink.move, stop, StubbornLink.stop, Timers.empty]
      le_of_mem i hi := by simp [PerfectLink.move, stop, StubbornLink.stop] at hi
      unacked i hi := by simp [PerfectLink.move, stop, StubbornLink.stop] at hi }

/-- A link has a deadline exactly if some message waits. -/
theorem Scheduled.nextDeadline?_eq_none_iff (h : l.Scheduled) :
    l.nextDeadline? = none ↔ l.inFlight = 0 := by
  rw [PerfectLink.nextDeadline?, StubbornLink.nextDeadline?,
    h.consistent.nextDeadline?_eq_none_iff, inFlight, StubbornLink.inFlight,
    ← Std.ExtTreeMap.eq_empty_iff_size_eq_zero, Std.ExtTreeMap.eq_empty_iff_forall_not_mem]
  refine forall_congr' fun i => ?_
  rw [← h.mem_tasks_iff, Std.ExtTreeMap.mem_iff_isSome_getElem?, Bool.not_eq_true,
    Option.isSome_eq_false_iff, Option.isNone_iff_eq_none]

/-- **At its deadline a link sends a message again.** -/
theorem Scheduled.exists_mem_sent (h : l.Scheduled) {deadline : Nat}
    (hnext : l.nextDeadline? = some deadline) (hle : deadline ≤ now) :
    ∃ d, d ∈ (l.onTimeout now).sent := by
  obtain ⟨id, task, htask, rfl⟩ := h.consistent.exists_task hnext
  have hdue : id ∈ l.link.timers.due now :=
    (Timers.mem_due_iff h.consistent).mpr ⟨task, htask, hle⟩
  have hwaits : id ∈ l.link.sent := by
    rw [← h.mem_tasks_iff, Std.ExtTreeMap.mem_iff_isSome_getElem?, htask]
    rfl
  obtain ⟨m, hm⟩ := Option.isSome_iff_exists.mp (Std.ExtTreeMap.mem_iff_isSome_getElem?.mp hwaits)
  refine ⟨l.link.datagram m, List.mem_filterMap.mpr ⟨id, List.mem_filter.mpr ⟨hdue, ?_⟩, ?_⟩⟩
  · rw [h.unacked id hwaits]
    rfl
  · rw [hm]
    rfl

end PerfectLink

open PerfectLink (Move)

namespace Links

variable {g : Links} {r : Links × List Datagram} {allowed : HostId → Move → Prop} {now : Nat}

/-! ## The deadlines of all links -/

theorem nextDeadline?_eq_none_iff : g.nextDeadline? = none ↔
    ∀ (id : HostId) (l : PerfectLink), g.links[id]? = some l → l.nextDeadline? = none := by
  rw [nextDeadline?, List.min?_eq_none_iff, List.filterMap_eq_nil_iff]
  constructor
  · intro h id l hl
    exact h l (Tables.mem_values_iff.mpr ⟨id, hl⟩)
  · intro h l hl
    obtain ⟨id, hid⟩ := Tables.mem_values_iff.mp hl
    exact h id l hid

/-- The next deadline is that of some link. -/
theorem exists_link_of_nextDeadline? {deadline : Nat} (h : g.nextDeadline? = some deadline) :
    ∃ (id : HostId) (l : PerfectLink), g.links[id]? = some l ∧ l.nextDeadline? = some deadline := by
  obtain ⟨l, hl, hnext⟩ := List.mem_filterMap.mp (List.min?_mem h)
  obtain ⟨id, hid⟩ := Tables.mem_values_iff.mp hl
  exact ⟨id, l, hid, hnext⟩

/-- All links have their deadlines in the future if the next one lies there, and conversely. -/
theorem lt_nextDeadline?_iff : (∀ deadline ∈ g.nextDeadline?, now < deadline) ↔
    ∀ (id : HostId) (l : PerfectLink), g.links[id]? = some l →
      ∀ deadline ∈ l.nextDeadline?, now < deadline := by
  constructor
  · intro h id l hl deadline hnext
    have hmem : deadline ∈ g.links.values.filterMap PerfectLink.nextDeadline? :=
      List.mem_filterMap.mpr ⟨l, Tables.mem_values_iff.mpr ⟨id, hl⟩, hnext⟩
    cases hmin : g.nextDeadline? with
    | none =>
      rw [nextDeadline?, List.min?_eq_none_iff] at hmin
      rw [hmin] at hmem
      cases hmem
    | some first =>
      have hle := (List.min?_eq_some_iff.mp hmin).2 deadline hmem
      exact Nat.lt_of_lt_of_le (h first hmin) hle
  · intro h deadline hnext
    obtain ⟨id, l, hl, hnext⟩ := exists_link_of_nextDeadline? hnext
    exact h id l hl deadline hnext

theorem inFlight_eq_zero_iff : g.inFlight = 0 ↔
    ∀ (id : HostId) (l : PerfectLink), g.links[id]? = some l → l.inFlight = 0 := by
  have hsum : ∀ ls : List PerfectLink,
      ls.foldr (fun l n => l.inFlight + n) 0 = 0 ↔ ∀ l ∈ ls, l.inFlight = 0 := by
    intro ls
    induction ls with
    | nil => simp
    | cons l ls ih => simp [ih]
  rw [inFlight, hsum]
  constructor
  · intro h id l hl
    exact h l (Tables.mem_values_iff.mpr ⟨id, hl⟩)
  · intro h l hl
    obtain ⟨id, hid⟩ := Tables.mem_values_iff.mp hl
    exact h id l hid

/-- Before the next deadline links have nothing to do. -/
theorem onTimeout_of_lt (h : ∀ deadline ∈ g.nextDeadline?, now < deadline) :
    g.onTimeout now = ⟨g, [], ()⟩ := by
  have hlink : ∀ (id : HostId) (l : PerfectLink), g.links[id]? = some l →
      l.onTimeout now = ⟨l, [], ()⟩ :=
    fun id l hl => PerfectLink.onTimeout_of_lt (lt_nextDeadline?_iff.mp h id l hl)
  have hlinks : (g.onTimeout now).state.links = g.links := by
    refine Std.ExtTreeMap.ext_getElem? fun id => ?_
    rw [(moved_onTimeout now).getElem?_links (g := g)]
    cases hl : g.links[id]? with
    | none => rfl
    | some l => exact congrArg some (congrArg Step.state (hlink id l hl))
  have hsent : (g.onTimeout now).sent = [] := by
    refine List.eq_nil_iff_forall_not_mem.mpr fun d hd => ?_
    obtain ⟨id, l, hl, hmem⟩ := ((moved_onTimeout now).mem_sent (g := g) d).mp hd
    replace hmem : d ∈ (l.onTimeout now).sent := hmem
    rw [hlink id l hl] at hmem
    cases hmem
  have hstate : (g.onTimeout now).state = g := by
    rw [show (g.onTimeout now).state = ⟨g.self, (g.onTimeout now).state.links⟩ from rfl, hlinks]
  rw [show g.onTimeout now = ⟨(g.onTimeout now).state, (g.onTimeout now).sent, ()⟩ from rfl,
    hstate, hsent]

/-! ## What holds of all links -/

/-- All links wait some time before they send a message again. -/
def Regular (g : Links) : Prop :=
  ∀ (id : HostId) (l : PerfectLink), g.links[id]? = some l → l.Regular

/-- All links have a timer for each message that waits, and for no other. -/
def Scheduled (g : Links) : Prop :=
  ∀ (id : HostId) (l : PerfectLink), g.links[id]? = some l → l.Scheduled

/-- On no link is there anything to be sent again. -/
def Idle (g : Links) : Prop :=
  ∀ (id : HostId) (l : PerfectLink), g.links[id]? = some l → l.Idle

theorem Regular.driven (h : g.Regular) (hdriven : Driven allowed g r) : r.1.Regular :=
  hdriven.forall_link h fun _ _ mv hl _ => hl.move mv

theorem Regular.lt_nextDeadline? (h : g.Regular) (now : Nat) :
    ∀ deadline ∈ (g.onTimeout now).state.nextDeadline?, now < deadline := by
  refine lt_nextDeadline?_iff.mpr fun id l hl => ?_
  rw [(moved_onTimeout now).getElem?_links (g := g)] at hl
  obtain ⟨l₀, hl₀, rfl⟩ := Option.map_eq_some_iff.mp hl
  exact (h id l₀ hl₀).lt_nextDeadline? now

theorem Scheduled.driven (h : g.Scheduled) (hdriven : Driven allowed g r)
    (hwrap : r.1.Unwrapped) : r.1.Scheduled := by
  induction hdriven with
  | nil => exact h
  | @cons _ move _ _ hmoved _ hrest ih =>
    refine ih (fun id l hl => ?_) hwrap
    have hlt := hrest.unwrapped hwrap id l hl
    rw [hmoved.getElem?_links] at hl
    obtain ⟨l₀, hl₀, rfl⟩ := Option.map_eq_some_iff.mp hl
    exact (h id l₀ hl₀).move hlt

theorem Scheduled.nextDeadline?_eq_none_iff (h : g.Scheduled) :
    g.nextDeadline? = none ↔ g.inFlight = 0 := by
  rw [Links.nextDeadline?_eq_none_iff, inFlight_eq_zero_iff]
  refine forall_congr' fun id => forall_congr' fun l => forall_congr' fun hl => ?_
  exact (h id l hl).nextDeadline?_eq_none_iff

/-- **At the next deadline a message that waits is sent again.** -/
theorem Scheduled.exists_mem_sent (h : g.Scheduled) {ds : List Datagram} (hds : g.WaitingIn ds)
    {deadline : Nat} (hnext : g.nextDeadline? = some deadline) (hle : deadline ≤ now) :
    ∃ d ∈ (g.onTimeout now).sent, d ∈ ds := by
  obtain ⟨id, l, hl, hnext⟩ := exists_link_of_nextDeadline? hnext
  obtain ⟨d, hd⟩ := (h id l hl).exists_mem_sent hnext hle
  refine ⟨d, ((moved_onTimeout now).mem_sent (g := g) d).mpr ⟨id, l, hl, hd⟩, ?_⟩
  obtain ⟨i, m, hget, rfl⟩ := StubbornLink.mem_sent_onTimeout hd
  exact hds id l hl i m hget

/-! ## Idle links -/

theorem Idle.nextDeadline? (h : g.Idle) : g.nextDeadline? = none :=
  nextDeadline?_eq_none_iff.mpr fun id l hl => (h id l hl).nextDeadline?

theorem idle_stop (g : Links) : g.stop.Idle := by
  intro id l hl
  rw [stop, Std.ExtTreeMap.getElem?_map] at hl
  obtain ⟨l₀, -, rfl⟩ := Option.map_eq_some_iff.mp hl
  rfl

/-- Idle links stay idle if they send no data. -/
theorem Idle.driven (h : g.Idle) (hdriven : Driven allowed g r)
    (hdata : ∀ d ∈ r.2, d.kind? ≠ some .data) : r.1.Idle := by
  induction hdriven with
  | nil => exact h
  | @cons _ move r _ hmoved _ _ ih =>
    refine ih (fun id l hl => ?_) fun d hd => hdata d (List.mem_append_right _ hd)
    rw [hmoved.getElem?_links] at hl
    obtain ⟨l₀, hl₀, rfl⟩ := Option.map_eq_some_iff.mp hl
    refine (h id l₀ hl₀).move fun m now hsend hkind => ?_
    refine hdata (l₀.link.datagram (l₀.link.stamp m)) (List.mem_append_left _ ?_) ?_
    · refine (hmoved.mem_sent _).mpr ⟨id, l₀, hl₀, ?_⟩
      rw [hsend]
      exact List.mem_singleton.mpr rfl
    · exact (Datagram.kind?_encode _ _).trans (congrArg some hkind)

/-- Links that have sent data, and since then have only sent more, have a deadline. -/
theorem Driven.nextDeadline?_ne_none (hdriven : Driven allowed g r)
    (hsends : ∀ id mv, allowed id mv → mv = .rest ∨ ∃ m now, mv = .send m now)
    (h : g.nextDeadline? ≠ none ∨ ∃ d ∈ r.2, d.kind? = some .data) :
    r.1.nextDeadline? ≠ none := by
  induction hdriven with
  | nil => exact h.resolve_right nofun
  | @cons g move r _ hmoved hallowed _ ih =>
    refine ih ?_
    -- Each link either sends or keeps its deadline, so one that had or has got one has one.
    have hkeep : ∀ (id : HostId) (l : PerfectLink), g.links[id]? = some l →
        l.nextDeadline? ≠ none ∨ (∃ d ∈ (l.move (move id)).sent, d.kind? = some .data) →
        r.1.nextDeadline? ≠ none := by
      intro id l hl hold hnone
      have hlink := nextDeadline?_eq_none_iff.mp hnone id (l.move (move id)).state
        (by rw [hmoved.getElem?_links, hl]; rfl)
      rcases hsends id _ (hallowed id) with hrest | ⟨m, now, hsend⟩
      · rw [hrest] at hlink hold
        exact hold.elim (fun hne => hne hlink) (by rintro ⟨d, hd, -⟩; cases hd)
      · rw [hsend] at hlink hold
        refine PerfectLink.nextDeadline?_move_send_ne_none ?_ hlink
        refine hold.symm.imp_left ?_
        rintro ⟨d, hd, hkind⟩
        rw [List.mem_singleton.mp hd, StubbornLink.datagram, Datagram.kind?_encode] at hkind
        exact Option.some.inj hkind
    rcases h with hne | ⟨d, hd, hkind⟩
    · refine Or.inl fun hnone => hne (nextDeadline?_eq_none_iff.mpr fun id l hl => ?_)
      by_contra hlink
      exact hkeep id l hl (Or.inl hlink) hnone
    · rcases List.mem_append.mp hd with hfirst | hlater
      · obtain ⟨id, l, hl, hmem⟩ := (hmoved.mem_sent d).mp hfirst
        exact Or.inl (hkeep id l hl (Or.inr ⟨d, hmem, hkind⟩))
      · exact Or.inr ⟨d, hlater, hkind⟩

end Links

end Groupcast
