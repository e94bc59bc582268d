import Groupcast.Proofs.Detector.Ward

/-!
# A detector and its wards

Whatever a detector does, it does to each of its wards what the ward can do by itself: when it does
what is due (`Guards.onTimeout`), when it takes in a message (`Guards.deliver`), when it starts and
when it stops.  Other peers do not matter to a ward, and the ward says all that the detector reports
of its peer.
-/

namespace Groupcast

namespace Detector

/-- A detector has a peer in its care, and the ward says how it is with it. -/
structure Guards (d : Detector) (w : Ward) : Prop where
  watch_eq : d.watches[w.peer]? = some w.watch
  suspected_eq : d.suspected.contains w.peer = w.suspected
  timeout_eq : d.timeouts[w.peer]? = some w.timeout
  send_eq : d.timers.tasks[Beat.send w.peer]? = w.send
  monitor_eq : d.timers.tasks[Beat.monitor w.peer]? = w.monitor
  link : ∃ l, d.links.links[w.peer]? = some l ∧ l.Counts w.peer w.count
  consistent : d.timers.Consistent

variable {d : Detector} {w : Ward} {now : Nat} {p q : HostId}

/-! ## Links -/

/-- The link to the peer has done a move. -/
theorem Guards.exists_link (h : d.Guards w) {g : Links} {move : HostId → PerfectLink.Move}
    {r : Links × List Datagram} (hg : g = d.links) (hmoved : g.Moved move r) :
    ∃ l, r.1.links[w.peer]? = some l ∧ l.Counts w.peer (w.count + (move w.peer).sends) := by
  subst hg
  obtain ⟨l, hl, hcounts⟩ := h.link
  refine ⟨_, ?_, hcounts.move (move w.peer)⟩
  rw [hmoved.getElem?_links, hl]
  rfl

/-- The links have done something that gives the link to the peer nothing to send. -/
theorem Guards.links (h : d.Guards w) {move : HostId → PerfectLink.Move}
    {r : Links × List Datagram} (hmoved : d.links.Moved move r)
    (hsends : (move w.peer).sends = 0) : Guards { d with links := r.1 } w where
  watch_eq := h.watch_eq
  suspected_eq := h.suspected_eq
  timeout_eq := h.timeout_eq
  send_eq := h.send_eq
  monitor_eq := h.monitor_eq
  link := by
    have hlink := h.exists_link rfl hmoved
    rwa [hsends] at hlink
  consistent := h.consistent

/-- A message has been sent to some host. -/
theorem moved_send {m : Message} {step : Step Links UInt32} {g : Links} (hm : m.kind ≠ .ack)
    (hstep : g.send q m now = .ok step) :
    g.Moved (fun id => if id = q then .send m now else .rest) (step.state, step.sent) := by
  have hmoved := Links.moved_perform (g := g) (.one q m hm) now
  simp only [Links.perform, hstep] at hmoved
  refine hmoved.congr fun id _ _ => ?_
  simp [Order.reaches, Order.message]

/-- Sending something to the peer gives its link one more message. -/
theorem Guards.links_send (h : d.Guards w) {m : Message} (hm : m.kind ≠ .ack)
    {step : Step Links UInt32} (hstep : d.links.send w.peer m now = .ok step) :
    Guards { d with links := step.state } { w with count := w.count + 1 } where
  watch_eq := h.watch_eq
  suspected_eq := h.suspected_eq
  timeout_eq := h.timeout_eq
  send_eq := h.send_eq
  monitor_eq := h.monitor_eq
  link := by
    have hlink := h.exists_link rfl (moved_send hm hstep)
    rwa [if_pos rfl] at hlink
  consistent := h.consistent

theorem Guards.links_send_of_ne (h : d.Guards w) {m : Message} (hm : m.kind ≠ .ack)
    {step : Step Links UInt32} (hq : q ≠ w.peer) (hstep : d.links.send q m now = .ok step) :
    Guards { d with links := step.state } w := by
  refine h.links (moved_send hm hstep) ?_
  rw [if_neg (Ne.symm hq)]
  rfl

/-- The link to the peer is there. -/
theorem Guards.exists_send (h : d.Guards w) (m : Message) (now : Nat) :
    ∃ l, d.links.links[w.peer]? = some l ∧ l.Counts w.peer w.count ∧
      d.links.send w.peer m now = .ok (d.links.put w.peer (l.send m now)) := by
  obtain ⟨l, hl, hcounts⟩ := h.link
  refine ⟨l, hl, hcounts, ?_⟩
  simp only [Links.send, hl]

/-- The id that the next message to the peer gets. -/
theorem nextId_eq {l : PerfectLink} (h : l.Counts w.peer w.count) :
    l.link.lastId + 1 = w.nextId := h.lastId_add_one

/-! ## What is remembered -/

theorem Guards.modifyWatch (h : d.Guards w) (f : Watch → Watch) :
    (d.modifyWatch w.peer f).Guards { w with watch := f w.watch } where
  watch_eq := by
    show (d.watches.modify w.peer f)[w.peer]? = _
    rw [Std.ExtTreeMap.getElem?_modify_self, h.watch_eq]
    rfl
  suspected_eq := h.suspected_eq
  timeout_eq := h.timeout_eq
  send_eq := h.send_eq
  monitor_eq := h.monitor_eq
  link := h.link
  consistent := h.consistent

theorem Guards.modifyWatch_of_ne (h : d.Guards w) (f : Watch → Watch) (hq : q ≠ w.peer) :
    (d.modifyWatch q f).Guards w where
  watch_eq := by
    show (d.watches.modify q f)[w.peer]? = _
    simp only [Std.ExtTreeMap.getElem?_modify, Std.compare_eq_iff_eq, if_neg hq]
    exact h.watch_eq
  suspected_eq := h.suspected_eq
  timeout_eq := h.timeout_eq
  send_eq := h.send_eq
  monitor_eq := h.monitor_eq
  link := h.link
  consistent := h.consistent

/-! ## Sending a heartbeat -/

theorem kind_ofHeartbeat_ne_ack (self : HostId) : (Message.ofHeartbeat self).kind ≠ .ack := nofun

theorem Guards.sendHeartbeat (h : d.Guards w) (now : Nat) :
    (d.sendHeartbeat w.peer now).state.Guards (w.sendHeartbeat d.window) := by
  obtain ⟨l, -, hcounts, hsend⟩ := h.exists_send (.ofHeartbeat d.self) now
  have hsent := h.links_send (kind_ofHeartbeat_ne_ack d.self) hsend
  have hguards := hsent.modifyWatch (·.sent w.nextId d.window)
  simp only [Detector.sendHeartbeat, hsend]
  rw [show (d.links.put w.peer (l.send (.ofHeartbeat d.self) now)).result = w.nextId from
    nextId_eq hcounts]
  exact hguards

theorem Guards.sendHeartbeat_of_ne (h : d.Guards w) (hq : q ≠ w.peer) (now : Nat) :
    (d.sendHeartbeat q now).state.Guards w := by
  rw [Detector.sendHeartbeat]
  split
  · exact h
  · rename_i step hstep
    exact (h.links_send_of_ne (kind_ofHeartbeat_ne_ack d.self) hq hstep).modifyWatch_of_ne _ hq

/-! ## Checking a peer -/

theorem Guards.restore (h : d.Guards w) (now : Nat) :
    (d.restore w.peer now).1.Guards (w.restore now) ∧
      (d.restore w.peer now).2 = some (.restore w.peer (2 * w.timeout)) := by
  simp only [Detector.restore, h.timeout_eq, and_true]
  have hconsistent := Timers.consistent_reschedule (Timers.consistent_reschedule h.consistent
    (.send w.peer) (2 * w.timeout) now) (.monitor w.peer) (2 * w.timeout) now
  refine ⟨h.watch_eq, ?_, ?_, ?_, ?_, h.link, hconsistent⟩
  · show (d.suspected.erase w.peer).contains w.peer = false
    simp
  · show (d.timeouts.insert w.peer (2 * w.timeout))[w.peer]? = some (2 * w.timeout)
    exact Std.ExtTreeMap.getElem?_insert_self
  · show ((d.timers.reschedule _ _ now).1.reschedule _ _ now).1.tasks[Beat.send w.peer]? =
      w.send.map _
    simp only [Timers.getElem?_tasks_reschedule, reduceCtorEq, if_false, if_true]
    rw [h.send_eq]
  · show ((d.timers.reschedule _ _ now).1.reschedule _ _ now).1.tasks[Beat.monitor w.peer]? =
      w.monitor.map _
    simp only [Timers.getElem?_tasks_reschedule, reduceCtorEq, if_false, if_true]
    rw [h.monitor_eq]

theorem Guards.check (h : d.Guards w) (now : Nat) :
    (d.check w.peer now).1.Guards (w.check now).1 ∧
      (d.check w.peer now).2.toList = (w.check now).2 := by
  have hsuspected := h.suspected_eq
  simp only [Detector.check, h.watch_eq, List.isEmpty_iff, Ward.check]
  by_cases hfresh : w.watch.fresh = []
  · simp only [hfresh, if_true]
    cases hs : w.suspected with
    | true =>
      rw [hs] at hsuspected
      simp only [hsuspected, if_true]
      exact ⟨h, rfl⟩
    | false =>
      rw [hs] at hsuspected
      simp only [hsuspected, Bool.false_eq_true, if_false]
      refine ⟨⟨h.watch_eq, ?_, h.timeout_eq, h.send_eq, h.monitor_eq, h.link, h.consistent⟩, rfl⟩
      show (d.suspected.insert w.peer).contains w.peer = true
      simp
  · simp only [hfresh, if_false]
    have hforget := h.modifyWatch (·.forget w.watch.fresh)
    have hsame : (d.modifyWatch w.peer (·.forget w.watch.fresh)).suspected = d.suspected := rfl
    cases hs : w.suspected with
    | true =>
      rw [hs] at hsuspected
      simp only [hsame, hsuspected, if_true]
      obtain ⟨hrestored, hresult⟩ := hforget.restore now
      rw [hresult]
      exact ⟨hrestored, rfl⟩
    | false =>
      rw [hs] at hsuspected
      simp only [hsame, hsuspected, Bool.false_eq_true, if_false]
      rw [hs] at hforget
      exact ⟨hforget, rfl⟩

theorem Guards.restore_of_ne (h : d.Guards w) (hq : q ≠ w.peer) (now : Nat) :
    (d.restore q now).1.Guards w ∧ ∀ x, (d.restore q now).2 = some x → x.peer ≠ w.peer := by
  have hsuspected : (d.suspected.erase q).contains w.peer = w.suspected := by
    rw [Std.ExtTreeSet.contains_erase, h.suspected_eq]
    simp [hq]
  simp only [Detector.restore]
  split
  · refine ⟨⟨h.watch_eq, hsuspected, h.timeout_eq, h.send_eq, h.monitor_eq, h.link,
      h.consistent⟩, fun x hx => absurd hx.symm (Option.some_ne_none x)⟩
  · rename_i timeout _
    have hconsistent := Timers.consistent_reschedule (Timers.consistent_reschedule h.consistent
      (.send q) (2 * timeout) now) (.monitor q) (2 * timeout) now
    refine ⟨⟨h.watch_eq, hsuspected, ?_, ?_, ?_, h.link, hconsistent⟩, ?_⟩
    · show (d.timeouts.insert q (2 * timeout))[w.peer]? = some w.timeout
      simp only [Std.ExtTreeMap.getElem?_insert, Std.compare_eq_iff_eq, if_neg hq]
      exact h.timeout_eq
    · simp only [Timers.getElem?_tasks_reschedule, reduceCtorEq, Beat.send.injEq, if_neg hq,
        if_false]
      exact h.send_eq
    · simp only [Timers.getElem?_tasks_reschedule, reduceCtorEq, Beat.monitor.injEq, if_neg hq,
        if_false]
      exact h.monitor_eq
    · rintro x hx
      cases hx
      exact hq

theorem Guards.check_of_ne (h : d.Guards w) (hq : q ≠ w.peer) (now : Nat) :
    (d.check q now).1.Guards w ∧ ∀ x, (d.check q now).2 = some x → x.peer ≠ w.peer := by
  rw [Detector.check]
  split
  · exact ⟨h, fun x hx => absurd hx.symm (Option.some_ne_none x)⟩
  · rename_i watch _
    split
    · split
      · exact ⟨h, fun x hx => absurd hx.symm (Option.some_ne_none x)⟩
      · refine ⟨⟨h.watch_eq, ?_, h.timeout_eq, h.send_eq, h.monitor_eq, h.link, h.consistent⟩, ?_⟩
        · show (d.suspected.insert q).contains w.peer = w.suspected
          rw [Std.ExtTreeSet.contains_insert, h.suspected_eq]
          simp [hq]
        · rintro x hx
          cases hx
          exact hq
    · have hforget := h.modifyWatch_of_ne (·.forget watch.fresh) hq
      simp only
      split
      · exact hforget.restore_of_ne hq now
      · exact ⟨hforget, fun x hx => absurd hx.symm (Option.some_ne_none x)⟩

/-! ## Doing what is due -/

theorem Guards.onBeat (h : d.Guards w) {b : Beat} (hb : b.peer = w.peer) (now : Nat) :
    (d.onBeat b now).state.Guards (w.onBeat d.window now b).1 ∧
      (d.onBeat b now).result = (w.onBeat d.window now b).2 := by
  cases b with
  | send q =>
    obtain rfl : q = w.peer := hb
    exact ⟨h.sendHeartbeat now, rfl⟩
  | monitor q =>
    obtain rfl : q = w.peer := hb
    exact h.check now

theorem Guards.onBeat_of_ne (h : d.Guards w) {b : Beat} (hb : b.peer ≠ w.peer) (now : Nat) :
    (d.onBeat b now).state.Guards w ∧ ∀ x ∈ (d.onBeat b now).result, x.peer ≠ w.peer := by
  cases b with
  | send q => exact ⟨h.sendHeartbeat_of_ne hb now, fun x hx => absurd hx List.not_mem_nil⟩
  | monitor q =>
    obtain ⟨hstate, hresult⟩ := h.check_of_ne hb now
    exact ⟨hstate, fun x hx => hresult x (Option.mem_toList.mp hx)⟩

theorem window_check (p : HostId) (now : Nat) : (d.check p now).1.window = d.window := by
  simp only [Detector.check, Detector.restore]
  repeat' split
  all_goals rfl

theorem window_onBeat (b : Beat) (now : Nat) : (d.onBeat b now).state.window = d.window := by
  cases b with
  | send q =>
    simp only [Detector.onBeat, Detector.sendHeartbeat]
    split <;> rfl
  | monitor q => exact window_check q now

theorem window_onBeats (bs : List Beat) (now : Nat) :
    (d.onBeats now bs).state.window = d.window := by
  induction bs generalizing d with
  | nil => rfl
  | cons b bs ih => exact ih.trans (window_onBeat b now)

/-- Of the timers that fire, only those of the peer matter to its ward. -/
theorem Guards.onBeats (h : d.Guards w) (bs : List Beat) (now : Nat) :
    (d.onBeats now bs).state.Guards
        (w.onBeats d.window now (bs.filter fun b => b.peer = w.peer)).1 ∧
      ((d.onBeats now bs).result.filter fun x => x.peer = w.peer) =
        (w.onBeats d.window now (bs.filter fun b => b.peer = w.peer)).2 := by
  induction bs generalizing d w with
  | nil => exact ⟨h, rfl⟩
  | cons b bs ih =>
    by_cases hb : b.peer = w.peer
    · obtain ⟨hfirst, hresult⟩ := h.onBeat hb now
      have hrest := ih hfirst
      rw [Ward.peer_onBeat, window_onBeat] at hrest
      rw [List.filter_cons_of_pos (by simpa using hb)]
      refine ⟨hrest.1, ?_⟩
      show ((d.onBeat b now).result ++ _).filter _ = (w.onBeat d.window now b).2 ++ _
      rw [List.filter_append, hresult, ← hrest.2, List.filter_eq_self.mpr]
      intro x hx
      exact decide_eq_true (Ward.peer_of_mem_onBeat hx)
    · obtain ⟨hfirst, hresult⟩ := h.onBeat_of_ne hb now
      have hrest := ih hfirst
      rw [window_onBeat] at hrest
      rw [List.filter_cons_of_neg (by simpa using hb)]
      refine ⟨hrest.1, ?_⟩
      show ((d.onBeat b now).result ++ _).filter _ = _
      rw [List.filter_append, hrest.2, List.filter_eq_nil_iff.mpr, List.nil_append]
      intro x hx
      rw [decide_eq_true_eq]
      exact hresult x hx

/-- The timers of the peer that fire are those of the ward, in the same order. -/
theorem Guards.filter_due (h : d.Guards w) (now : Nat) :
    ((d.timers.due now).filter fun b => b.peer = w.peer) = w.due now := by
  let mine := (d.timers.fired now).filter fun e => e.key.peer = w.peer
  have hmap : ((d.timers.due now).filter fun b => b.peer = w.peer) = mine.map Deadline.key := by
    rw [Timers.due, List.filter_map]
    rfl
  have hmine := (Timers.pairwise_fired d.timers now).filter fun e => e.key.peer = w.peer
  have hward := w.pairwise_deadlines.filter fun e => e.time ≤ now
  have hmem : ∀ e, e ∈ mine ↔ e ∈ w.deadlines.filter fun e => e.time ≤ now := by
    rintro ⟨time, key⟩
    rw [List.mem_filter, List.mem_filter, Timers.mem_fired_iff, h.consistent,
      Ward.mem_deadlines_iff, ← h.send_eq, ← h.monitor_eq]
    simp only [decide_eq_true_eq, Option.map_eq_some_iff]
    cases key with
    | send q =>
      simp only [Beat.peer, Deadline.mk.injEq, Beat.send.injEq, reduceCtorEq, and_false,
        exists_false, or_false]
      grind
    | monitor q =>
      simp only [Beat.peer, Deadline.mk.injEq, Beat.monitor.injEq, reduceCtorEq, and_false,
        exists_false, false_or]
      grind
  rw [hmap, Ward.due]
  exact congrArg _ (Tables.eq_of_pairwise_lt hmine hward hmem)

/-- The links do what is due, and the timers are armed again. -/
theorem Guards.advance (h : d.Guards w) (now : Nat) :
    Guards { d with links := (d.links.onTimeout now).state, timers := d.timers.advance now }
      (w.advance now) :=
  { h.links (Links.moved_effect (.input .timeout) now) rfl with
    send_eq := by
      show (d.timers.advance now).tasks[Beat.send w.peer]? = w.send.map _
      rw [Timers.getElem?_tasks_advance h.consistent, h.send_eq]
    monitor_eq := by
      show (d.timers.advance now).tasks[Beat.monitor w.peer]? = w.monitor.map _
      rw [Timers.getElem?_tasks_advance h.consistent, h.monitor_eq]
    consistent := Timers.consistent_advance h.consistent now }

/-- **When a detector does what is due, each ward does what is due of it.** -/
theorem Guards.onTimeout (h : d.Guards w) (now : Nat) :
    (d.onTimeout now).state.Guards (w.onTimeout d.window now).1 ∧
      ((d.onTimeout now).result.filter fun x => x.peer = w.peer) =
        (w.onTimeout d.window now).2 := by
  have hbeats := (h.advance now).onBeats (d.timers.due now) now
  rw [show (w.advance now).peer = w.peer from rfl, h.filter_due now] at hbeats
  exact hbeats

theorem window_onTimeout (now : Nat) : (d.onTimeout now).state.window = d.window :=
  window_onBeats (d.timers.due now) now

/-! ## What comes in -/

theorem Guards.onHeartbeat (h : d.Guards w) (m : Message) (hack : m.kind ≠ .ack) (now : Nat) :
    (d.onHeartbeat w.peer m now).state.Guards (w.onMessage m) := by
  cases hkind : m.kind with
  | heartbeat =>
    have hreply : (m.heartbeatAck d.self).kind ≠ .ack := nofun
    obtain ⟨l, -, -, hsend⟩ := h.exists_send (m.heartbeatAck d.self) now
    simp only [Detector.onHeartbeat, Ward.onMessage, hkind, hsend]
    exact h.links_send hreply hsend
  | heartbeatAck =>
    simp only [Detector.onHeartbeat, Ward.onMessage, hkind]
    cases hid : m.ackedId with
    | ok id => exact h.modifyWatch (·.answer id)
    | error e => exact h
  | ack => exact absurd hkind hack
  | data =>
    simp only [Detector.onHeartbeat, Ward.onMessage, hkind]
    exact h

theorem Guards.onHeartbeat_of_ne (h : d.Guards w) (hq : q ≠ w.peer) (m : Message) (now : Nat) :
    (d.onHeartbeat q m now).state.Guards w := by
  cases hkind : m.kind with
  | heartbeat =>
    have hreply : (m.heartbeatAck d.self).kind ≠ .ack := nofun
    simp only [Detector.onHeartbeat, hkind]
    split
    · rename_i step hstep
      exact h.links_send_of_ne hreply hq hstep
    · exact h
  | heartbeatAck =>
    simp only [Detector.onHeartbeat, hkind]
    cases hid : m.ackedId with
    | ok id => exact h.modifyWatch_of_ne _ hq
    | error e => exact h
  | ack | data =>
    simp only [Detector.onHeartbeat, hkind]
    exact h

/-- A link passes on all control traffic. -/
theorem deliver_result_of_isControl {m : Message} (h : d.Guards w)
    (hkind : m.kind.isControl = true) : (d.links.deliver w.peer m).result = some m := by
  obtain ⟨l, hl, -⟩ := h.link
  rw [Links.result_deliver hl, PerfectLink.deliver_of_isControl hkind]

theorem Guards.links_deliver (h : d.Guards w) (sender : HostId) (m : Message) :
    Guards { d with links := (d.links.deliver sender m).state } w := by
  refine h.links (Links.moved_deliver sender m) ?_
  split <;> rfl

/-- **When a detector takes in a message of the peer, the ward does.** -/
theorem Guards.deliver (h : d.Guards w) (m : Message) (now : Nat) :
    (d.deliver w.peer m now).state.Guards (w.onMessage m) := by
  have hlinks := h.links_deliver w.peer m
  cases hresult : (d.links.deliver w.peer m).result with
  | some m' =>
    obtain ⟨rfl, hack⟩ := Links.eq_of_deliver_result hresult
    simp only [Detector.deliver, hresult]
    exact hlinks.onHeartbeat m' hack now
  | none =>
    have hsame : w.onMessage m = w := by
      cases hkind : m.kind with
      | heartbeat | heartbeatAck =>
        rw [deliver_result_of_isControl h (by rw [hkind]; rfl)] at hresult
        cases hresult
      | ack | data => simp [Ward.onMessage, hkind]
    simp only [Detector.deliver, hresult, hsame]
    exact hlinks

/-- **A message of some other host does not matter to the ward.** -/
theorem Guards.deliver_of_ne (h : d.Guards w) (hq : q ≠ w.peer) (m : Message) (now : Nat) :
    (d.deliver q m now).state.Guards w := by
  have hlinks := h.links_deliver q m
  simp only [Detector.deliver]
  split
  · exact hlinks
  · exact hlinks.onHeartbeat_of_ne hq _ now

theorem window_deliver (m : Message) (now : Nat) :
    (d.deliver q m now).state.window = d.window := by
  simp only [Detector.deliver, Detector.onHeartbeat]
  repeat' split
  all_goals rfl

/-! ## Starting and stopping -/

/-- Both timers of a peer are armed. -/
def arm (now : Nat) (timers : Timers Beat) (x : HostId × Nat) : Timers Beat :=
  (timers.schedule (.send x.1) now x.2).schedule (.monitor x.1) (now + x.2) x.2

theorem consistent_foldl_arm {timers : Timers Beat} (h : timers.Consistent)
    (xs : List (HostId × Nat)) : (xs.foldl (arm now) timers).Consistent := by
  induction xs generalizing timers with
  | nil => exact h
  | cons x xs ih =>
    exact ih (Timers.consistent_schedule (Timers.consistent_schedule h _ _ _) _ _ _)

/-- Once the timers of a peer are armed, arming others does not change them. -/
theorem getElem?_tasks_foldl_arm {timers : Timers Beat} {timeout : Nat}
    {xs : List (HostId × Nat)} (hxs : ∀ x ∈ xs, x.1 = p → x.2 = timeout)
    (harmed : timers.tasks[Beat.send p]? = some ⟨timeout, now⟩ ∧
        timers.tasks[Beat.monitor p]? = some ⟨timeout, now + timeout⟩ ∨ (p, timeout) ∈ xs) :
    (xs.foldl (arm now) timers).tasks[Beat.send p]? = some ⟨timeout, now⟩ ∧
      (xs.foldl (arm now) timers).tasks[Beat.monitor p]? = some ⟨timeout, now + timeout⟩ := by
  induction xs generalizing timers with
  | nil => exact harmed.resolve_right List.not_mem_nil
  | cons x xs ih =>
    refine ih (fun y hy => hxs y (List.mem_cons_of_mem x hy)) ?_
    simp only [arm, Timers.getElem?_tasks_schedule, reduceCtorEq, if_false, Beat.send.injEq,
      Beat.monitor.injEq]
    by_cases hx : x.1 = p
    · rw [if_pos hx, if_pos hx, hxs x List.mem_cons_self hx]
      exact Or.inl ⟨rfl, rfl⟩
    · rw [if_neg hx, if_neg hx]
      refine harmed.imp_right fun hmem => (List.mem_cons.mp hmem).resolve_left ?_
      rintro rfl
      exact hx rfl

theorem Guards.start (h : d.Guards w) (now : Nat) : (d.start now).Guards (w.start now) := by
  have hlisted : ∀ x ∈ d.timeouts.toList, x.1 = w.peer → x.2 = w.timeout := by
    intro x hx hpeer
    have hget := Std.ExtTreeMap.mem_toList_iff_getElem?_eq_some.mp hx
    rw [hpeer, h.timeout_eq] at hget
    exact (Option.some.inj hget).symm
  have hmem := Std.ExtTreeMap.mem_toList_iff_getElem?_eq_some.mpr h.timeout_eq
  have harmed : (d.start now).timers.tasks[Beat.send w.peer]? = some ⟨w.timeout, now⟩ ∧
      (d.start now).timers.tasks[Beat.monitor w.peer]? = some ⟨w.timeout, now + w.timeout⟩ :=
    getElem?_tasks_foldl_arm hlisted (Or.inr hmem)
  exact { h with
    send_eq := harmed.1
    monitor_eq := harmed.2
    consistent := consistent_foldl_arm h.consistent _ }

theorem Guards.stop (h : d.Guards w) : d.stop.Guards w.stop where
  watch_eq := h.watch_eq
  suspected_eq := h.suspected_eq
  timeout_eq := h.timeout_eq
  send_eq := Std.ExtTreeMap.getElem?_empty
  monitor_eq := Std.ExtTreeMap.getElem?_empty
  link := h.exists_link rfl (Links.moved_effect (.input .stop) 0)
  consistent := Timers.consistent_empty

/-- **A new detector has every other member in its care, and has done nothing yet.** -/
theorem guards_ofHosts {self : HostId} {hosts : Hosts} (hlawful : hosts.Lawful)
    (hp : hosts.contains p = true) (hself : p ≠ self) (tuning : Tuning) :
    (ofHosts self hosts tuning).Guards (.new p tuning.heartbeat) := by
  obtain ⟨host, hget⟩ := Hosts.get?_of_contains hp
  have hid : host.id = p := hlawful.id_eq hget
  let peers := hosts.toList.filter fun h => h.id ≠ self
  have hpeer : host ∈ peers := List.mem_filter.mpr
    ⟨Hosts.mem_toList_iff.mpr ⟨p, hget⟩, by rw [hid]; simpa using hself⟩
  have hnodup : (peers.map Host.id).Nodup :=
    (List.filter_sublist.map Host.id).nodup hlawful.nodup_map_id
  have hlisted : ∀ {α : Type} (a : α), (Std.ExtTreeMap.ofList (peers.map fun h => (h.id, a)) :
      Std.ExtTreeMap HostId α)[p]? = some a := by
    intro α a
    refine Std.ExtTreeMap.getElem?_ofList_of_mem (Std.compare_eq_iff_eq.mpr hid) ?_
      (List.mem_map.mpr ⟨host, hpeer, rfl⟩)
    rw [List.pairwise_map]
    exact (List.pairwise_map.mp hnodup).imp fun hne heq => hne (Std.compare_eq_iff_eq.mp heq)
  have hfind : (peers.find? fun h => h.id = p) = some host := by
    have hsome : (peers.find? fun h => h.id = p).isSome = true :=
      List.find?_isSome.mpr ⟨host, hpeer, decide_eq_true hid⟩
    obtain ⟨g, hg⟩ := Option.isSome_iff_exists.mp hsome
    have hgid : g.id = p := by simpa using List.find?_some hg
    rw [hg, List.inj_on_of_nodup_map hnodup (List.mem_of_find?_eq_some hg) hpeer
      (hgid.trans hid.symm)]
  refine ⟨hlisted Watch.empty, Std.ExtTreeSet.contains_empty, hlisted tuning.heartbeat,
    Std.ExtTreeMap.getElem?_empty, Std.ExtTreeMap.getElem?_empty,
    ⟨.ofPeer self host tuning.retransmit, ?_, hid, rfl, rfl⟩, Timers.consistent_empty⟩
  show (Links.toPeers self peers tuning).links[p]? = _
  rw [Links.toPeers, Tables.getElem?_foldl_insert Host.id _ _ _ hnodup, hfind]
  rfl

end Detector

end Groupcast
