import Groupcast.Proofs.Detector.Run

/-!
# A peer that answers promptly

A peer answers promptly if each heartbeat to it is answered before the detector is called to do what
is due again (`Prompt`).  As long as it is not restored, both of its timers are due at the same time
from the first check on (`InStep`), and then the heartbeat goes out first: when the check comes, the
heartbeat that has been answered is the last but one.

A window for two heartbeats keeps it, and the check finds the answer (`Attended.effect`).  A window
for one heartbeat has forgotten it together with its answer, and the check finds none, whatever the
peer does (`InStep.onTimeout_of_narrow`).  So a peer that answers promptly comes to be suspected
exactly if the window is that narrow and the peer has been checked (`suspected_iff_narrow`).
-/

namespace Groupcast

/-- No value of a valid tuning is zero. -/
theorem Tuning.get_pos_of_zeroField? {t : Tuning} (h : t.zeroField? = none) (f : TuningField) :
    0 < t.get f := by
  have hf : f ∈ fields := by cases f <;> decide
  have hne := List.find?_eq_none.mp h f hf
  exact Nat.pos_of_ne_zero fun hzero => hne (decide_eq_true hzero)

namespace Detector

/-- A host answers a heartbeat before the detector is called to do what is due again. -/
def Answered (p : HostId) (id : UInt32) : List (Call × Nat) → Prop
  | [] => True
  | (.timeout, _) :: _ => False
  | (.deliver sender m, _) :: run =>
    (sender = p ∧ m.kind = .heartbeatAck ∧ m.ackedId = .ok id) ∨ Answered p id run
  | (.start, _) :: run | (.stop, _) :: run => Answered p id run

/-- A host answers all heartbeats before the detector is called to do what is due again. -/
def Prompt (d : Detector) (p : HostId) : List (Call × Nat) → Prop
  | [] => True
  | (c, now) :: run =>
    (∀ id ∈ heartbeatsTo p (d.effect c now).sent, Answered p id run) ∧
      (d.effect c now).state.Prompt p run

instance decidableAnswered (p : HostId) (id : UInt32) : ∀ run, Decidable (Answered p id run)
  | [] => inferInstanceAs (Decidable True)
  | (.timeout, _) :: _ => inferInstanceAs (Decidable False)
  | (.deliver _ _, _) :: run =>
    have := decidableAnswered p id run
    inferInstanceAs (Decidable (_ ∨ _))
  | (.start, _) :: run | (.stop, _) :: run => decidableAnswered p id run

instance decidablePrompt (d : Detector) (p : HostId) : ∀ run, Decidable (d.Prompt p run)
  | [] => inferInstanceAs (Decidable True)
  | (c, now) :: run =>
    have := decidablePrompt (d.effect c now).state p run
    -- There are far too many ids to try them all.
    have : Decidable (∀ id ∈ heartbeatsTo p (d.effect c now).sent, Answered p id run) :=
      List.decidableBAll _ _
    inferInstanceAs (Decidable (_ ∧ _))

end Detector

namespace Ward

open Detector (Call Answered)

variable {w : Ward} {window now deadline : Nat} {c : Call} {run : List (Call × Nat)}

/-- The peer answers all heartbeats before the ward is called to do what is due again. -/
def Prompt (w : Ward) (window : Nat) : List (Call × Nat) → Prop
  | [] => True
  | (c, now) :: run =>
    (c = .timeout → .send w.peer ∈ w.due now → Answered w.peer w.nextId run) ∧
      (w.effect window c now).1.Prompt window run

/-! ## Timers in step -/

/-- Both timers are due at the same time. -/
structure InStep (w : Ward) (deadline : Nat) : Prop where
  send_eq : w.send = some ⟨w.timeout, deadline⟩
  monitor_eq : w.monitor = some ⟨w.timeout, deadline⟩

/-- Both timers are armed for the same time. -/
def inStep (w : Ward) (deadline : Nat) : Ward :=
  { w with send := some ⟨w.timeout, deadline⟩, monitor := some ⟨w.timeout, deadline⟩ }

theorem InStep.deadlines_eq (h : w.InStep deadline) :
    w.deadlines = [⟨deadline, .send w.peer⟩, ⟨deadline, .monitor w.peer⟩] := by
  simp [deadlines, h.send_eq, h.monitor_eq]

theorem InStep.due_eq (h : w.InStep deadline) :
    w.due deadline = [.send w.peer, .monitor w.peer] := by
  simp [due, h.deadlines_eq]

theorem InStep.due_of_lt (h : w.InStep deadline) (hlt : now < deadline) : w.due now = [] := by
  simp [due, h.deadlines_eq, Nat.not_le.mpr hlt]

/-- **A heartbeat is sent before the peer is checked.** -/
theorem InStep.onTimeout_eq (h : w.InStep deadline) : w.onTimeout window deadline =
    (((w.inStep (deadline + w.timeout)).sendHeartbeat window).check deadline) := by
  have hadvance : w.advance deadline = w.inStep (deadline + w.timeout) := by
    simp only [advance, inStep, h.send_eq, h.monitor_eq, Option.map_some]
    rw [Timer.advance_deadline ⟨w.timeout, deadline⟩]
  rw [onTimeout, hadvance, h.due_eq]
  simp [onBeats, onBeat]

theorem InStep.count_onTimeout (h : w.InStep deadline) :
    (w.onTimeout window deadline).1.count = w.count + 1 := by
  rw [h.onTimeout_eq, count_check]
  rfl

/-- The timers are not due before their deadline. -/
theorem InStep.le_deadline (h : w.InStep deadline) (htime : ∀ e ∈ w.deadlines, now ≤ e.time) :
    now ≤ deadline := by
  refine htime ⟨deadline, .send w.peer⟩ ?_
  rw [h.deadlines_eq]
  exact List.mem_cons_self

theorem InStep.onTimeout_of_lt (h : w.InStep deadline) (hlt : now < deadline) :
    w.onTimeout window now = (w, []) := by
  have hsame : (⟨w.timeout, deadline⟩ : Timer).advance now = ⟨w.timeout, deadline⟩ :=
    Timer.advance_of_lt hlt
  have hsend : w.send.map (·.advance now) = w.send := by
    rw [h.send_eq, Option.map_some, hsame]
  have hmonitor : w.monitor.map (·.advance now) = w.monitor := by
    rw [h.monitor_eq, Option.map_some, hsame]
  rw [onTimeout, h.due_of_lt hlt, advance, hsend, hmonitor]
  rfl

/-! ## A window for two heartbeats -/

/-- The timers are in step, and the heartbeat that has been sent last is remembered, and answered if
not before the ward is called to do what is due again. -/
structure Attended (w : Ward) (deadline : Nat) (run : List (Call × Nat)) : Prop where
  inStep : w.InStep deadline
  suspected_eq : w.suspected = false
  exists_last : ∃ id ∈ w.watch.outstanding, (∀ j ∈ w.watch.outstanding, j ≤ id) ∧
    (id ∈ w.watch.answered ∨ Answered w.peer id run)

/-- A new heartbeat is remembered as the last one, and has not been answered yet. -/
theorem last_sendHeartbeat (hsound : w.Sound) (hwindow : 1 ≤ window)
    (hcount : w.count + 1 < UInt32.size) :
    w.nextId ∈ (w.sendHeartbeat window).watch.outstanding ∧
      w.nextId ∉ (w.sendHeartbeat window).watch.answered ∧
      ∀ j ∈ (w.sendHeartbeat window).watch.outstanding, j ≤ w.nextId := by
  have hid := toNat_nextId hcount
  have hle : ∀ j ∈ w.watch.outstanding, j ≤ w.nextId := by
    intro j hj
    have hj' := hsound.upto j (Or.inl hj)
    rw [UInt32.le_iff_toNat_le]
    omega
  refine ⟨Watch.mem_outstanding_sent_self hwindow hle, fun hmem => ?_, fun j hj => ?_⟩
  · exact hsound.upto.not_mem_answered hid (Watch.mem_answered_sent.mp hmem).1
  · rcases (Watch.mem_outstanding_sent.mp hj).1 with rfl | hold
    · exact UInt32.le_refl _
    · exact hle j hold

/-- **A window for two heartbeats still knows the answered one when the check comes.** -/
theorem Attended.onTimeout {now : Nat} (h : w.Attended deadline ((.timeout, now) :: run))
    (hsound : w.Sound) (hwindow : 2 ≤ window) (hanswered : Answered w.peer w.nextId run)
    (hcount : w.count + 1 < UInt32.size) :
    (w.onTimeout window deadline).1.Attended (deadline + w.timeout) run ∧
      (w.onTimeout window deadline).2 = [] := by
  let v := (w.inStep (deadline + w.timeout)).sendHeartbeat window
  obtain ⟨id, hid, hgreatest, hdone⟩ := h.exists_last
  have hid' : id ∈ w.watch.answered := hdone.resolve_right fun hnever => hnever
  have hkept : id ∉ w.watch.evicted w.nextId window :=
    Watch.not_mem_evicted_greatest hwindow hgreatest
  have hfresh : id ∈ v.watch.fresh := Watch.mem_fresh.mpr
    ⟨Watch.mem_outstanding_sent.mpr ⟨Or.inr hid, hkept⟩, Watch.mem_answered_sent.mpr ⟨hid', hkept⟩⟩
  have hcheck : v.check deadline = ({ v with watch := v.watch.forget v.watch.fresh }, []) :=
    check_of_fresh_ne_nil (List.ne_nil_of_mem hfresh) h.suspected_eq
  rw [h.inStep.onTimeout_eq, hcheck]
  -- The new heartbeat has not been answered yet, so the check does not use it up.
  obtain ⟨hnext, hnew, hlast⟩ := last_sendHeartbeat hsound (Nat.le_of_succ_le hwindow) hcount
  refine ⟨⟨⟨rfl, rfl⟩, h.suspected_eq, w.nextId, ?_, fun j hj => ?_, Or.inr hanswered⟩, rfl⟩
  · exact Watch.mem_outstanding_forget.mpr ⟨hnext, fun hmem => hnew (Watch.mem_fresh.mp hmem).2⟩
  · exact hlast j (Watch.mem_outstanding_forget.mp hj).1

/-- If the timers are not due yet, the answer has been there before. -/
theorem Attended.wait (h : w.Attended deadline ((.timeout, now) :: run)) :
    w.Attended deadline run := by
  obtain ⟨id, hid, hgreatest, hdone⟩ := h.exists_last
  exact ⟨h.inStep, h.suspected_eq, id, hid, hgreatest,
    Or.inl (hdone.resolve_right fun hnever => hnever)⟩

theorem Attended.deliver {sender : HostId} {m : Message}
    (h : w.Attended deadline ((.deliver sender m, now) :: run)) :
    (w.effect window (.deliver sender m) now).1.Attended deadline run := by
  show (if sender = w.peer then w.onMessage m else w).Attended deadline run
  obtain ⟨id, hid, hgreatest, hdone⟩ := h.exists_last
  split
  · refine ⟨⟨h.inStep.send_eq, h.inStep.monitor_eq⟩, h.suspected_eq, id,
      mem_outstanding_onMessage.mpr hid, fun j hj => ?_, ?_⟩
    · exact hgreatest j (mem_outstanding_onMessage.mp hj)
    · rcases hdone with hdone | ⟨-, hkind, hacked⟩ | hlater
      · exact Or.inl (mem_answered_onMessage hdone)
      · exact Or.inl (mem_answered_onMessage_of_ack hkind hacked hid)
      · exact Or.inr hlater
  · rename_i hsender
    refine ⟨h.inStep, h.suspected_eq, id, hid, hgreatest, hdone.imp_right fun hanswered => ?_⟩
    exact hanswered.resolve_left fun hack => hsender hack.1

/-- **A peer that answers promptly stays attended to.** -/
theorem Attended.effect (h : w.Attended deadline ((c, now) :: run)) (hsound : w.Sound)
    (hwindow : 2 ≤ window) (hc : c ≠ .start ∧ c ≠ .stop)
    (htime : ∀ e ∈ w.deadlines, now ≤ e.time)
    (hanswered : c = .timeout → .send w.peer ∈ w.due now → Answered w.peer w.nextId run)
    (hcount : (w.effect window c now).1.count < UInt32.size) :
    ∃ deadline, (w.effect window c now).1.Attended deadline run ∧
      (w.effect window c now).2 = [] := by
  cases c with
  | start => exact absurd rfl hc.1
  | stop => exact absurd rfl hc.2
  | timeout =>
    rcases Nat.lt_or_eq_of_le (h.inStep.le_deadline htime) with hlt | rfl
    · refine ⟨deadline, ?_⟩
      show (w.onTimeout window now).1.Attended deadline run ∧ (w.onTimeout window now).2 = []
      rw [h.inStep.onTimeout_of_lt hlt]
      exact ⟨h.wait, rfl⟩
    · have hdue : .send w.peer ∈ w.due now := by
        rw [h.inStep.due_eq]
        exact List.mem_cons_self
      have hnext : (w.effect window .timeout now).1.count = w.count + 1 := h.inStep.count_onTimeout
      exact ⟨_, h.onTimeout hsound hwindow (hanswered rfl hdue) (hnext ▸ hcount)⟩
  | deliver sender m => exact ⟨deadline, h.deliver, rfl⟩

theorem Attended.after {clock : Nat} (h : w.Attended deadline run) (hsound : w.Sound)
    (hwindow : 2 ≤ window) (hcalls : ∀ c ∈ run, c.1 ≠ .start ∧ c.1 ≠ .stop)
    (hrun : w.OnTime window clock run) (hprompt : w.Prompt window run)
    (hcount : (w.after window run).count < UInt32.size) :
    (w.after window run).suspected = false ∧ w.reports window run = [] := by
  induction run generalizing w deadline clock with
  | nil => exact ⟨h.suspected_eq, rfl⟩
  | cons c run ih =>
    obtain ⟨hc, hcalls⟩ := List.forall_mem_cons.mp hcalls
    obtain ⟨-, htime, hrest⟩ := hrun
    obtain ⟨hanswered, hprompt⟩ := hprompt
    have hcount' := Nat.lt_of_le_of_lt (count_le_after run) hcount
    obtain ⟨deadline, hattended, hreport⟩ := h.effect hsound hwindow hc htime hanswered hcount'
    obtain ⟨hafter, hreports⟩ := ih hattended (hsound.effect hcount') hcalls hrest hprompt hcount
    refine ⟨hafter, ?_⟩
    show (w.effect window c.1 c.2).2 ++ _ = []
    rw [hreport, hreports]
    rfl

/-! ## A window for one heartbeat -/

/-- **A window for one heartbeat has forgotten all answers when the check comes.** -/
theorem InStep.onTimeout_of_narrow (h : w.InStep deadline) (hsound : w.Sound)
    (hcount : w.count + 1 < UInt32.size) :
    (w.onTimeout 1 deadline).1.InStep (deadline + w.timeout) ∧
      (w.onTimeout 1 deadline).1.suspected = true ∧
      (w.onTimeout 1 deadline).2 = if w.suspected then [] else [.suspect w.peer] := by
  let v := (w.inStep (deadline + w.timeout)).sendHeartbeat 1
  obtain ⟨-, hnew, -⟩ := last_sendHeartbeat hsound (Nat.le_refl 1) hcount
  have hless : ∀ j ∈ w.watch.outstanding, j < w.nextId := by
    intro j hj
    have hj' := hsound.upto j (Or.inl hj)
    rw [UInt32.lt_iff_toNat_lt, toNat_nextId hcount]
    omega
  have hfresh : v.watch.fresh = [] := by
    rw [Watch.fresh_eq_nil_iff]
    intro i hi
    rw [Watch.eq_of_mem_outstanding_sent_one hless hi]
    exact hnew
  rw [h.onTimeout_eq, check_of_fresh_eq_nil hfresh]
  exact ⟨⟨rfl, rfl⟩, rfl, rfl⟩

/-- A call checks the peer, or leaves the timers in step and changes nothing in what is believed. -/
theorem InStep.effect_cases (h : w.InStep deadline) (hc : c ≠ .start ∧ c ≠ .stop)
    (htime : ∀ e ∈ w.deadlines, now ≤ e.time) :
    (c = .timeout ∧ .monitor w.peer ∈ w.due now) ∧ now = deadline ∨
      ¬ (c = .timeout ∧ .monitor w.peer ∈ w.due now) ∧
        (w.effect window c now).1.InStep deadline ∧
        (w.effect window c now).1.suspected = w.suspected ∧ (w.effect window c now).2 = [] := by
  cases c with
  | start => exact absurd rfl hc.1
  | stop => exact absurd rfl hc.2
  | timeout =>
    rcases Nat.lt_or_eq_of_le (h.le_deadline htime) with hlt | rfl
    · refine Or.inr ⟨fun hdue => ?_, ?_⟩
      · rw [h.due_of_lt hlt] at hdue
        exact List.not_mem_nil hdue.2
      · show (w.onTimeout window now).1.InStep deadline ∧
          (w.onTimeout window now).1.suspected = w.suspected ∧ (w.onTimeout window now).2 = []
        rw [h.onTimeout_of_lt hlt]
        exact ⟨h, rfl, rfl⟩
    · refine Or.inl ⟨⟨rfl, ?_⟩, rfl⟩
      rw [h.due_eq]
      exact List.mem_cons_of_mem _ List.mem_cons_self
  | deliver sender m =>
    refine Or.inr ⟨fun hdue => Call.noConfusion hdue.1, ?_, ?_, rfl⟩
    · show (if sender = w.peer then w.onMessage m else w).InStep deadline
      split
      · exact ⟨h.send_eq, h.monitor_eq⟩
      · exact h
    · show (if sender = w.peer then w.onMessage m else w).suspected = w.suspected
      split <;> rfl

/-- **With a window for one heartbeat the peer is suspected as soon as it is checked.** -/
theorem InStep.after_of_narrow {clock : Nat} (h : w.InStep deadline) (hsound : w.Sound)
    (hcalls : ∀ c ∈ run, c.1 ≠ .start ∧ c.1 ≠ .stop) (hrun : w.OnTime 1 clock run)
    (hcount : (w.after 1 run).count < UInt32.size) :
    ((w.after 1 run).suspected = true ↔ w.suspected = true ∨ 0 < w.checks 1 run) ∧
      (.suspect w.peer ∈ w.reports 1 run ↔ w.suspected = false ∧ 0 < w.checks 1 run) := by
  induction run generalizing w deadline clock with
  | nil => simp [after, checks, reports]
  | cons c run ih =>
    obtain ⟨c, now⟩ := c
    obtain ⟨hc, hlater⟩ := List.forall_mem_cons.mp hcalls
    obtain ⟨-, htime, hrest⟩ := hrun
    have hcount' := Nat.lt_of_le_of_lt (count_le_after run) hcount
    have hsound' := hsound.effect hcount'
    simp only [after, checks, reports, List.mem_append]
    rcases h.effect_cases hc htime with ⟨hdue, rfl⟩ | ⟨hnot, hstep, hsuspected, hreport⟩
    · obtain rfl := hdue.1
      have hnext : (w.effect 1 .timeout now).1.count = w.count + 1 := h.count_onTimeout
      obtain ⟨hstep, hsuspected, hreport⟩ : (w.effect 1 .timeout now).1.InStep (now + w.timeout) ∧
          (w.effect 1 .timeout now).1.suspected = true ∧
          (w.effect 1 .timeout now).2 = if w.suspected then [] else [.suspect w.peer] :=
        h.onTimeout_of_narrow hsound (hnext ▸ hcount')
      obtain ⟨hafter, hreports⟩ := ih hstep hsound' hlater hrest hcount
      rw [peer_effect] at hreports
      rw [if_pos hdue, hafter, hreports, hreport, hsuspected]
      cases w.suspected with
      | true => simp
      | false =>
        simp only [Bool.false_eq_true, if_false, List.mem_singleton, true_or, false_or, true_and,
          true_iff, Bool.true_eq_false, false_and, or_false]
        omega
    · obtain ⟨hafter, hreports⟩ := ih hstep hsound' hlater hrest hcount
      rw [peer_effect] at hreports
      rw [if_neg hnot, hreport, hafter, hreports, hsuspected, Nat.zero_add]
      simp

/-! ## From the start on -/

/-- The timers have been armed, and no heartbeat has been sent yet. -/
structure Begun (w : Ward) (start : Nat) : Prop where
  send_eq : w.send = some ⟨w.timeout, start⟩
  monitor_eq : w.monitor = some ⟨w.timeout, start + w.timeout⟩
  timeout_pos : 0 < w.timeout
  suspected_eq : w.suspected = false

variable {start : Nat}

theorem Begun.deadlines_eq (h : w.Begun start) :
    w.deadlines = [⟨start, .send w.peer⟩, ⟨start + w.timeout, .monitor w.peer⟩] := by
  simp [deadlines, h.send_eq, h.monitor_eq]

theorem Begun.due_eq (h : w.Begun start) : w.due start = [.send w.peer] := by
  have hpos := h.timeout_pos
  simp [due, h.deadlines_eq]
  omega

/-- The first heartbeat goes out at once, and then the timers are in step. -/
theorem Begun.onTimeout_eq (h : w.Begun start) : w.onTimeout window start =
    ((w.inStep (start + w.timeout)).sendHeartbeat window, []) := by
  have hadvance : w.advance start = w.inStep (start + w.timeout) := by
    have hsend := Timer.advance_deadline ⟨w.timeout, start⟩
    have hmonitor : (⟨w.timeout, start + w.timeout⟩ : Timer).advance start =
        ⟨w.timeout, start + w.timeout⟩ :=
      Timer.advance_of_lt (Nat.lt_add_of_pos_right h.timeout_pos)
    simp only [advance, inStep, h.send_eq, h.monitor_eq, Option.map_some, hsend, hmonitor]
  rw [onTimeout, hadvance, h.due_eq]
  rfl

theorem Begun.onMessage (h : w.Begun start) (m : Message) : (w.onMessage m).Begun start :=
  ⟨h.send_eq, h.monitor_eq, h.timeout_pos, h.suspected_eq⟩

/-- The peer comes to be suspected exactly if the window is narrow and the peer is checked. -/
def Outcome (w : Ward) (window : Nat) (run : List (Call × Nat)) : Prop :=
  ((w.after window run).suspected = true ↔ window = 1 ∧ 0 < w.checks window run) ∧
    (.suspect w.peer ∈ w.reports window run ↔ window = 1 ∧ 0 < w.checks window run)

/-- A call in which the peer is not checked and nothing is reported does not matter. -/
theorem Outcome.cons (h : (w.effect window c now).1.Outcome window run)
    (hnot : ¬ (c = .timeout ∧ .monitor w.peer ∈ w.due now))
    (hreport : (w.effect window c now).2 = []) : w.Outcome window ((c, now) :: run) := by
  rw [Outcome, peer_effect] at h
  simp only [Outcome, after, checks, reports]
  rw [if_neg hnot, hreport, Nat.zero_add, List.nil_append]
  exact h

/-- Once the first heartbeat has been sent, the width of the window decides. -/
theorem Attended.outcome {clock : Nat} (h : w.Attended deadline run) (hsound : w.Sound)
    (hwindow : 1 ≤ window) (hcalls : ∀ c ∈ run, c.1 ≠ .start ∧ c.1 ≠ .stop)
    (hrun : w.OnTime window clock run) (hprompt : w.Prompt window run)
    (hcount : (w.after window run).count < UInt32.size) : w.Outcome window run := by
  rcases Nat.lt_or_eq_of_le hwindow with hwide | rfl
  · obtain ⟨hafter, hreports⟩ := h.after hsound hwide hcalls hrun hprompt hcount
    have hnarrow : window ≠ 1 := Nat.ne_of_gt hwide
    simp [Outcome, hafter, hreports, hnarrow]
  · obtain ⟨hafter, hreports⟩ := h.inStep.after_of_narrow hsound hcalls hrun hcount
    simp [Outcome, hafter, hreports, h.suspected_eq]

/-- The first heartbeat is the last one so far. -/
theorem Begun.attended (h : w.Begun start) (hsound : w.Sound) (hwindow : 1 ≤ window)
    (hanswered : .send w.peer ∈ w.due start → Answered w.peer w.nextId run)
    (hcount : (w.onTimeout window start).1.count < UInt32.size) :
    (w.onTimeout window start).1.Attended (start + w.timeout) run := by
  have hnext : Answered w.peer w.nextId run := by
    refine hanswered ?_
    rw [h.due_eq]
    exact List.mem_cons_self
  rw [h.onTimeout_eq] at hcount ⊢
  obtain ⟨hsent, -, hgreatest⟩ := last_sendHeartbeat hsound hwindow hcount
  exact ⟨⟨rfl, rfl⟩, h.suspected_eq, w.nextId, hsent, hgreatest, Or.inr hnext⟩

/-- The ward is not called to do what is due after its first deadline. -/
theorem Begun.le_start (h : w.Begun start) (htime : ∀ e ∈ w.deadlines, now ≤ e.time) :
    now ≤ start := by
  refine htime ⟨start, .send w.peer⟩ ?_
  rw [h.deadlines_eq]
  exact List.mem_cons_self

theorem Begun.outcome {clock : Nat} (h : w.Begun start) (hsound : w.Sound) (hwindow : 1 ≤ window)
    (hclock : start ≤ clock) (hcalls : ∀ c ∈ run, c.1 ≠ .start ∧ c.1 ≠ .stop)
    (hrun : w.OnTime window clock run) (hprompt : w.Prompt window run)
    (hcount : (w.after window run).count < UInt32.size) : w.Outcome window run := by
  induction run generalizing w clock with
  | nil => simp [Outcome, after, checks, reports, h.suspected_eq]
  | cons c run ih =>
    obtain ⟨c, now⟩ := c
    obtain ⟨hc, hlater⟩ := List.forall_mem_cons.mp hcalls
    obtain ⟨hnow, htime, hrest⟩ := hrun
    obtain ⟨hanswered, hprompt⟩ := hprompt
    have hcount' := Nat.lt_of_le_of_lt (count_le_after run) hcount
    have hsound' := hsound.effect hcount'
    cases c with
    | start => exact absurd rfl hc.1
    | stop => exact absurd rfl hc.2
    | timeout =>
      obtain rfl : now = start := Nat.le_antisymm (h.le_start htime) (Nat.le_trans hclock hnow)
      have hattended : (w.effect window .timeout now).1.Attended (now + w.timeout) run :=
        h.attended hsound hwindow (hanswered rfl) hcount'
      refine (hattended.outcome hsound' hwindow hlater hrest hprompt hcount).cons (fun hdue => ?_)
        (congrArg Prod.snd h.onTimeout_eq)
      rw [h.due_eq, List.mem_singleton] at hdue
      exact Beat.noConfusion hdue.2
    | deliver sender m =>
      have hbegun : (w.effect window (.deliver sender m) now).1.Begun start := by
        show (if sender = w.peer then w.onMessage m else w).Begun start
        split
        · exact h.onMessage m
        · exact h
      exact (ih hbegun hsound' (Nat.le_trans hclock hnow) hlater hrest hprompt hcount).cons
        (fun hdue => Call.noConfusion hdue.1) rfl

end Ward

namespace Detector

variable {d : Detector} {w : Ward} {hs : List Host} {hosts : Hosts} {self p : HostId}
  {run : List (Call × Nat)}

/-- A peer that answers promptly answers its ward promptly. -/
theorem Guards.prompt (h : d.Guards w) (hrun : d.Prompt w.peer run) : w.Prompt d.window run := by
  induction run generalizing d w with
  | nil => trivial
  | cons c run ih =>
    obtain ⟨c, now⟩ := c
    obtain ⟨hanswered, hrest⟩ := hrun
    have hrest' := ih (h.effect c now).1 (by rwa [Ward.peer_effect])
    rw [window_effect] at hrest'
    refine ⟨fun hc hdue => ?_, hrest'⟩
    subst hc
    exact hanswered _ (h.mem_heartbeatsTo hdue)

/-- **Accuracy.**  A detector is started, nothing is ever late, and the member `p` answers each
heartbeat before the detector is called to do what is due again.  Then `p` is suspected, and
reported so, exactly if it has been checked and the window has room for one heartbeat only. -/
theorem suspected_iff_narrow (hhosts : Hosts.ofList hs = .ok hosts)
    (hp : hosts.contains p = true) (hself : p ≠ self) {tuning : Tuning}
    (hvalid : tuning.zeroField? = none) {start : Nat}
    (hcalls : ∀ c ∈ run, c.1 ≠ .start ∧ c.1 ≠ .stop)
    (hontime : ((ofHosts self hosts tuning).start start).OnTime start run)
    (hprompt : ((ofHosts self hosts tuning).start start).Prompt p run)
    (hwrap : (((ofHosts self hosts tuning).start start).after run).links.Unwrapped) :
    let d := (ofHosts self hosts tuning).start start
    ((d.after run).isSuspected p = true ↔ tuning.heartbeatWindow = 1 ∧ 0 < d.checks p run) ∧
      (.suspect p ∈ d.reports run ↔ tuning.heartbeatWindow = 1 ∧ 0 < d.checks p run) := by
  intro d
  have hnew := guards_ofHosts (Hosts.lawful_ofList hhosts) hp hself tuning
  have hheartbeat : 0 < tuning.heartbeat := Tuning.get_pos_of_zeroField? hvalid .heartbeat
  have hwindow : 0 < tuning.heartbeatWindow := Tuning.get_pos_of_zeroField? hvalid .heartbeatWindow
  obtain ⟨w, rfl, hguards, hsound, hbegun⟩ :
      ∃ w : Ward, w.peer = p ∧ d.Guards w ∧ w.Sound ∧ w.Begun start :=
    ⟨_, rfl, hnew.start start, (Ward.sound_new _ _).start start, rfl, rfl, hheartbeat, rfl⟩
  have heq : d.window = tuning.heartbeatWindow := Nat.max_eq_left hwindow
  obtain ⟨hafter, hreports⟩ := hguards.after run
  have houtcome := hbegun.outcome hsound (heq ▸ hwindow) (Nat.le_refl _) hcalls
    (hguards.onTime hontime) (hguards.prompt hprompt) (hafter.count_lt hwrap)
  have hsuspected := hafter.suspected_eq
  rw [Ward.peer_after] at hsuspected
  have hmem : .suspect w.peer ∈ d.reports run ↔ .suspect w.peer ∈ w.reports d.window run := by
    rw [← hreports, List.mem_filter]
    simp [Suspicion.peer]
  rw [Ward.Outcome, ← hsuspected, ← hmem, ← hguards.checks_eq, heq] at houtcome
  exact houtcome

/-- A member that answers the first heartbeat at once, before it is checked a period later. -/
def promptAnswer : List (Call × Nat) :=
  [(.timeout, 0), (.deliver 2 ⟨.heartbeatAck, 2, 1, 1, 0, Bytes.ofWord 1⟩, 0), (.timeout, 100)]

/-- A window for two heartbeats is wide enough. -/
theorem suspected_iff_narrow_promptAnswer :
    let tuning : Tuning := { heartbeat := 100, heartbeatWindow := 2 }
    let d := (ofHosts 1 .pair tuning).start 0
    tuning.zeroField? = none ∧ (∀ c ∈ promptAnswer, c.1 ≠ .start ∧ c.1 ≠ .stop) ∧
      d.OnTime 0 promptAnswer ∧ d.Prompt 2 promptAnswer ∧
      (d.after promptAnswer).links.Unwrapped ∧ d.checks 2 promptAnswer = 1 ∧
      ¬ (d.after promptAnswer).isSuspected 2 = true ∧ .suspect 2 ∉ d.reports promptAnswer := by
  intro tuning d
  have hvalid : tuning.zeroField? = none := by decide
  have hcalls : ∀ c ∈ promptAnswer, c.1 ≠ .start ∧ c.1 ≠ .stop := by decide
  have hontime : d.OnTime 0 promptAnswer := by decide +kernel
  have hprompt : d.Prompt 2 promptAnswer := by decide +kernel
  have hwrap : (d.after promptAnswer).links.Unwrapped := by decide +kernel
  have hwide : ¬ (tuning.heartbeatWindow = 1 ∧ 0 < d.checks 2 promptAnswer) := by
    rintro ⟨hnarrow, -⟩
    cases hnarrow
  obtain ⟨hsuspected, hreports⟩ := suspected_iff_narrow Hosts.ofList_pair (by decide +kernel)
    (by decide) hvalid hcalls hontime hprompt hwrap
  exact ⟨hvalid, hcalls, hontime, hprompt, hwrap, by decide +kernel,
    fun h => hwide (hsuspected.mp h), fun h => hwide (hreports.mp h)⟩

/-- **A member that answers promptly is suspected** if the window has room for one heartbeat. -/
theorem suspected_of_promptAnswer :
    let tuning : Tuning := { heartbeat := 100, heartbeatWindow := 1 }
    let d := (ofHosts 1 .pair tuning).start 0
    tuning.zeroField? = none ∧ (∀ c ∈ promptAnswer, c.1 ≠ .start ∧ c.1 ≠ .stop) ∧
      d.OnTime 0 promptAnswer ∧ d.Prompt 2 promptAnswer ∧
      (d.after promptAnswer).links.Unwrapped ∧ d.reports promptAnswer = [.suspect 2] ∧
      (d.after promptAnswer).isSuspected 2 = true := by
  intro tuning d
  exact ⟨by decide, by decide, by decide +kernel, by decide +kernel, by decide +kernel,
    by decide +kernel, by decide +kernel⟩

end Detector

end Groupcast
