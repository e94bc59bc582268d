import Groupcast.Proofs.Detector.Run

/-!
# A silent peer is suspected

Once no answers of a peer come in any more, each check of it uses up what there is
(`Silenced.effect`): after the first one no answer is left that has not been seen, and the second
one finds none and makes the peer suspected for good.

How long that takes is up to the timers.  The first check comes within a timeout of the peer, and
the second one within another; if the first one restores the peer, its timeout is doubled, and the
two checks together take no longer than twice the new timeout (`Nears.effect`).

The theorem on all runs is `suspected_of_silence`.
-/

namespace Groupcast

namespace Detector

/-- A call that neither starts nor stops the detector nor brings an answer of a host. -/
def Call.Silent (p : HostId) : Call → Prop
  | .start | .stop => False
  | .timeout => True
  | .deliver sender m => sender = p → m.kind ≠ .heartbeatAck

instance (p : HostId) : DecidablePred (Call.Silent p)
  | .start | .stop => inferInstanceAs (Decidable False)
  | .timeout => inferInstanceAs (Decidable True)
  | .deliver _ _ => inferInstanceAs (Decidable (_ → _))

/-- A run in which a host does not answer any more. -/
def Silent (p : HostId) (run : List (Call × Nat)) : Prop := ∀ c ∈ run, c.1.Silent p

instance (p : HostId) (run : List (Call × Nat)) : Decidable (Silent p run) :=
  inferInstanceAs (Decidable (∀ c ∈ run, c.1.Silent p))

/-- A run that has started a detector, and not stopped it since. -/
def Started (run : List (Call × Nat)) : Prop :=
  ∃ before now rest, run = before ++ (.start, now) :: rest ∧ ∀ c ∈ rest, c.1 ≠ .stop

end Detector

namespace Ward

open Detector (Call Silent Started)

variable {w : Ward} {window now : Nat} {c : Call} {run : List (Call × Nat)}

/-! ## Checks use up the answers -/

/-- How far a ward has got in finding out that the peer is silent: after one check no answers are
left, and after two the peer is suspected. -/
structure Silenced (w : Ward) (n : Nat) : Prop where
  fresh_eq_nil : 1 ≤ n → w.watch.fresh = []
  suspected_eq : 2 ≤ n → w.suspected = true

variable {n : Nat}

theorem Silenced.anti {k : Nat} (h : w.Silenced n) (hle : k ≤ n) : w.Silenced k where
  fresh_eq_nil hk := h.fresh_eq_nil (Nat.le_trans hk hle)
  suspected_eq hk := h.suspected_eq (Nat.le_trans hk hle)

theorem fresh_sendHeartbeat (h : w.Sound) (hcount : w.count + 1 < UInt32.size)
    (hfresh : w.watch.fresh = []) : (w.sendHeartbeat window).watch.fresh = [] :=
  Watch.fresh_sent_eq_nil hfresh (h.upto.not_mem_answered (toNat_nextId hcount)) window

theorem fresh_check : (w.check now).1.watch.fresh = [] := by
  rw [watch_check]
  exact Watch.fresh_forget_fresh w.watch

theorem suspected_check (hfresh : w.watch.fresh = []) : (w.check now).1.suspected = true := by
  rw [check, if_pos hfresh]
  split_ifs with hsuspected
  · exact hsuspected
  · rfl

theorem Silenced.sendHeartbeat (h : w.Silenced n) (hsound : w.Sound)
    (hcount : w.count + 1 < UInt32.size) : (w.sendHeartbeat window).Silenced n where
  fresh_eq_nil hn := fresh_sendHeartbeat hsound hcount (h.fresh_eq_nil hn)
  suspected_eq := h.suspected_eq

theorem Silenced.check (h : w.Silenced n) (now : Nat) : (w.check now).1.Silenced (n + 1) where
  fresh_eq_nil _ := fresh_check
  suspected_eq hn := suspected_check (h.fresh_eq_nil (Nat.le_of_succ_le_succ hn))

/-- **In silence, a check takes a ward one step further, and nothing takes it back.** -/
theorem Silenced.effect (h : w.Silenced n) (hsound : w.Sound) (hc : c.Silent w.peer)
    (hcount : (w.effect window c now).1.count < UInt32.size) :
    (w.effect window c now).1.Silenced
      ((if c = .timeout ∧ .monitor w.peer ∈ w.due now then 1 else 0) + n) := by
  cases c with
  | start | stop => exact absurd hc id
  | timeout =>
    simp only [true_and]
    refine (hsound.onTimeout_induction hcount
      (P := fun v => v.Silenced ((if .monitor w.peer ∈ w.due now then 1 else 0) + n))
      (Q := fun v => v.Silenced n) (fun v hsound hlt hv => hv.sendHeartbeat hsound hlt)
      (fun v hsound hlt hv => hv.sendHeartbeat hsound hlt) (fun v hv => ?_) (fun _ => ?_)
      (fun hnot => ?_)).2
    · refine (hv.check now).anti ?_
      split <;> omega
    · exact ⟨h.fresh_eq_nil, h.suspected_eq⟩
    · rw [if_neg hnot, Nat.zero_add]
      exact ⟨h.fresh_eq_nil, h.suspected_eq⟩
  | deliver sender m =>
    rw [if_neg (fun hand => Call.noConfusion hand.1), Nat.zero_add]
    show (if sender = w.peer then w.onMessage m else w).Silenced n
    split
    · rename_i hsender
      refine ⟨fun hn => ?_, h.suspected_eq⟩
      rw [watch_onMessage (hc hsender)]
      exact h.fresh_eq_nil hn
    · exact h

theorem Silenced.after (h : w.Silenced n) (hsound : w.Sound) (hrun : Silent w.peer run)
    (hcount : (w.after window run).count < UInt32.size) :
    (w.after window run).Silenced (w.checks window run + n) := by
  induction run generalizing w n with
  | nil => exact (Nat.zero_add n).symm ▸ h
  | cons c run ih =>
    obtain ⟨hc, hrest⟩ := List.forall_mem_cons.mp hrun
    have hcount' := Nat.lt_of_le_of_lt (count_le_after run) hcount
    have hfirst := h.effect hsound hc hcount'
    have hafter := ih hfirst (hsound.effect hcount') (by rwa [peer_effect]) hcount
    rw [← Nat.add_assoc, Nat.add_comm (checks _ _ run)] at hafter
    exact hafter

/-! ## How long it takes -/

/-- A check that is due, and not late, is due now, and the next one a period from now. -/
theorem monitor_advance_of_due (hsound : w.Sound) (htime : ∀ e ∈ w.deadlines, now ≤ e.time)
    (hdue : .monitor w.peer ∈ w.due now) : ∃ m, w.monitor = some m ∧ m.deadline = now ∧
      (w.advance now).monitor = some ⟨w.timeout, now + w.timeout⟩ := by
  obtain ⟨m, hm, hle⟩ := monitor_mem_due_iff.mp hdue
  have hge : now ≤ m.deadline := htime _ (mem_deadlines_iff.mpr (Or.inr ⟨m, hm, rfl⟩))
  obtain rfl : m.deadline = now := Nat.le_antisymm hle hge
  refine ⟨m, hm, rfl, ?_⟩
  show w.monitor.map (·.advance m.deadline) = _
  rw [hm, Option.map_some, Timer.advance_deadline, hsound.monitor_period m hm]

theorem monitor_advance_of_not_due (hnot : .monitor w.peer ∉ w.due now) :
    (w.advance now).monitor = w.monitor := by
  show w.monitor.map (·.advance now) = w.monitor
  cases hm : w.monitor with
  | none => rfl
  | some m =>
    have hlt : now < m.deadline :=
      Nat.not_le.mp fun hle => hnot (monitor_mem_due_iff.mpr ⟨m, hm, hle⟩)
    rw [Option.map_some, Timer.advance_of_lt hlt]

/-- The next check comes within a timeout. -/
def Soon (w : Ward) (clock : Nat) : Prop := ∀ m ∈ w.monitor, m.deadline ≤ clock + w.timeout

theorem Soon.mono {clock : Nat} (h : w.Soon clock) (hle : clock ≤ now) : w.Soon now :=
  fun m hm => Nat.le_trans (h m hm) (Nat.add_le_add_right hle _)

theorem Soon.check (h : w.Soon now) : (w.check now).1.Soon now := by
  rw [Ward.check]
  split_ifs
  · exact h
  · exact h
  · intro m hm
    obtain ⟨-, -, rfl⟩ := Option.map_eq_some_iff.mp hm
    exact Nat.le_refl _
  · exact h

/-- If nothing is late, the next check always comes within a timeout. -/
theorem Soon.effect {clock : Nat} (h : w.Soon clock) (hsound : w.Sound) (hclock : clock ≤ now)
    (htime : ∀ e ∈ w.deadlines, now ≤ e.time) (c : Call) :
    (w.effect window c now).1.Soon now := by
  cases c with
  | start =>
    intro m hm
    cases hm
    exact Nat.le_refl _
  | stop => exact nofun
  | timeout =>
    refine onTimeout_induction w now (P := fun v => v.Soon now) (Q := fun v => v.Soon now)
      (fun _ hv => hv) (fun _ hv => hv) (fun _ hv => hv.check) (fun hdue => ?_) (fun hnot => ?_)
    · obtain ⟨-, -, -, hmonitor⟩ := monitor_advance_of_due hsound htime hdue
      intro m hm
      rw [hmonitor] at hm
      cases hm
      exact Nat.le_refl _
    · intro m hm
      rw [monitor_advance_of_not_due hnot] at hm
      exact h.mono hclock m hm
  | deliver sender m =>
    show (if sender = w.peer then w.onMessage m else w).Soon now
    split <;> exact h.mono hclock

theorem Soon.after {clock : Nat} (h : w.Soon clock) (hsound : w.Sound)
    (hrun : w.OnTime window clock run) (hcount : (w.after window run).count < UInt32.size) :
    (w.after window run).Soon (Detector.clock clock run) := by
  induction run generalizing w clock with
  | nil => exact h
  | cons c run ih =>
    obtain ⟨hclock, htime, hrest⟩ := hrun
    have hcount' := Nat.lt_of_le_of_lt (count_le_after run) hcount
    exact ih (h.effect hsound hclock htime c.1) (hsound.effect hcount') hrest hcount

/-- In silence, how far a ward is from the end: either the peer is suspected for good, or the check
that makes it so comes in time, reckoned from when the silence began. -/
def Nears (w : Ward) (since : Nat) : Prop :=
  (w.watch.fresh = [] ∧ w.suspected = true) ∨ ∃ m, w.monitor = some m ∧
    (m.deadline ≤ since + w.timeout ∨
      w.watch.fresh = [] ∧ m.deadline ≤ since + 2 * w.timeout)

variable {since : Nat}

/-- A check takes place that was to come within a timeout of the silence, or finds no answers. -/
theorem nears_check (hmonitor : w.monitor = some ⟨w.timeout, now + w.timeout⟩)
    (hnow : w.watch.fresh = [] ∨ now ≤ since + w.timeout) : (w.check now).1.Nears since := by
  by_cases hfresh : w.watch.fresh = []
  · exact Or.inl ⟨fresh_check, suspected_check hfresh⟩
  · have hle := hnow.resolve_left hfresh
    rw [check, if_neg hfresh]
    split_ifs
    · -- The peer is restored, and its next check comes after twice its timeout.
      refine Or.inr ⟨⟨2 * w.timeout, now + 2 * w.timeout⟩, ?_, Or.inr ⟨?_, ?_⟩⟩
      · show w.monitor.map _ = _
        rw [hmonitor]
        rfl
      · exact Watch.fresh_forget_fresh w.watch
      · show now + 2 * w.timeout ≤ since + 2 * (2 * w.timeout)
        omega
    · refine Or.inr ⟨_, hmonitor, Or.inr ⟨Watch.fresh_forget_fresh w.watch, ?_⟩⟩
      show now + w.timeout ≤ since + 2 * w.timeout
      omega

theorem Nears.sendHeartbeat (h : w.Nears since) (hsound : w.Sound)
    (hcount : w.count + 1 < UInt32.size) : (w.sendHeartbeat window).Nears since := by
  have hfresh : w.watch.fresh = [] → (w.sendHeartbeat window).watch.fresh = [] :=
    fresh_sendHeartbeat hsound hcount
  rcases h with ⟨hnil, hsuspected⟩ | ⟨m, hm, hle | ⟨hnil, hle⟩⟩
  · exact Or.inl ⟨hfresh hnil, hsuspected⟩
  · exact Or.inr ⟨m, hm, Or.inl hle⟩
  · exact Or.inr ⟨m, hm, Or.inr ⟨hfresh hnil, hle⟩⟩

theorem Nears.effect (h : w.Nears since) (hsound : w.Sound) (hc : c.Silent w.peer)
    (htime : ∀ e ∈ w.deadlines, now ≤ e.time)
    (hcount : (w.effect window c now).1.count < UInt32.size) :
    (w.effect window c now).1.Nears since := by
  cases c with
  | start | stop => exact absurd hc id
  | timeout =>
    -- As long as the check has yet to come, it comes now, within a timeout of the silence.
    refine (hsound.onTimeout_induction hcount (P := fun v => v.Nears since)
      (Q := fun v => v.monitor = some ⟨v.timeout, now + v.timeout⟩ ∧
        (v.watch.fresh = [] ∨ now ≤ since + v.timeout)) ?_ ?_ ?_ ?_ ?_).2
    · exact fun v hsound hlt hv => hv.sendHeartbeat hsound hlt
    · exact fun v hsound hlt hv => ⟨hv.1, hv.2.imp_left (fresh_sendHeartbeat hsound hlt)⟩
    · exact fun v hv => nears_check hv.1 hv.2
    · intro hdue
      obtain ⟨m, hm, rfl, hmonitor⟩ := monitor_advance_of_due hsound htime hdue
      refine ⟨hmonitor, ?_⟩
      rcases h with ⟨hnil, -⟩ | ⟨m', hm', hle | ⟨hnil, -⟩⟩
      · exact Or.inl hnil
      · rw [hm] at hm'
        cases hm'
        exact Or.inr hle
      · exact Or.inl hnil
    · intro hnot
      rw [Nears, monitor_advance_of_not_due hnot]
      exact h
  | deliver sender m =>
    show (if sender = w.peer then w.onMessage m else w).Nears since
    split
    · rename_i hsender
      rw [Nears, watch_onMessage (hc hsender)]
      exact h
    · exact h

theorem Nears.after (h : w.Nears since) (hsound : w.Sound) (hsilent : Silent w.peer run)
    {clock : Nat} (hrun : w.OnTime window clock run)
    (hcount : (w.after window run).count < UInt32.size) : (w.after window run).Nears since := by
  induction run generalizing w clock with
  | nil => exact h
  | cons c run ih =>
    obtain ⟨-, htime, hrest⟩ := hrun
    obtain ⟨hc, hsilent⟩ := List.forall_mem_cons.mp hsilent
    have hcount' := Nat.lt_of_le_of_lt (count_le_after run) hcount
    exact ih (h.effect hsound hc htime hcount') (hsound.effect hcount') (by rwa [peer_effect])
      hrest hcount

/-! ## Silence from some point of a run on -/

/-- Both timers are armed. -/
structure Armed (w : Ward) : Prop where
  send : w.send.isSome
  monitor : w.monitor.isSome

theorem Armed.check (h : w.Armed) (now : Nat) : (w.check now).1.Armed := by
  rw [Ward.check]
  split_ifs
  · exact h
  · exact ⟨h.send, h.monitor⟩
  · exact ⟨by rw [restore, Option.isSome_map]; exact h.send,
      by rw [restore, Option.isSome_map]; exact h.monitor⟩
  · exact ⟨h.send, h.monitor⟩

theorem Armed.effect (h : w.Armed) (hc : c ≠ .stop) : (w.effect window c now).1.Armed := by
  cases c with
  | start => exact ⟨rfl, rfl⟩
  | stop => exact absurd rfl hc
  | timeout =>
    have hadvance : (w.advance now).Armed :=
      ⟨by rw [advance, Option.isSome_map]; exact h.send,
        by rw [advance, Option.isSome_map]; exact h.monitor⟩
    exact onTimeout_induction w now (P := Armed) (Q := Armed) (fun _ hv => ⟨hv.send, hv.monitor⟩)
      (fun _ hv => ⟨hv.send, hv.monitor⟩) (fun _ hv => hv.check now) (fun _ => hadvance)
      (fun _ => hadvance)
  | deliver sender m =>
    show (if sender = w.peer then w.onMessage m else w).Armed
    split
    · exact ⟨h.send, h.monitor⟩
    · exact h

theorem Armed.after (h : w.Armed) (hrun : ∀ c ∈ run, c.1 ≠ .stop) :
    (w.after window run).Armed := by
  induction run generalizing w with
  | nil => exact h
  | cons c run ih =>
    obtain ⟨hc, hrest⟩ := List.forall_mem_cons.mp hrun
    exact ih (h.effect hc) hrest

/-- As long as a detector is started, the timers of its peers are armed. -/
theorem armed_of_started (hrun : Started run) : (w.after window run).Armed := by
  obtain ⟨before, now, rest, rfl, hrest⟩ := hrun
  rw [after_append]
  show ((w.after window before).start now |>.after window rest).Armed
  exact Armed.after ⟨rfl, rfl⟩ hrest

/-- Once all is done that is due within twice the timeout, the peer is suspected for good. -/
theorem Nears.silenced (h : w.Nears since)
    (hlate : ∀ e ∈ w.deadlines, since + 2 * w.timeout < e.time) : w.Silenced 2 := by
  rcases h with ⟨hfresh, hsuspected⟩ | ⟨m, hm, hsoon⟩
  · exact ⟨fun _ => hfresh, fun _ => hsuspected⟩
  · have hlt := hlate _ (mem_deadlines_iff.mpr (Or.inr ⟨m, hm, rfl⟩))
    simp only at hlt
    omega

/-- When the silence begins, the next check comes within a timeout. -/
theorem nears_of_started {start : Nat} (hsound : w.Sound) (hsoon : w.Soon start)
    (hstarted : Started run) (hrun : w.OnTime window start run)
    (hcount : (w.after window run).count < UInt32.size) :
    (w.after window run).Nears (Detector.clock start run) := by
  obtain ⟨m, hm⟩ := Option.isSome_iff_exists.mp (armed_of_started (w := w) hstarted).monitor
  exact Or.inr ⟨m, hm, Or.inl (hsoon.after hsound hrun hcount m hm)⟩

variable {past first rest : List (Call × Nat)}

/-- In silence, two checks make the peer suspected for good, and so does twice its timeout. -/
theorem suspected_after (since : Nat) (hsound : w.Sound)
    (hsilent : Silent w.peer (first ++ rest))
    (hcount : (w.after window (first ++ rest)).count < UInt32.size)
    (henough : 2 ≤ w.checks window first ∨ (w.after window first).Nears since ∧
      ∀ e ∈ (w.after window first).deadlines,
        since + 2 * (w.after window first).timeout < e.time) :
    (w.after window (first ++ rest)).suspected = true := by
  obtain ⟨hsilent, hsilent'⟩ := List.forall_mem_append.mp hsilent
  rw [after_append] at hcount ⊢
  have hcount' := Nat.lt_of_le_of_lt (count_le_after rest) hcount
  have hsilenced : (w.after window first).Silenced 2 := by
    rcases henough with hchecks | ⟨hnears, hlate⟩
    · have hnone : w.Silenced 0 := ⟨nofun, nofun⟩
      exact (hnone.after hsound hsilent hcount').anti hchecks
    · exact hnears.silenced hlate
  have hpeer : Silent (w.after window first).peer rest := by rwa [peer_after]
  exact (hsilenced.after (hsound.after hcount') hpeer hcount).suspected_eq
    (Nat.le_add_left _ _)

end Ward

namespace Detector

variable {hs : List Host} {hosts : Hosts} {self p : HostId} {past first rest : List (Call × Nat)}

/-- **Completeness.**  A detector has been started, and from some point on no answers of the member
`p` come in any more.  Once `p` has been checked twice, it is suspected for good.  If nothing is
ever late, this is so as soon as all has been done that is due within twice the timeout that `p` has
then, reckoned from the last call before the silence. -/
theorem suspected_of_silence (hhosts : Hosts.ofList hs = .ok hosts)
    (hp : hosts.contains p = true) (hself : p ≠ self) (tuning : Tuning) (hstarted : Started past)
    (hsilent : Silent p (first ++ rest))
    (hwrap : ((ofHosts self hosts tuning).after (past ++ (first ++ rest))).links.Unwrapped) :
    let d := ofHosts self hosts tuning
    (2 ≤ (d.after past).checks p first →
      (d.after (past ++ (first ++ rest))).isSuspected p = true) ∧
    (d.OnTime 0 (past ++ first) →
      ∃ timeout, (d.after (past ++ first)).timeout? p = some timeout ∧
        ((∀ deadline ∈ (d.after (past ++ first)).nextDeadline?,
            clock 0 past + 2 * timeout < deadline) →
          (d.after (past ++ (first ++ rest))).isSuspected p = true)) := by
  intro d
  have hguards := guards_ofHosts (Hosts.lawful_ofList hhosts) hp hself tuning
  obtain ⟨w, rfl, hguards, hsound, hsoon⟩ :
      ∃ w : Ward, w.peer = p ∧ d.Guards w ∧ w.Sound ∧ w.Soon 0 :=
    ⟨_, rfl, hguards, Ward.sound_new _ _, nofun⟩
  -- The ward when the silence begins, after the first part of the silence, and in the end.
  have hpast := (hguards.after past).1
  have hfirst := (hguards.after (past ++ first)).1
  have hall := (hguards.after (past ++ (first ++ rest))).1
  have hcount := hall.count_lt hwrap
  rw [Ward.after_append] at hcount
  have hcount' := Nat.lt_of_le_of_lt (Ward.count_le_after _) hcount
  have hsilent' : Silent (w.after d.window past).peer (first ++ rest) := by
    rwa [Ward.peer_after]
  have hsuspected := hall.suspected_eq
  rw [Ward.peer_after, Ward.after_append] at hsuspected
  constructor
  · intro hchecks
    have hcheck := hpast.checks_eq first
    rw [Ward.peer_after, window_after] at hcheck
    rw [hcheck] at hchecks
    exact hsuspected.trans
      (Ward.suspected_after 0 (hsound.after hcount') hsilent' hcount (Or.inl hchecks))
  · intro hontime
    have htimeout := hfirst.timeout_eq
    rw [Ward.peer_after, Ward.after_append] at htimeout
    refine ⟨_, htimeout, fun hlate => ?_⟩
    have hontime' := hguards.onTime hontime
    rw [Ward.onTime_append] at hontime'
    have hnears := Ward.nears_of_started hsound hsoon hstarted hontime'.1 hcount'
    have hnears' := hnears.after (hsound.after hcount') (List.forall_mem_append.mp hsilent').1
      hontime'.2 (Nat.lt_of_le_of_lt (Ward.count_le_after rest) (by rwa [← Ward.after_append]))
    refine hsuspected.trans (Ward.suspected_after _ (hsound.after hcount') hsilent' hcount
      (Or.inr ⟨hnears', fun e he => ?_⟩))
    rw [← Ward.after_append] at he
    obtain ⟨deadline, hnext, hle⟩ := hfirst.nextDeadline?_le he
    exact Nat.lt_of_lt_of_le (hlate deadline hnext) hle

/-- The second member is suspected, and then answers the first heartbeat after all. -/
def lateAnswer : List (Call × Nat) :=
  [(.start, 0), (.timeout, 0), (.timeout, 100),
    (.deliver 2 ⟨.heartbeatAck, 2, 1, 1, 0, Bytes.ofWord 1⟩, 150)]

/-- The first check after that restores the second member with twice its timeout, and the second one
makes it suspected again. -/
theorem suspected_of_silence_lateAnswer :
    let d := ofHosts 1 .pair { heartbeat := 100 }
    let first : List (Call × Nat) := [(.timeout, 200), (.timeout, 400)]
    Started lateAnswer ∧ Silent 2 (first ++ [(.timeout, 600)]) ∧
      (d.after (lateAnswer ++ (first ++ [(.timeout, 600)]))).links.Unwrapped ∧
      (d.after lateAnswer).reports first = [.restore 2 200, .suspect 2] ∧
      2 ≤ (d.after lateAnswer).checks 2 first ∧ d.OnTime 0 (lateAnswer ++ first) ∧
      clock 0 lateAnswer + 2 * 200 < 600 ∧
      (d.after (lateAnswer ++ first)).nextDeadline? = some 600 ∧
      (d.after (lateAnswer ++ (first ++ [(.timeout, 600)]))).isSuspected 2 = true := by
  intro d first
  have hstarted : Started lateAnswer := ⟨[], 0, _, rfl, by decide⟩
  have hsilent : Silent 2 (first ++ [(.timeout, 600)]) := by decide
  have hwrap : (d.after (lateAnswer ++ (first ++ [(.timeout, 600)]))).links.Unwrapped := by
    decide +kernel
  have hchecks : 2 ≤ (d.after lateAnswer).checks 2 first := by decide +kernel
  have hontime : d.OnTime 0 (lateAnswer ++ first) := by decide +kernel
  have hnext : (d.after (lateAnswer ++ first)).nextDeadline? = some 600 := by
    rw [nextDeadline?_eq_earlier?]
    decide +kernel
  have htimeout : (d.after (lateAnswer ++ first)).timeout? 2 = some 200 := by decide +kernel
  obtain ⟨-, hlate⟩ := suspected_of_silence Hosts.ofList_pair (by decide +kernel) (by decide)
    { heartbeat := 100 } hstarted hsilent hwrap
  obtain ⟨timeout, htimeout', hsuspected⟩ := hlate hontime
  rw [htimeout] at htimeout'
  cases htimeout'
  refine ⟨hstarted, hsilent, hwrap, by decide +kernel, hchecks, hontime, by decide, hnext, ?_⟩
  refine hsuspected fun deadline hdeadline => ?_
  rw [hnext] at hdeadline
  cases hdeadline
  decide

end Detector

end Groupcast
