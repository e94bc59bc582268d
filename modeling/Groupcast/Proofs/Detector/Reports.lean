import Groupcast.Proofs.Detector.Completeness
import Groupcast.Proofs.Trace
import Mathlib.Algebra.Group.Nat.Defs

/-!
# What a detector reports

What a detector reports of a peer is a tale with a simple plot: the peer is suspected, restored,
suspected again, and so on, and each time that it is restored its timeout is doubled.  The tale so
far tells what the detector believes of the peer now, and what it can report next (`Ward.Tale`).
This is so whatever comes in and however late the detector is called, since a check says what it
does to the peer (`Ward.Tale.check`) and nothing else changes what is believed.

A host that is not a peer is not even known to the detector (`Ignores`), and so nothing is ever
reported of it.
-/

namespace Groupcast

/-- How often reports restore a host. -/
def restores (told : List Suspicion) : Nat :=
  told.countP fun
    | .restore _ _ => true
    | .suspect _ => false

/-- What is to be reported next of a host that has had the timeout `timeout` at first. -/
def nextReport (p : HostId) (timeout : Nat) (told : List Suspicion) : Suspicion :=
  if told.getLast? = some (.suspect p) then .restore p (timeout * 2 ^ (restores told + 1))
  else .suspect p

namespace Ward

open Detector (Call Started)

variable {w : Ward} {window now timeout : Nat} {c : Call} {run : List (Call × Nat)}
  {told : List Suspicion}

/-- What has been reported of a peer says whether it is suspected and what its timeout is, which is
also the period of its timers. -/
structure Tale (w : Ward) (timeout : Nat) (told : List Suspicion) : Prop where
  suspected_iff : w.suspected = true ↔ told.getLast? = some (.suspect w.peer)
  timeout_eq : w.timeout = timeout * 2 ^ restores told
  follows : Throughout (fun earlier x => x = nextReport w.peer timeout earlier) told
  send_period : ∀ s ∈ w.send, s.period = w.timeout
  monitor_period : ∀ m ∈ w.monitor, m.period = w.timeout

theorem tale_new (p : HostId) (timeout : Nat) : (new p timeout).Tale timeout [] where
  suspected_iff := ⟨nofun, nofun⟩
  timeout_eq := (Nat.mul_one timeout).symm
  follows earlier x hx := by simp at hx
  send_period := nofun
  monitor_period := nofun

/-- A check reports what is to be reported next, if it reports anything. -/
theorem Tale.check (h : w.Tale timeout told) (now : Nat) :
    (w.check now).1.Tale timeout (told ++ (w.check now).2) := by
  have hnext := h.suspected_iff
  rw [Ward.check]
  split_ifs with hfresh hsuspected hsuspected
  · rwa [List.append_nil]
  · -- The peer is suspected, as it has been restored or never been suspected.
    rw [Bool.not_eq_true] at hsuspected
    rw [hsuspected] at hnext
    have hlast : told.getLast? ≠ some (.suspect w.peer) := fun hlast =>
      Bool.false_ne_true (hnext.mpr hlast)
    refine ⟨?_, ?_, throughout_append.mpr ⟨h.follows, ?_⟩, h.send_period, h.monitor_period⟩
    · simp
    · rw [restores, List.countP_append]
      exact h.timeout_eq
    · exact (if_neg hlast).symm
  · -- The peer is restored, as it has been suspected.
    have htimeout : 2 * w.timeout = timeout * 2 ^ (restores told + 1) := by
      rw [h.timeout_eq, Nat.pow_succ, Nat.mul_comm, Nat.mul_assoc]
    refine ⟨?_, ?_, throughout_append.mpr ⟨h.follows, ?_⟩, ?_, ?_⟩
    · simp [Ward.restore]
    · rw [restores, List.countP_append]
      exact htimeout
    · rw [htimeout]
      exact (if_pos (hnext.mp hsuspected)).symm
    · intro s hs
      obtain ⟨-, -, rfl⟩ := Option.map_eq_some_iff.mp hs
      rfl
    · intro m hm
      obtain ⟨-, -, rfl⟩ := Option.map_eq_some_iff.mp hm
      rfl
  · rw [List.append_nil]
    exact { h with }

theorem Tale.onBeats (h : w.Tale timeout told) (bs : List Beat) :
    (w.onBeats window now bs).1.Tale timeout (told ++ (w.onBeats window now bs).2) := by
  induction bs generalizing w told with
  | nil =>
    show w.Tale timeout (told ++ [])
    rwa [List.append_nil]
  | cons b bs ih =>
    show Tale _ timeout (told ++ ((w.onBeat window now b).2 ++ _))
    rw [← List.append_assoc]
    refine ih ?_
    cases b with
    | send q =>
      show (w.sendHeartbeat window).Tale timeout (told ++ [])
      rw [List.append_nil]
      exact { h with }
    | monitor q => exact h.check now

theorem Tale.advance (h : w.Tale timeout told) (now : Nat) :
    (w.advance now).Tale timeout told where
  suspected_iff := h.suspected_iff
  timeout_eq := h.timeout_eq
  follows := h.follows
  send_period s hs := by
    obtain ⟨s₀, hs₀, rfl⟩ := Option.map_eq_some_iff.mp hs
    rw [Timer.period_advance]
    exact h.send_period s₀ hs₀
  monitor_period m hm := by
    obtain ⟨m₀, hm₀, rfl⟩ := Option.map_eq_some_iff.mp hm
    rw [Timer.period_advance]
    exact h.monitor_period m₀ hm₀

/-- **Whatever is called, the tale goes on as it must.** -/
theorem Tale.effect (h : w.Tale timeout told) (c : Call) :
    (w.effect window c now).1.Tale timeout (told ++ (w.effect window c now).2) := by
  cases c with
  | start =>
    show (w.start now).Tale timeout (told ++ [])
    rw [List.append_nil]
    refine { h with send_period := ?_, monitor_period := ?_ }
    · rintro s ⟨rfl⟩
      rfl
    · rintro m ⟨rfl⟩
      rfl
  | stop =>
    show w.stop.Tale timeout (told ++ [])
    rw [List.append_nil]
    exact { h with send_period := nofun, monitor_period := nofun }
  | timeout => exact (h.advance now).onBeats (w.due now)
  | deliver sender m =>
    show Tale (if sender = w.peer then w.onMessage m else w) timeout (told ++ [])
    rw [List.append_nil]
    split
    · exact { h with }
    · exact h

theorem Tale.after (h : w.Tale timeout told) (window : Nat) (run : List (Call × Nat)) :
    (w.after window run).Tale timeout (told ++ w.reports window run) := by
  induction run generalizing w told with
  | nil =>
    show w.Tale timeout (told ++ [])
    rwa [List.append_nil]
  | cons c run ih =>
    show Tale _ timeout (told ++ ((w.effect window c.1 c.2).2 ++ _))
    rw [← List.append_assoc]
    exact ih (h.effect c.1)

end Ward

namespace Detector

variable {d : Detector} {p q : HostId} {now : Nat} {run : List (Call × Nat)}

/-! ## Hosts that are not peers -/

/-- A host is none of the peers of a detector. -/
structure Ignores (d : Detector) (p : HostId) : Prop where
  watch_eq : d.watches[p]? = none
  timeout_eq : d.timeouts[p]? = none
  suspected_eq : d.suspected.contains p = false

/-- Neither the member itself nor a host outside the group is a peer. -/
theorem ignores_ofHosts {self : HostId} {hosts : Hosts} (hlawful : hosts.Lawful)
    (hp : ¬ (hosts.contains p = true ∧ p ≠ self)) (tuning : Tuning) :
    (ofHosts self hosts tuning).Ignores p := by
  have hlisted : ∀ {α : Type} (a : α), (Std.ExtTreeMap.ofList
      ((hosts.toList.filter fun h => h.id ≠ self).map fun h => (h.id, a)) :
        Std.ExtTreeMap HostId α)[p]? = none := by
    intro α a
    refine Std.ExtTreeMap.getElem?_ofList_of_contains_eq_false ?_
    rw [List.contains_eq_mem, decide_eq_false_iff_not]
    intro hmem
    simp only [List.map_map, List.mem_map, Function.comp_apply, List.mem_filter] at hmem
    obtain ⟨host, ⟨hhost, hself⟩, rfl⟩ := hmem
    obtain ⟨id, hget⟩ := Hosts.mem_toList_iff.mp hhost
    have hid := hlawful.id_eq hget
    subst hid
    exact hp ⟨Hosts.contains_of_get? hget, by simpa using hself⟩
  exact ⟨hlisted Watch.empty, hlisted tuning.heartbeat, Std.ExtTreeSet.contains_empty⟩

theorem Ignores.links (h : d.Ignores p) (links : Links) :
    Ignores { d with links := links } p where
  watch_eq := h.watch_eq
  timeout_eq := h.timeout_eq
  suspected_eq := h.suspected_eq

theorem Ignores.timers (h : d.Ignores p) (timers : Timers Beat) :
    Ignores { d with timers := timers } p where
  watch_eq := h.watch_eq
  timeout_eq := h.timeout_eq
  suspected_eq := h.suspected_eq

theorem Ignores.modifyWatch (h : d.Ignores p) (q : HostId) (f : Watch → Watch) :
    (d.modifyWatch q f).Ignores p where
  watch_eq := by
    show (d.watches.modify q f)[p]? = none
    by_cases hq : q = p
    · subst hq
      rw [Std.ExtTreeMap.getElem?_modify_self, h.watch_eq]
      rfl
    · simp only [Std.ExtTreeMap.getElem?_modify, Std.compare_eq_iff_eq, if_neg hq]
      exact h.watch_eq
  timeout_eq := h.timeout_eq
  suspected_eq := h.suspected_eq

theorem Ignores.sendHeartbeat (h : d.Ignores p) (q : HostId) (now : Nat) :
    (d.sendHeartbeat q now).state.Ignores p := by
  rw [Detector.sendHeartbeat]
  split
  · exact h
  · exact (h.links _).modifyWatch q _

theorem Ignores.restore (h : d.Ignores p) (hq : q ≠ p) (now : Nat) :
    (d.restore q now).1.Ignores p ∧ ∀ x, (d.restore q now).2 = some x → x.peer ≠ p := by
  have hsuspected : (d.suspected.erase q).contains p = false := by
    simp [Std.ExtTreeSet.contains_erase, h.suspected_eq]
  simp only [Detector.restore]
  split
  · exact ⟨⟨h.watch_eq, h.timeout_eq, hsuspected⟩,
      fun x hx => absurd hx.symm (Option.some_ne_none x)⟩
  · rename_i timeout _
    refine ⟨⟨h.watch_eq, ?_, hsuspected⟩, ?_⟩
    · simp only [Std.ExtTreeMap.getElem?_insert, Std.compare_eq_iff_eq, if_neg hq]
      exact h.timeout_eq
    · rintro x ⟨rfl⟩
      exact hq

/-- Checking a host that is not a peer does nothing, and checking a peer does not matter to it. -/
theorem Ignores.check (h : d.Ignores p) (q : HostId) (now : Nat) :
    (d.check q now).1.Ignores p ∧ ∀ x, (d.check q now).2 = some x → x.peer ≠ p := by
  rw [Detector.check]
  split
  · exact ⟨h, fun x hx => absurd hx.symm (Option.some_ne_none x)⟩
  · rename_i w hwatch
    have hq : q ≠ p := by
      rintro rfl
      rw [h.watch_eq] at hwatch
      cases hwatch
    split
    · split
      · exact ⟨h, fun x hx => absurd hx.symm (Option.some_ne_none x)⟩
      · refine ⟨⟨h.watch_eq, h.timeout_eq, ?_⟩, ?_⟩
        · show (d.suspected.insert q).contains p = false
          simp [Std.ExtTreeSet.contains_insert, h.suspected_eq, hq]
        · rintro x ⟨rfl⟩
          exact hq
    · have hforget := h.modifyWatch q (·.forget w.fresh)
      simp only
      split
      · exact hforget.restore hq now
      · exact ⟨hforget, fun x hx => absurd hx.symm (Option.some_ne_none x)⟩

theorem Ignores.onBeats (h : d.Ignores p) (bs : List Beat) (now : Nat) :
    (d.onBeats now bs).state.Ignores p ∧ ∀ x ∈ (d.onBeats now bs).result, x.peer ≠ p := by
  induction bs generalizing d with
  | nil => exact ⟨h, nofun⟩
  | cons b bs ih =>
    have hbeat : (d.onBeat b now).state.Ignores p ∧
        ∀ x ∈ (d.onBeat b now).result, x.peer ≠ p := by
      cases b with
      | send q => exact ⟨h.sendHeartbeat q now, nofun⟩
      | monitor q =>
        obtain ⟨hstate, hresult⟩ := h.check q now
        exact ⟨hstate, fun x hx => hresult x (Option.mem_toList.mp hx)⟩
    obtain ⟨hstate, hresult⟩ := ih hbeat.1
    exact ⟨hstate, List.forall_mem_append.mpr ⟨hbeat.2, hresult⟩⟩

theorem Ignores.deliver (h : d.Ignores p) (sender : HostId) (m : Message) (now : Nat) :
    (d.deliver sender m now).state.Ignores p := by
  have hlinks := h.links (d.links.deliver sender m).state
  simp only [Detector.deliver, Detector.onHeartbeat]
  repeat' split
  · exact hlinks
  · exact hlinks.links _
  · exact hlinks
  · exact hlinks.modifyWatch sender _
  · exact hlinks
  · exact hlinks
  · exact hlinks

theorem Ignores.effect (h : d.Ignores p) (c : Call) (now : Nat) :
    (d.effect c now).state.Ignores p ∧ ∀ x ∈ (d.effect c now).result, x.peer ≠ p := by
  cases c with
  | start => exact ⟨h.timers _, nofun⟩
  | stop => exact ⟨(h.timers .empty).links d.links.stop, nofun⟩
  | timeout =>
    have hadvance := (h.timers (d.timers.advance now)).links (d.links.onTimeout now).state
    exact hadvance.onBeats (d.timers.due now) now
  | deliver sender m => exact ⟨h.deliver sender m now, nofun⟩

theorem Ignores.after (h : d.Ignores p) (run : List (Call × Nat)) :
    (d.after run).Ignores p ∧ ∀ x ∈ d.reports run, x.peer ≠ p := by
  induction run generalizing d with
  | nil => exact ⟨h, nofun⟩
  | cons c run ih =>
    obtain ⟨hfirst, hresult⟩ := h.effect c.1 c.2
    obtain ⟨hafter, hrest⟩ := ih hfirst
    exact ⟨hafter, List.forall_mem_append.mpr ⟨hresult, hrest⟩⟩

/-! ## All hosts -/

/-- The reports of a run on one host. -/
def reportsOn (d : Detector) (p : HostId) (run : List (Call × Nat)) : List Suspicion :=
  (d.reports run).filter fun x => x.peer = p

variable {hs : List Host} {hosts : Hosts}

/-- **What a detector believes of a host is what it has reported.**  In every run, with whatever
comes in and at whatever times, and for every host `p`:

* the reports on `p` suspect it and restore it in turn, and each one that restores it gives its new
  timeout;
* `p` is suspected exactly if this has been reported last;
* reports are on other members only;
* the timeout of another member is the one that is set, doubled as often as it has been restored;
* as long as the detector is started, the two timers of another member go by its timeout. -/
theorem reports_consistent (hhosts : Hosts.ofList hs = .ok hosts) (self : HostId) (tuning : Tuning)
    (run : List (Call × Nat)) (p : HostId) :
    let d := ofHosts self hosts tuning
    let told := d.reportsOn p run
    let timeout := tuning.heartbeat * 2 ^ restores told
    Throughout (fun earlier x => x = nextReport p tuning.heartbeat earlier) told ∧
      ((d.after run).isSuspected p = true ↔ told.getLast? = some (.suspect p)) ∧
      (told ≠ [] → hosts.contains p = true ∧ p ≠ self) ∧
      ((d.after run).timeout? p =
        if hosts.contains p = true ∧ p ≠ self then some timeout else none) ∧
      (Started run → hosts.contains p = true → p ≠ self →
        (d.after run).timers.period? (.send p) = some timeout ∧
          (d.after run).timers.period? (.monitor p) = some timeout) := by
  intro d told timeout
  have hlawful := Hosts.lawful_ofList hhosts
  by_cases hp : hosts.contains p = true ∧ p ≠ self
  · obtain ⟨hguards, htold⟩ := (guards_ofHosts hlawful hp.1 hp.2 tuning).after run
    have htale := (Ward.tale_new p tuning.heartbeat).after d.window run
    have harmed : Started run → ((Ward.new p tuning.heartbeat).after d.window run).Armed :=
      Ward.armed_of_started
    have hpeer : ((Ward.new p tuning.heartbeat).after d.window run).peer = p := Ward.peer_after
    rw [List.nil_append, ← show told = _ from htold] at htale
    -- What the ward of the host is like in the end, however it has come to be so.
    generalize (Ward.new p tuning.heartbeat).after d.window run = w at hguards htale harmed hpeer
    subst hpeer
    refine ⟨htale.follows, ?_, fun _ => hp, ?_, fun hstarted _ _ => ?_⟩
    · rw [← htale.suspected_iff, ← hguards.suspected_eq]
      rfl
    · rw [if_pos hp]
      exact hguards.timeout_eq.trans (congrArg some htale.timeout_eq)
    · obtain ⟨s, hs⟩ := Option.isSome_iff_exists.mp (harmed hstarted).send
      obtain ⟨m, hm⟩ := Option.isSome_iff_exists.mp (harmed hstarted).monitor
      have hsend : s.period = timeout := (htale.send_period s hs).trans htale.timeout_eq
      have hmonitor : m.period = timeout := (htale.monitor_period m hm).trans htale.timeout_eq
      rw [Timers.period?, Timers.period?, hguards.send_eq, hguards.monitor_eq, hs, hm, ← hmonitor]
      exact ⟨congrArg some (hsend.trans hmonitor.symm), rfl⟩
  · obtain ⟨hignores, hothers⟩ := (ignores_ofHosts hlawful hp tuning).after run
    have htold : told = [] :=
      List.filter_eq_nil_iff.mpr fun x hx => by simpa using hothers x hx
    rw [htold]
    refine ⟨fun earlier x hx => by simp at hx, ?_, fun hne => absurd rfl hne, ?_, ?_⟩
    · rw [show (d.after run).isSuspected p = false from hignores.suspected_eq]
      exact ⟨nofun, nofun⟩
    · rw [if_neg hp]
      exact hignores.timeout_eq
    · exact fun _ hmember hself => absurd ⟨hmember, hself⟩ hp

/-- After the late answer the second member is restored and suspected again, while messages of
strangers come in. -/
def twiceSuspected : List (Call × Nat) :=
  lateAnswer ++ [(.deliver 9 ⟨.heartbeatAck, 9, 1, 1, 0, Bytes.ofWord 1⟩, 160), (.timeout, 700),
    (.deliver 1 ⟨.heartbeat, 1, 1, 1, 0, []⟩, 710), (.timeout, 300), (.timeout, 1000)]

theorem reports_consistent_twiceSuspected :
    let d := ofHosts 1 .pair { heartbeat := 100 }
    Started twiceSuspected ∧
      d.reports twiceSuspected = [.suspect 2, .restore 2 200, .suspect 2] ∧
      (d.after twiceSuspected).timeout? 2 = some 200 ∧
      (d.after twiceSuspected).isSuspected 2 = true ∧
      (d.after twiceSuspected).timers.period? (.monitor 2) = some 200 := by
  intro d
  have hstarted : Started twiceSuspected := ⟨[], 0, _, rfl, by decide⟩
  have hreports : d.reports twiceSuspected = [.suspect 2, .restore 2 200, .suspect 2] := by
    decide +kernel
  have htold : d.reportsOn 2 twiceSuspected = [.suspect 2, .restore 2 200, .suspect 2] := by
    rw [reportsOn, hreports]
    rfl
  obtain ⟨-, hsuspected, -, htimeout, hperiod⟩ :=
    reports_consistent Hosts.ofList_pair 1 { heartbeat := 100 } twiceSuspected 2
  rw [htold] at hsuspected htimeout hperiod
  exact ⟨hstarted, hreports, htimeout.trans (by decide +kernel), hsuspected.mpr rfl,
    (hperiod hstarted (by decide +kernel) (by decide)).2⟩

end Detector

end Groupcast
