import Groupcast.Proofs.Detector.Traffic
import Groupcast.Proofs.Trace
import Mathlib.Data.Set.Card

/-!
# What an answer proves

A check finds a peer alive if heartbeats to it have been answered since the last check, and it uses
them up (`Checkup`).  So an answer proves only once that the peer is alive, however often it comes
in again, and it proves nothing unless its heartbeat has been sent and is still outstanding then
(`evidence_used_once`).

To keep the books on a peer, one remembers which heartbeats have been answered in time and which of
them checks have used up (`Ward.Credited`).  The latter are not outstanding any more, and their ids
are less than those of the heartbeats to come, so they can not come to be outstanding again.
-/

namespace Groupcast

/-- What comes of checking a peer. -/
structure Checkup where
  /-- Whether the peer is found to be alive, and so is not suspected afterwards. -/
  alive : Bool
  /-- The heartbeats that have been answered since the last check, which are used up. -/
  evidence : List UInt32
  deriving DecidableEq

/-- If there is evidence whenever the peer is found alive, this is not more often than there are
pieces of evidence. -/
theorem countP_alive_le {xs : List Checkup} (h : ∀ x ∈ xs, x.alive = true ↔ x.evidence ≠ []) :
    xs.countP Checkup.alive ≤ (xs.flatMap Checkup.evidence).length := by
  induction xs with
  | nil => exact Nat.le_refl _
  | cons x xs ih =>
    obtain ⟨hx, hxs⟩ := List.forall_mem_cons.mp h
    have hrest := ih hxs
    rw [List.countP_cons, List.flatMap_cons, List.length_append]
    split
    · have hpos := List.length_pos_of_ne_nil (hx.mp ‹_›)
      omega
    · omega

namespace Ward

open Detector (Call)

variable {w : Ward} {window now : Nat} {c : Call} {run : List (Call × Nat)}
  {answered : UInt32 → Prop} {used : List UInt32}

/-! ## Checks of a ward -/

/-- What comes of checking the peer now. -/
def checkup (w : Ward) (now : Nat) : Checkup := ⟨!(w.check now).1.suspected, w.watch.fresh⟩

/-- What comes of checking the peer when timers fire, in order. -/
def checkupsOn (w : Ward) (window now : Nat) : List Beat → List Checkup
  | [] => []
  | b :: bs =>
    (if b = .monitor w.peer then [w.checkup now] else []) ++
      (w.onBeat window now b).1.checkupsOn window now bs

/-- What comes of checking the peer in a call. -/
def checkupsIn (w : Ward) (window : Nat) (c : Call) (now : Nat) : List Checkup :=
  match c with
  | .timeout => (w.advance now).checkupsOn window now (w.due now)
  | .start | .stop | .deliver _ _ => []

/-- What comes of all checks of the peer in a run. -/
def checkups (w : Ward) (window : Nat) : List (Call × Nat) → List Checkup
  | [] => []
  | (c, now) :: run =>
    w.checkupsIn window c now ++ (w.effect window c now).1.checkups window run

theorem checkups_append (run : List (Call × Nat)) (c : Call) (now : Nat) :
    w.checkups window (run ++ [(c, now)]) =
      w.checkups window run ++ (w.after window run).checkupsIn window c now := by
  induction run generalizing w with
  | nil => exact List.append_nil _
  | cons c' run ih =>
    rw [List.cons_append, checkups, ih, ← List.append_assoc]
    rfl

theorem length_checkupsOn (bs : List Beat) :
    (w.checkupsOn window now bs).length = bs.count (.monitor w.peer) := by
  induction bs generalizing w with
  | nil => rfl
  | cons b bs ih =>
    rw [checkupsOn, List.length_append, ih, peer_onBeat, List.count_cons, Nat.add_comm]
    by_cases hb : b = .monitor w.peer <;> simp [hb]

/-- Each time that the peer is checked something comes of it. -/
theorem length_checkups (run : List (Call × Nat)) :
    (w.checkups window run).length = w.checks window run := by
  induction run generalizing w with
  | nil => rfl
  | cons c run ih =>
    obtain ⟨c, now⟩ := c
    rw [checkups, List.length_append, ih, checks]
    congr 1
    cases c with
    | timeout =>
      show ((w.advance now).checkupsOn window now (w.due now)).length = _
      have hcount := nodup_due.count (a := .monitor w.peer) (l := w.due now)
      rw [length_checkupsOn, show (w.advance now).peer = w.peer from rfl, hcount]
      simp
    | start | stop | deliver => rfl

/-- A peer is found alive on evidence, and on nothing else. -/
theorem alive_checkup_iff : (w.checkup now).alive = true ↔ (w.checkup now).evidence ≠ [] := by
  show (!(w.check now).1.suspected) = true ↔ w.watch.fresh ≠ []
  rw [check]
  split_ifs with hfresh hsuspected hsuspected
  · simp [hfresh, hsuspected]
  · simp [hfresh]
  · simp [hfresh, restore]
  · simp [hfresh, hsuspected]

theorem alive_iff_of_mem_checkupsOn {bs : List Beat} {x : Checkup}
    (hx : x ∈ w.checkupsOn window now bs) : x.alive = true ↔ x.evidence ≠ [] := by
  induction bs generalizing w with
  | nil => cases hx
  | cons b bs ih =>
    rcases List.mem_append.mp hx with hfirst | hrest
    · split at hfirst
      · rw [List.mem_singleton.mp hfirst]
        exact alive_checkup_iff
      · cases hfirst
    · exact ih hrest

theorem alive_iff_of_mem_checkupsIn {x : Checkup} (hx : x ∈ w.checkupsIn window c now) :
    x.alive = true ↔ x.evidence ≠ [] := by
  cases c with
  | timeout => exact alive_iff_of_mem_checkupsOn hx
  | start | stop | deliver => cases hx

theorem alive_iff_of_mem_checkups {x : Checkup} (hx : x ∈ w.checkups window run) :
    x.alive = true ↔ x.evidence ≠ [] := by
  induction run generalizing w with
  | nil => cases hx
  | cons c run ih =>
    rcases List.mem_append.mp hx with hfirst | hrest
    · exact alive_iff_of_mem_checkupsIn hfirst
    · exact ih hrest

/-! ## The books on a ward -/

/-- Some heartbeats have been answered in time, and checks have used up some of these.  What counts
as answered has been, and what is used up is not outstanding and can not be again. -/
structure Credited (w : Ward) (window : Nat) (answered : UInt32 → Prop) (used : List UInt32) :
    Prop where
  sound : w.Sound
  tidy : w.watch.Tidy window
  answered_of_mem : ∀ i ∈ w.watch.answered, answered i
  answered_of_used : ∀ i ∈ used, answered i
  toNat_le_of_used : ∀ i ∈ used, i.toNat ≤ w.count
  not_mem_of_used : ∀ i ∈ used, i ∉ w.watch.outstanding
  nodup : used.Nodup

theorem credited_new (p : HostId) (timeout window : Nat) (answered : UInt32 → Prop) :
    (new p timeout).Credited window answered [] where
  sound := sound_new p timeout
  tidy := Watch.tidy_empty window
  answered_of_mem _ hi := absurd hi Std.ExtTreeSet.not_mem_empty
  answered_of_used := nofun
  toNat_le_of_used := nofun
  not_mem_of_used := nofun
  nodup := .nil

theorem Credited.mono {answered' : UInt32 → Prop} (h : w.Credited window answered used)
    (hmono : ∀ i, answered i → answered' i) : w.Credited window answered' used :=
  { h with
    answered_of_mem := fun i hi => hmono i (h.answered_of_mem i hi)
    answered_of_used := fun i hi => hmono i (h.answered_of_used i hi) }

/-- A new heartbeat has not been used up, since its id is greater. -/
theorem Credited.sendHeartbeat (h : w.Credited window answered used)
    (hcount : w.count + 1 < UInt32.size) :
    (w.sendHeartbeat window).Credited window answered used where
  sound := h.sound.sendHeartbeat hcount
  tidy := h.tidy.sent w.nextId
  answered_of_mem i hi := h.answered_of_mem i (Watch.mem_answered_sent.mp hi).1
  answered_of_used := h.answered_of_used
  toNat_le_of_used i hi := Nat.le_succ_of_le (h.toNat_le_of_used i hi)
  not_mem_of_used i hi ho := by
    have hle := h.toNat_le_of_used i hi
    rcases (Watch.mem_outstanding_sent.mp ho).1 with rfl | hold
    · rw [toNat_nextId hcount] at hle
      omega
    · exact h.not_mem_of_used i hi hold
  nodup := h.nodup

/-- A check uses up heartbeats that no earlier check has used up. -/
theorem Credited.check (h : w.Credited window answered used) (now : Nat) :
    (w.check now).1.Credited window answered (used ++ w.watch.fresh) := by
  refine ⟨h.sound.check now, ?_, ?_, ?_, ?_, ?_, ?_⟩
  · rw [watch_check]
    exact h.tidy.forget _
  · rw [watch_check]
    exact fun i hi => h.answered_of_mem i (Watch.mem_answered_forget.mp hi).1
  · refine List.forall_mem_append.mpr ⟨h.answered_of_used, fun i hi => ?_⟩
    exact h.answered_of_mem i (Watch.mem_fresh.mp hi).2
  · rw [count_check]
    refine List.forall_mem_append.mpr ⟨h.toNat_le_of_used, fun i hi => ?_⟩
    exact h.sound.upto i (Or.inl (Watch.mem_fresh.mp hi).1)
  · rw [watch_check]
    refine List.forall_mem_append.mpr ⟨fun i hi ho => ?_, fun i hi ho => ?_⟩
    · exact h.not_mem_of_used i hi (Watch.mem_outstanding_forget.mp ho).1
    · exact (Watch.mem_outstanding_forget.mp ho).2 hi
  · refine h.nodup.append ((Watch.nodup_toList _).filter _) fun i hi hfresh => ?_
    exact h.not_mem_of_used i hi (Watch.mem_fresh.mp hfresh).1

theorem Credited.onBeats (h : w.Credited window answered used) {bs : List Beat}
    (hpeer : ∀ b ∈ bs, b.peer = w.peer)
    (hcount : (w.onBeats window now bs).1.count < UInt32.size) :
    (w.onBeats window now bs).1.Credited window answered
      (used ++ (w.checkupsOn window now bs).flatMap Checkup.evidence) := by
  induction bs generalizing w used with
  | nil =>
    show w.Credited window answered (used ++ [])
    rwa [List.append_nil]
  | cons b bs ih =>
    obtain ⟨hb, hrest⟩ := List.forall_mem_cons.mp hpeer
    rw [checkupsOn, List.flatMap_append, ← List.append_assoc]
    refine ih ?_ (by rwa [peer_onBeat]) hcount
    cases b with
    | send q =>
      have hless : w.count + 1 < UInt32.size :=
        Nat.lt_of_le_of_lt (count_le_onBeats (w := w.sendHeartbeat window) bs) hcount
      show (w.sendHeartbeat window).Credited window answered (used ++ [])
      rw [List.append_nil]
      exact h.sendHeartbeat hless
    | monitor q =>
      obtain rfl : q = w.peer := hb
      rw [if_pos rfl, List.flatMap_singleton]
      exact h.check now

/-- An answer counts if its heartbeat is outstanding, and so it has to be in the books. -/
theorem Credited.onMessage (h : w.Credited window answered used) {m : Message}
    (hm : m.kind = .heartbeatAck → ∀ i, m.ackedId = .ok i → i ∈ w.watch.outstanding → answered i) :
    (w.onMessage m).Credited window answered used where
  sound := h.sound.onMessage m
  tidy := by
    simp only [Ward.onMessage]
    repeat' split
    · exact h.tidy.answer _
    all_goals exact h.tidy
  answered_of_mem i hi := by
    simp only [Ward.onMessage] at hi
    split at hi
    · split at hi
      · rename_i hkind _ id hid
        rcases Watch.mem_answered_answer.mp hi with hold | ⟨rfl, ho⟩
        · exact h.answered_of_mem i hold
        · exact hm hkind i hid ho
      · exact h.answered_of_mem i hi
    all_goals exact h.answered_of_mem i hi
  answered_of_used := h.answered_of_used
  toNat_le_of_used i hi := Nat.le_trans (h.toNat_le_of_used i hi) (count_le_onMessage m)
  not_mem_of_used i hi ho := h.not_mem_of_used i hi (mem_outstanding_onMessage.mp ho)
  nodup := h.nodup

theorem Credited.effect (h : w.Credited window answered used)
    (hanswer : ∀ m, c = .deliver w.peer m → m.kind = .heartbeatAck →
      ∀ i, m.ackedId = .ok i → i ∈ w.watch.outstanding → answered i)
    (hcount : (w.effect window c now).1.count < UInt32.size) :
    (w.effect window c now).1.Credited window answered
      (used ++ (w.checkupsIn window c now).flatMap Checkup.evidence) := by
  have hsound := h.sound.effect hcount
  cases c with
  | start | stop =>
    rw [checkupsIn, List.flatMap_nil, List.append_nil]
    exact { h with sound := hsound }
  | timeout =>
    have hadvance : (w.advance now).Credited window answered used :=
      { h with sound := h.sound.advance now }
    have hpeer : ∀ b ∈ w.due now, b.peer = w.peer := fun _ => peer_of_mem_due
    exact hadvance.onBeats hpeer hcount
  | deliver sender m =>
    rw [checkupsIn, List.flatMap_nil, List.append_nil]
    show (if sender = w.peer then w.onMessage m else w).Credited window answered used
    split
    · rename_i hsender
      subst hsender
      exact h.onMessage (hanswer m rfl)
    · exact h

/-- The evidence that a check finds has been answered before the call. -/
theorem Credited.answered_of_evidence (h : w.Credited window answered used)
    (hcount : (w.effect window c now).1.count < UInt32.size) {x : Checkup}
    (hx : x ∈ w.checkupsIn window c now) : ∀ i ∈ x.evidence, answered i := by
  intro i hi
  cases c with
  | timeout =>
    have hlater := h.effect (c := .timeout) nofun hcount
    exact hlater.answered_of_used i (List.mem_append_right _ (List.mem_flatMap.mpr ⟨x, hx, hi⟩))
  | start | stop | deliver => cases hx

/-! ## Heartbeats that are outstanding -/

/-- When timers fire, a heartbeat comes to be outstanding only if it is sent. -/
theorem mem_outstanding_onBeats {bs : List Beat} (hpeer : ∀ b ∈ bs, b.peer = w.peer)
    (hnodup : bs.Nodup) {i : UInt32} (hi : i ∈ (w.onBeats window now bs).1.watch.outstanding) :
    i ∈ w.watch.outstanding ∨ .send w.peer ∈ bs ∧ i = w.nextId := by
  induction bs generalizing w with
  | nil => exact Or.inl hi
  | cons b bs ih =>
    obtain ⟨hb, hrest⟩ := List.forall_mem_cons.mp hpeer
    obtain ⟨hfresh, hdistinct⟩ := List.nodup_cons.mp hnodup
    have hlater := ih (by rwa [peer_onBeat]) hdistinct hi
    rw [peer_onBeat] at hlater
    cases b with
    | send q =>
      obtain rfl : q = w.peer := hb
      have hsent := hlater.resolve_right fun hagain => hfresh hagain.1
      rcases (Watch.mem_outstanding_sent.mp hsent).1 with rfl | hold
      · exact Or.inr ⟨List.mem_cons_self, rfl⟩
      · exact Or.inl hold
    | monitor q =>
      refine hlater.imp (fun hmem => ?_) fun hsend => ⟨List.mem_cons_of_mem _ hsend.1, ?_⟩
      · rw [show ((w.onBeat window now (.monitor q)).1.watch) = _ from watch_check] at hmem
        exact (Watch.mem_outstanding_forget.mp hmem).1
      · exact hsend.2.trans nextId_check

theorem mem_outstanding_effect {i : UInt32}
    (hi : i ∈ (w.effect window c now).1.watch.outstanding) : i ∈ w.watch.outstanding ∨
      c = .timeout ∧ .send w.peer ∈ w.due now ∧ i = w.nextId := by
  cases c with
  | start | stop => exact Or.inl hi
  | timeout =>
    have hpeer : ∀ b ∈ w.due now, b.peer = w.peer := fun _ => peer_of_mem_due
    have hbeats := mem_outstanding_onBeats (w := w.advance now) hpeer nodup_due hi
    exact hbeats.imp_right fun hsend => ⟨rfl, hsend⟩
  | deliver sender m =>
    left
    replace hi : i ∈ (if sender = w.peer then w.onMessage m else w).watch.outstanding := hi
    split at hi
    · exact mem_outstanding_onMessage.mp hi
    · exact hi

end Ward

namespace Detector

variable {d : Detector} {w : Ward} {p : HostId} {now : Nat} {run : List (Call × Nat)}
  {i : UInt32} {timeout : Nat}

/-! ## Checks of a detector -/

/-- The heartbeats to a peer that have been answered since the last check. -/
def fresh (d : Detector) (p : HostId) : List UInt32 :=
  match d.watches[p]? with
  | some w => w.fresh
  | none => []

/-- What comes of checking a peer now. -/
def checkup (d : Detector) (p : HostId) (now : Nat) : Checkup :=
  ⟨!(d.check p now).1.isSuspected p, d.fresh p⟩

/-- What comes of checking a peer when timers fire, in order. -/
def checkupsOn (d : Detector) (p : HostId) (now : Nat) : List Beat → List Checkup
  | [] => []
  | b :: bs =>
    (if b = .monitor p then [d.checkup p now] else []) ++
      (d.onBeat b now).state.checkupsOn p now bs

/-- What comes of checking a peer in a call. -/
def checkupsIn (d : Detector) (p : HostId) (c : Call) (now : Nat) : List Checkup :=
  match c with
  | .timeout =>
    let advanced : Detector :=
      { d with links := (d.links.onTimeout now).state, timers := d.timers.advance now }
    advanced.checkupsOn p now (d.timers.due now)
  | .start | .stop | .deliver _ _ => []

/-- What comes of all checks of a peer in a run. -/
def checkups (d : Detector) (p : HostId) : List (Call × Nat) → List Checkup
  | [] => []
  | (c, now) :: run => d.checkupsIn p c now ++ (d.effect c now).state.checkups p run

/-- A heartbeat to a peer is outstanding. -/
def Awaits (d : Detector) (p : HostId) (i : UInt32) : Prop :=
  ∃ w, d.watches[p]? = some w ∧ i ∈ w.outstanding

/-- In a run, an answer of a peer has come in that names a heartbeat which had been sent to the peer
and was outstanding then. -/
def AnsweredInTime (d : Detector) (p : HostId) (run : List (Call × Nat)) (i : UInt32) : Prop :=
  ∃ past m now, past ++ [(Call.deliver p m, now)] <+: run ∧ m.kind = .heartbeatAck ∧
    m.ackedId = .ok i ∧ i ∈ heartbeatsTo p (d.emitted past) ∧ (d.after past).Awaits p i

theorem AnsweredInTime.mono {earlier : List (Call × Nat)} (h : d.AnsweredInTime p earlier i)
    (hle : earlier <+: run) : d.AnsweredInTime p run i := by
  obtain ⟨past, m, now, hpast, hanswer⟩ := h
  exact ⟨past, m, now, hpast.trans hle, hanswer⟩

theorem Guards.checkup (h : d.Guards w) (now : Nat) : d.checkup w.peer now = w.checkup now := by
  have hsuspected := (h.check now).1.suspected_eq
  rw [Ward.peer_check] at hsuspected
  rw [Detector.checkup, Ward.checkup, ← hsuspected, fresh, h.watch_eq]
  rfl

/-- A detector checks a peer when the ward does. -/
theorem Guards.checkupsOn (h : d.Guards w) (bs : List Beat) (now : Nat) :
    d.checkupsOn w.peer now bs =
      w.checkupsOn d.window now (bs.filter fun b => b.peer = w.peer) := by
  induction bs generalizing d w with
  | nil => rfl
  | cons b bs ih =>
    by_cases hb : b.peer = w.peer
    · have hrest := ih (h.onBeat hb now).1
      rw [Ward.peer_onBeat, window_onBeat] at hrest
      rw [List.filter_cons_of_pos (by simpa using hb), Detector.checkupsOn, Ward.checkupsOn, hrest,
        h.checkup]
    · have hrest := ih (h.onBeat_of_ne hb now).1
      rw [window_onBeat] at hrest
      have hnot : b ≠ .monitor w.peer := by
        rintro rfl
        exact hb rfl
      rw [List.filter_cons_of_neg (by simpa using hb), Detector.checkupsOn, hrest, if_neg hnot,
        List.nil_append]

theorem Guards.checkupsIn (h : d.Guards w) (c : Call) (now : Nat) :
    d.checkupsIn w.peer c now = w.checkupsIn d.window c now := by
  cases c with
  | start | stop | deliver => rfl
  | timeout =>
    have hbeats := (h.advance now).checkupsOn (d.timers.due now) now
    rw [show (w.advance now).peer = w.peer from rfl, h.filter_due now] at hbeats
    exact hbeats

theorem Guards.checkups (h : d.Guards w) (run : List (Call × Nat)) :
    d.checkups w.peer run = w.checkups d.window run := by
  induction run generalizing d w with
  | nil => rfl
  | cons c run ih =>
    have hrest := ih (h.effect c.1 c.2).1
    rw [Ward.peer_effect, window_effect] at hrest
    show d.checkupsIn w.peer c.1 c.2 ++ _ = w.checkupsIn d.window c.1 c.2 ++ _
    rw [hrest, h.checkupsIn]

/-! ## Heartbeats on the wire -/

/-- The ids of the messages of a kind to a host among datagrams. -/
def idsTo (kind : Kind) (p : HostId) (sent : List Datagram) : List UInt32 :=
  sent.filterMap fun e =>
    match Message.decode e.bytes with
    | .ok m => if m.kind = kind ∧ m.receiver = p then some m.id else none
    | .error _ => none

theorem heartbeatsTo_eq_idsTo (sent : List Datagram) :
    heartbeatsTo p sent = idsTo .heartbeat p sent := rfl

theorem exists_of_mem_idsTo {kind : Kind} (hkind : kind.isControl = true) {sent : List Datagram}
    (hi : i ∈ idsTo kind p sent) :
    ∃ m : Message, m.ControlIn p sent ∧ m.kind = kind ∧ m.id = i := by
  obtain ⟨e, he, hfound⟩ := List.mem_filterMap.mp hi
  cases hdecode : Message.decode e.bytes with
  | error cause =>
    simp only [hdecode] at hfound
    cases hfound
  | ok m =>
    simp only [hdecode, Option.ite_none_right_eq_some, Option.some.injEq] at hfound
    obtain ⟨⟨rfl, hreceiver⟩, hid⟩ := hfound
    exact ⟨m, ⟨hkind, hreceiver, e, he, Message.decode_eq_ok_iff.mp hdecode⟩, rfl, hid⟩

/-- Heartbeats share their ids with no answers. -/
theorem not_mem_idsTo_of_heartbeat {g : Links} {sent : List Datagram} (h : g.Stamped p sent)
    (hi : i ∈ heartbeatsTo p sent) : i ∉ idsTo .heartbeatAck p sent := by
  intro hanswer
  rw [heartbeatsTo_eq_idsTo] at hi
  obtain ⟨m, hm, hkind, rfl⟩ := exists_of_mem_idsTo rfl hi
  obtain ⟨m', hm', hkind', hid⟩ := exists_of_mem_idsTo rfl hanswer
  rw [h.eq_of_id_eq m' m hm' hm hid, hkind] at hkind'
  cases hkind'

/-- **What is outstanding has been sent.** -/
theorem Guards.mem_heartbeatsTo_of_outstanding (h : d.Guards w)
    (hnone : ∀ i, i ∉ w.watch.outstanding) (run : List (Call × Nat))
    (hi : i ∈ (w.after d.window run).watch.outstanding) :
    i ∈ heartbeatsTo w.peer (d.emitted run) := by
  induction run using List.reverseRecOn generalizing i with
  | nil => exact absurd hi (hnone i)
  | append_singleton run c ih =>
    obtain ⟨c, now⟩ := c
    rw [emitted_append, mem_heartbeatsTo_append]
    rw [Ward.after_append] at hi
    replace hi : i ∈ ((w.after d.window run).effect d.window c now).1.watch.outstanding := hi
    rcases Ward.mem_outstanding_effect hi with hold | ⟨rfl, hdue, rfl⟩
    · exact Or.inl (ih hold)
    · have hsent := (h.after run).1.mem_heartbeatsTo hdue
      rw [Ward.peer_after] at hsent
      right
      show _ ∈ heartbeatsTo w.peer (((d.after run).onTimeout now).sent ++ [])
      rw [List.append_nil]
      exact hsent

/-! ## The books on a run -/

/-- In every run the heartbeats that have been used up are ones that have been answered in time, and
none of them has been used up twice. -/
theorem Guards.credited (h : d.Guards (.new p timeout)) (run : List (Call × Nat))
    (hcount : ((Ward.new p timeout).after d.window run).count < UInt32.size) :
    ((Ward.new p timeout).after d.window run).Credited d.window (d.AnsweredInTime p run)
      (((Ward.new p timeout).checkups d.window run).flatMap Checkup.evidence) := by
  induction run using List.reverseRecOn with
  | nil => exact Ward.credited_new p timeout d.window _
  | append_singleton run c ih =>
    obtain ⟨c, now⟩ := c
    have hpast := ih (Nat.lt_of_le_of_lt (Ward.count_le_of_earlier (List.prefix_append _ _)) hcount)
    rw [Ward.after_append] at hcount ⊢
    rw [Ward.checkups_append, List.flatMap_append]
    refine (hpast.mono fun i hi => hi.mono (List.prefix_append _ _)).effect ?_ hcount
    rintro m rfl hkind i hid hi
    have hpeer : ((Ward.new p timeout).after d.window run).peer = p := Ward.peer_after
    have hwatch := (h.after run).1.watch_eq
    rw [hpeer] at hwatch ⊢
    refine ⟨run, m, now, List.prefix_rfl, hkind, hid, ?_, _, hwatch, hi⟩
    exact h.mem_heartbeatsTo_of_outstanding (fun _ => Std.ExtTreeSet.not_mem_empty) run hi

variable {hs : List Host} {hosts : Hosts} {self : HostId}

/-- **An answer proves only once that a peer is alive.**  In every run, with whatever comes in, as
long as the ids of the links do not wrap, and for every peer `p`:

* what counts as answered is outstanding, what is outstanding are heartbeats that have been sent to
  `p`, and no answers to it, and there are no more of them than the window has room for;
* each check of `p` finds it alive exactly on evidence, and the evidence is heartbeats which `p` has
  answered before, after they had been sent and while they were outstanding;
* no heartbeat is evidence twice;
* so `p` passes no more checks than it has answered heartbeats. -/
theorem evidence_used_once (hhosts : Hosts.ofList hs = .ok hosts) (hp : hosts.contains p = true)
    (hself : p ≠ self) (tuning : Tuning) (run : List (Call × Nat))
    (hwrap : ((ofHosts self hosts tuning).after run).links.Unwrapped) :
    let d := ofHosts self hosts tuning
    (∃ w, (d.after run).watches[p]? = some w ∧ (∀ i ∈ w.answered, i ∈ w.outstanding) ∧
      w.outstanding.size ≤ max tuning.heartbeatWindow 1 ∧
      ∀ i ∈ w.outstanding, i ∈ heartbeatsTo p (d.emitted run) ∧
        i ∉ idsTo .heartbeatAck p (d.emitted run)) ∧
      (d.checkups p run).length = d.checks p run ∧
      Throughout (fun earlier c => ∀ x ∈ (d.after earlier).checkupsIn p c.1 c.2,
        (x.alive = true ↔ x.evidence ≠ []) ∧ ∀ i ∈ x.evidence, d.AnsweredInTime p earlier i) run ∧
      ((d.checkups p run).flatMap Checkup.evidence).Nodup ∧
      (d.checkups p run).countP Checkup.alive ≤ {i | d.AnsweredInTime p run i}.ncard := by
  intro d
  have hlawful := Hosts.lawful_ofList hhosts
  have hguards : d.Guards (.new p tuning.heartbeat) := guards_ofHosts hlawful hp hself tuning
  have hcount := (hguards.after run).1.count_lt hwrap
  have hcredited := hguards.credited run hcount
  have hcheckups : d.checkups p run = _ := hguards.checkups run
  have hpeer : ∀ earlier, ((Ward.new p tuning.heartbeat).after d.window earlier).peer = p :=
    fun _ => Ward.peer_after
  refine ⟨?_, ?_, fun earlier c hle x hx => ?_, ?_, ?_⟩
  · have hwatch := (hguards.after run).1.watch_eq
    rw [hpeer] at hwatch
    have hstamped : (d.after run).links.Stamped p (d.emitted run) :=
      (Links.stamped_toPeers hlawful List.filter_sublist tuning p).driven (driven_emitted d run)
        hwrap
    refine ⟨_, hwatch, hcredited.tidy.outstanding_of_answered, hcredited.tidy.size_le,
      fun i hi => ?_⟩
    have hsent : i ∈ heartbeatsTo p (d.emitted run) :=
      hguards.mem_heartbeatsTo_of_outstanding (fun _ => Std.ExtTreeSet.not_mem_empty) run hi
    exact ⟨hsent, not_mem_idsTo_of_heartbeat hstamped hsent⟩
  · rw [hcheckups, Ward.length_checkups]
    exact (hguards.checks_eq run).symm
  · have hless := Nat.lt_of_le_of_lt (Ward.count_le_of_earlier hle) hcount
    have hpast := hguards.credited earlier
      (Nat.lt_of_le_of_lt (Ward.count_le_of_earlier (List.prefix_append _ _)) hless)
    have hin := (hguards.after earlier).1.checkupsIn c.1 c.2
    rw [hpeer, window_after] at hin
    rw [hin] at hx
    rw [Ward.after_append] at hless
    exact ⟨Ward.alive_iff_of_mem_checkupsIn hx, hpast.answered_of_evidence hless hx⟩
  · rw [hcheckups]
    exact hcredited.nodup
  · rw [hcheckups]
    refine Nat.le_trans (countP_alive_le fun x hx => Ward.alive_iff_of_mem_checkups hx) ?_
    have : Finite UInt32 := .of_injective UInt32.toFin fun _ _ => UInt32.toFin_inj.mp
    rw [← List.toFinset_card_of_nodup hcredited.nodup, ← Set.ncard_coe_finset]
    refine Set.ncard_le_ncard (fun i hi => ?_)
    exact hcredited.answered_of_used i (List.mem_toFinset.mp hi)

/-- An answer of the second member that names a heartbeat. -/
def answerTo (id : UInt32) : Call := .deliver 2 ⟨.heartbeatAck, 2, 1, 1, 0, Bytes.ofWord id⟩

/-- The second member answers a heartbeat that is yet to be sent, and answers the first one once and
again.  Then its own heartbeat is answered, and it takes that answer for a heartbeat. -/
def replayedAnswers : List (Call × Nat) :=
  [(.start, 0), (.timeout, 0), (answerTo 2, 10), (answerTo 1, 20), (answerTo 1, 30),
    (.timeout, 100), (answerTo 1, 110), (.timeout, 200),
    (.deliver 2 ⟨.heartbeat, 2, 1, 1, 0, []⟩, 210), (answerTo 4, 220), (.timeout, 300)]

/-- Only the first answer to the first heartbeat counts, and it counts for one check. -/
theorem evidence_used_once_replayedAnswers :
    let d := ofHosts 1 .pair { heartbeat := 100 }
    (d.after replayedAnswers).links.Unwrapped ∧
      idsTo .heartbeatAck 2 (d.emitted replayedAnswers) = [4] ∧
      d.checkups 2 replayedAnswers = [⟨true, [1]⟩, ⟨false, []⟩, ⟨false, []⟩] ∧
      d.AnsweredInTime 2 (replayedAnswers.take 5) 1 ∧
      1 ≤ {i | d.AnsweredInTime 2 replayedAnswers i}.ncard := by
  intro d
  have hwrap : (d.after replayedAnswers).links.Unwrapped := by decide +kernel
  have hanswers : idsTo .heartbeatAck 2 (d.emitted replayedAnswers) = [4] := by decide +kernel
  have hcheckups : d.checkups 2 replayedAnswers = [⟨true, [1]⟩, ⟨false, []⟩, ⟨false, []⟩] := by
    decide +kernel
  have hfirst : (d.after (replayedAnswers.take 5)).checkupsIn 2 .timeout 100 = [⟨true, [1]⟩] := by
    decide +kernel
  have hp : Hosts.pair.contains 2 = true := by decide +kernel
  obtain ⟨-, -, hevidence, -, hcount⟩ := evidence_used_once Hosts.ofList_pair hp (by decide)
    { heartbeat := 100 } replayedAnswers hwrap
  rw [hcheckups] at hcount
  refine ⟨hwrap, hanswers, hcheckups, ?_, hcount⟩
  refine (hevidence (replayedAnswers.take 5) (.timeout, 100) ⟨_, rfl⟩ ⟨true, [1]⟩ ?_).2 1 ?_
  · rw [hfirst]
    exact List.mem_singleton.mpr rfl
  · exact List.mem_singleton.mpr rfl

end Detector

end Groupcast
