import Groupcast.Proofs.Agreement.Values
import Groupcast.Proofs.Trace

/-!
# Any calls to a slot

A slot trusts nobody.  Whatever it is called with, stale replies, forged ones and replies to rounds
that have not begun included, its counts agree with the hosts that have replied, what it collects
replies to is the last proposal that it gave out, and what it decides is that proposal.

A call comes to one of ten things (`Outcome`, `outcome_take`).  `Sound` is what each of them keeps,
and `calls_keep` is what a whole run of calls is then seen to keep.  The only thing that is asked of
the owner is that there are numbers for all the rounds.
-/

namespace Groupcast

/-- A call to a slot, with any arguments. -/
inductive SlotView.Call where
  | propose (values : ValueSet)
  | proposal (p : Proposal)
  | ack (sender : HostId) (round : UInt32) (quorum : Nat)
  | nack (sender : HostId) (round : UInt32) (values : ValueSet) (quorum : Nat)
  deriving DecidableEq

/-- What a call returns. -/
inductive SlotView.Answer where
  | nothing
  /-- A proposal to be sent to every member. -/
  | offer (p : Proposal)
  | reply (m : AgreementMessage)
  | decision (values : ValueSet)
  | refusal (e : CommandError)
  deriving DecidableEq

namespace SlotView

/-! ## Runs of calls -/

/-- What a call does. -/
def take (s : SlotView) : Call → SlotView × Answer
  | .propose values =>
    match s.propose values with
    | (s', .ok p) => (s', .offer p)
    | (s', .error e) => (s', .refusal e)
  | .proposal p => ((s.onProposal p).1, .reply (s.onProposal p).2)
  | .ack sender round quorum =>
    ((s.onAck sender round quorum).1, (s.onAck sender round quorum).2.elim .nothing .decision)
  | .nack sender round values quorum =>
    ((s.onNack sender round values quorum).1,
      (s.onNack sender round values quorum).2.elim .nothing .offer)

/-- A slot after a run of calls. -/
def after (slot : Slot) (calls : List Call) : SlotView :=
  calls.foldl (fun s c => (s.take c).1) (ofSlot slot)

/-- The proposal that a call returns, if it returns one. -/
@[simp] def Answer.offer? : Answer → Option Proposal
  | .offer p => some p
  | .nothing | .reply _ | .decision _ | .refusal _ => none

/-- The decision that a call returns, if it returns one. -/
@[simp] def Answer.decision? : Answer → Option ValueSet
  | .decision values => some values
  | .nothing | .offer _ | .reply _ | .refusal _ => none

/-- The proposals that a run gives out. -/
def offers (slot : Slot) (calls : List Call) : List Proposal :=
  collect (fun s c => (s.take c).1) (fun s c => (s.take c).2.offer?.toList) (ofSlot slot) calls

/-- The decisions that a run comes to. -/
def decisions (slot : Slot) (calls : List Call) : List ValueSet :=
  collect (fun s c => (s.take c).1) (fun s c => (s.take c).2.decision?.toList) (ofSlot slot) calls

/-- A host has accepted a round while the slot was in that round. -/
def Acked (slot : Slot) (calls : List Call) (id : HostId) (round : UInt32) : Prop :=
  ∃ earlier quorum, earlier ++ [.ack id round quorum] <+: calls ∧ (after slot earlier).round = round

/-! ## What a call comes to -/

/-- What a call comes to. -/
inductive Outcome (s : SlotView) : Call → SlotView → Answer → Prop where
  /-- Nothing can be proposed any more. -/
  | refused {values : ValueSet} (hdecided : s.isDecided = true) :
    Outcome s (.propose values) s (.refusal (.alreadyDecided s.slot))
  | begins {values : ValueSet} (hactive : s.isActive = false) (hdecided : s.isDecided = false) :
    Outcome s (.propose values) (s.beginning values) (.offer (s.beginning values).proposal)
  /-- What has been offered is offered again with more, in another round. -/
  | grows {values : ValueSet} (hactive : s.isActive = true) (hdecided : s.isDecided = false) :
    Outcome s (.propose values) (s.growing values).nextRound
      (.offer (s.growing values).nextRound.proposal)
  | absorbs (p : Proposal) : Outcome s (.proposal p) (s.onProposal p).1 (.reply (s.onProposal p).2)
  | skipsAck {id : HostId} {round : UInt32} {n : Nat}
    (hcounts : s.counts id round = false) : Outcome s (.ack id round n) s .nothing
  | accepts {id : HostId} {round : UInt32} {n : Nat}
    (hcounts : s.counts id round = true) :
    Outcome s (.ack id round n) (s.accepting id) .nothing
  | decides {id : HostId} {round : UInt32} {n : Nat}
    (hcounts : s.counts id round = true) (hactive : s.isActive = true)
    (hquorum : n ≤ s.acks + 1) :
    Outcome s (.ack id round n) (s.accepting id).deciding (.decision s.offered)
  | skipsNack {id : HostId} {round : UInt32} {values : ValueSet} {n : Nat}
    (hcounts : s.counts id round = false) : Outcome s (.nack id round values n) s .nothing
  | refuses {id : HostId} {round : UInt32} {values : ValueSet} {n : Nat}
    (hcounts : s.counts id round = true) :
    Outcome s (.nack id round values n) (s.refusing id values) .nothing
  /-- A refusal completes a majority of replies. -/
  | advances {id : HostId} {round : UInt32} {values : ValueSet} {n : Nat}
    (hcounts : s.counts id round = true) (hactive : s.isActive = true) :
    Outcome s (.nack id round values n) (s.refusing id values).nextRound
      (.offer (s.refusing id values).nextRound.proposal)

/-- A slot never forgets what it has accepted or has to propose, nor that it has decided. -/
structure Precedes (s s' : SlotView) : Prop where
  accepted : s.accepted.Within s'.accepted
  proposed : s.proposed.Within s'.proposed
  decided : s.isDecided = true → s'.isDecided = true

/-- What is always true of a slot that has given out the proposals `given` and has come to the
decisions `decided`, while hosts have accepted the rounds that `acked` says. -/
structure Sound (slot : Slot) (s : SlotView) (given : List Proposal) (decided : List ValueSet)
    (acked : HostId → UInt32 → Prop) : Prop where
  proper : s.Proper slot
  round_eq : s.round = UInt32.ofNat (given.length - 1)
  idle : s.isIdle = true → given = []
  /-- What a slot collects replies to, or has decided, is the last proposal that it gave out. -/
  last : s.isIdle = false → given.getLast? = some s.proposal
  within : s.isActive = true → s.offered.Within s.proposed
  size_responded : s.acks + s.nacks = s.responded.size
  acked : ∃ hosts : List HostId, hosts.Nodup ∧ hosts.length = s.acks ∧
    ∀ id ∈ hosts, id ∈ s.responded ∧ acked id s.round
  length_decisions : decided.length = if s.isDecided then 1 else 0

variable {slot : Slot} {calls : List Call} {s s' : SlotView} {c : Call} {a : Answer} {id : HostId}
  {round : UInt32} {values : ValueSet} {n : Nat}

/-! ## Runs and their last call -/

theorem after_append (c : Call) : after slot (calls ++ [c]) = ((after slot calls).take c).1 := by
  rw [after, List.foldl_append]
  rfl

theorem offers_append (c : Call) :
    offers slot (calls ++ [c]) =
      offers slot calls ++ ((after slot calls).take c).2.offer?.toList :=
  collect_append _ _ _ _ _

theorem decisions_append (c : Call) :
    decisions slot (calls ++ [c]) =
      decisions slot calls ++ ((after slot calls).take c).2.decision?.toList :=
  collect_append _ _ _ _ _

theorem Acked.mono (h : Acked slot calls id round) (c : Call) :
    Acked slot (calls ++ [c]) id round := by
  obtain ⟨earlier, quorum, hbefore, hround⟩ := h
  exact ⟨earlier, quorum, hbefore.trans (List.prefix_append calls [c]), hround⟩

/-! ## One call -/

theorem outcome_take (s : SlotView) (c : Call) : Outcome s c (s.take c).1 (s.take c).2 := by
  cases c with
  | propose values =>
    simp only [take]
    rcases s.propose_cases values with
      ⟨hdecided, h⟩ | ⟨hdecided, ⟨hactive, h⟩ | ⟨hactive, h⟩⟩ <;> rw [h]
    · exact .refused hdecided
    · exact .begins hactive hdecided
    · exact .grows hactive hdecided
  | proposal p => exact .absorbs p
  | ack id round n =>
    simp only [take]
    rcases s.onAck_cases id round n with ⟨hcounts, h⟩ | ⟨hcounts, ⟨hactive, hle, h⟩ | ⟨-, h⟩⟩ <;>
      rw [h]
    · exact .skipsAck hcounts
    · exact .decides hcounts hactive hle
    · exact .accepts hcounts
  | nack id round values n =>
    simp only [take]
    rcases s.onNack_cases id round values n with
      ⟨hcounts, h⟩ | ⟨hcounts, ⟨hactive, -, h⟩ | ⟨-, h⟩⟩ <;> rw [h]
    · exact .skipsNack hcounts
    · exact .advances hcounts hactive
    · exact .refuses hcounts

theorem Precedes.refl (s : SlotView) : s.Precedes s := ⟨.refl _, .refl _, id⟩

theorem Precedes.trans {s'' : SlotView} (h : s.Precedes s') (h' : s'.Precedes s'') :
    s.Precedes s'' :=
  ⟨h.accepted.trans h'.accepted, h.proposed.trans h'.proposed, fun hd => h'.decided (h.decided hd)⟩

theorem Outcome.precedes (h : Outcome s c s' a) : s.Precedes s' := by
  cases h with
  | refused | skipsAck | skipsNack => exact .refl s
  | begins | grows => exact ⟨.refl _, ValueSet.within_union_left _ _, id⟩
  | absorbs p =>
    refine ⟨within_accepted_onProposal p, ?_, id⟩
    rw [(s.onProposal_eq p).2.2.2]
    split
    · exact ValueSet.within_union_left _ _
    · exact .refl _
  | accepts => exact ⟨.refl _, .refl _, id⟩
  | decides => exact ⟨.refl _, .refl _, fun _ => rfl⟩
  | refuses => exact ⟨.refl _, ValueSet.within_union_left _ _, id⟩
  | advances => exact ⟨.refl _, ValueSet.within_union_left _ _, id⟩

variable {given : List Proposal} {decided : List ValueSet} {acked acked' : HostId → UInt32 → Prop}

theorem sound_ofSlot (slot : Slot) : Sound slot (ofSlot slot) [] [] acked where
  proper := proper_ofSlot slot
  round_eq := rfl
  idle _ := rfl
  last := nofun
  within := nofun
  size_responded := rfl
  acked := ⟨[], List.nodup_nil, rfl, nofun⟩
  length_decisions := rfl

/-- What is not decided has not been. -/
theorem Sound.decisions_eq_nil (h : Sound slot s given decided acked)
    (hdecided : s.isDecided = false) : decided = [] := by
  have hlength := h.length_decisions
  rw [hdecided] at hlength
  exact List.length_eq_zero_iff.mp hlength

/-- Who has proposed has given out a proposal. -/
theorem Sound.length_offers_pos (h : Sound slot s given decided acked)
    (hbusy : s.isIdle = false) : 0 < given.length := by
  rw [List.length_pos_iff]
  rintro rfl
  cases h.last hbusy

/-- A round that begins is the one that has been given out last, and nobody has replied to it. -/
theorem Sound.nextRound (h : Sound slot s given decided acked) (hactive : s.isActive = true) :
    Sound slot s.nextRound (given ++ [s.nextRound.proposal]) decided acked where
  proper := ⟨h.proper.slot_eq, h.proper.undecided⟩
  round_eq := by
    have hpos : 0 < given.length := h.length_offers_pos (isIdle_of_active hactive)
    show s.round + 1 = _
    rw [h.round_eq, ← UInt32.ofNat_one, ← UInt32.ofNat_add, List.length_append,
      List.length_singleton]
    congr 1
    omega
  idle hidle := by
    replace hidle : s.isIdle = true := hidle
    cases hidle.symm.trans (isIdle_of_active hactive)
  last _ := by simp
  within _ := .refl _
  size_responded := rfl
  acked := ⟨[], List.nodup_nil, rfl, nofun⟩
  length_decisions := h.length_decisions

/-- More that is to be proposed changes nothing else. -/
theorem Sound.growing (h : Sound slot s given decided acked) (values : ValueSet) :
    Sound slot (s.growing values) given decided acked :=
  { h with
    proper := ⟨h.proper.slot_eq, h.proper.undecided⟩
    within := fun hactive => (h.within hactive).trans (ValueSet.within_union_left _ _) }

/-- An acceptance is counted with its sender. -/
theorem Sound.accepting (h : Sound slot s given decided acked) (hcounts : s.counts id round = true)
    (hid : acked id s.round) : Sound slot (s.accepting id) given decided acked where
  proper := ⟨h.proper.slot_eq, h.proper.undecided⟩
  round_eq := h.round_eq
  idle := h.idle
  last := h.last
  within := h.within
  size_responded := by
    show s.acks + 1 + s.nacks = (s.responded.insert id).size
    rw [size_insert_responded hcounts, ← h.size_responded]
    omega
  acked := by
    obtain ⟨hosts, hnodup, hlength, hall⟩ := h.acked
    have hnew : id ∉ hosts := fun hmem => (counts_iff.mp hcounts).2 (hall id hmem).1
    refine ⟨id :: hosts, List.nodup_cons.mpr ⟨hnew, hnodup⟩, congrArg (· + 1) hlength, ?_⟩
    intro i hi
    rcases List.mem_cons.mp hi with rfl | hold
    · exact ⟨Std.ExtTreeSet.mem_insert_self, hid⟩
    · exact ⟨Std.ExtTreeSet.mem_insert.mpr (Or.inr (hall i hold).1), (hall i hold).2⟩
  length_decisions := h.length_decisions

/-- A refusal is counted, and what it carries is to be proposed. -/
theorem Sound.refusing (h : Sound slot s given decided acked)
    (hcounts : s.counts id round = true) (values : ValueSet) :
    Sound slot (s.refusing id values) given decided acked where
  proper := ⟨h.proper.slot_eq, h.proper.undecided⟩
  round_eq := h.round_eq
  idle := h.idle
  last := h.last
  within hactive := (h.within hactive).trans (ValueSet.within_union_left _ _)
  size_responded := by
    show s.acks + (s.nacks + 1) = (s.responded.insert id).size
    rw [size_insert_responded hcounts, ← h.size_responded]
    omega
  acked := by
    obtain ⟨hosts, hnodup, hlength, hall⟩ := h.acked
    refine ⟨hosts, hnodup, hlength, fun i hi => ⟨?_, (hall i hi).2⟩⟩
    exact Std.ExtTreeSet.mem_insert.mpr (Or.inr (hall i hi).1)
  length_decisions := h.length_decisions

/-- The first proposal is given out in the round that there is. -/
theorem Sound.beginning (h : Sound slot s given decided acked) (hactive : s.isActive = false)
    (hdecided : s.isDecided = false) (values : ValueSet) :
    Sound slot (s.beginning values) (given ++ [(s.beginning values).proposal]) decided acked where
  proper := ⟨h.proper.slot_eq, fun _ => hdecided⟩
  round_eq := by
    have hround : s.round = UInt32.ofNat (given.length - 1) := h.round_eq
    rw [h.idle (isIdle_eq_true.mpr ⟨hactive, hdecided⟩)] at hround ⊢
    exact hround
  idle := nofun
  last _ := by simp
  within _ := .refl _
  size_responded := h.size_responded
  acked := h.acked
  length_decisions := h.length_decisions

/-- What others propose does not touch what is offered. -/
theorem Sound.onProposal (h : Sound slot s given decided acked) (p : Proposal) :
    Sound slot (s.onProposal p).1 given decided acked where
  proper := ⟨h.proper.slot_eq, h.proper.undecided⟩
  round_eq := h.round_eq
  idle := h.idle
  last := h.last
  within hactive := by
    replace hactive : s.isActive = true := hactive
    rw [(s.onProposal_eq p).2.2.2, isIdle_of_active hactive]
    exact h.within hactive
  size_responded := h.size_responded
  acked := h.acked
  length_decisions := h.length_decisions

/-- A slot that collects replies can decide what it has offered.  It has not decided before. -/
theorem Sound.deciding (h : Sound slot s given decided acked) (hactive : s.isActive = true) :
    Sound slot s.deciding given (decided ++ [s.offered]) acked where
  proper := ⟨h.proper.slot_eq, nofun⟩
  round_eq := h.round_eq
  idle hidle := by
    cases hidle.symm.trans (isIdle_of_decided rfl : s.deciding.isIdle = false)
  last _ := h.last (isIdle_of_active hactive)
  within := nofun
  size_responded := h.size_responded
  acked := h.acked
  length_decisions := by
    rw [h.decisions_eq_nil (h.proper.undecided hactive)]
    rfl

/-- **Every call keeps a slot sound.** -/
theorem Sound.step (h : Sound slot s given decided acked) (ho : Outcome s c s' a)
    (hc : ∀ id n, c = .ack id s.round n → acked id s.round) :
    Sound slot s' (given ++ a.offer?.toList) (decided ++ a.decision?.toList) acked := by
  cases ho with
  | refused | skipsAck | skipsNack => simpa using h
  | @begins values hactive hdecided => simpa using h.beginning hactive hdecided values
  | grows hactive _ => simpa using (h.growing _).nextRound hactive
  | absorbs p => simpa using h.onProposal p
  | @accepts id round n hcounts =>
    obtain ⟨rfl, -⟩ := counts_iff.mp hcounts
    simpa using h.accepting hcounts (hc id n rfl)
  | @decides id round n hcounts hactive hquorum =>
    obtain ⟨rfl, -⟩ := counts_iff.mp hcounts
    simpa [SlotView.accepting] using (h.accepting hcounts (hc id n rfl)).deciding hactive
  | @refuses id round values n hcounts => simpa using h.refusing hcounts values
  | @advances id round values n hcounts hactive =>
    simpa using (h.refusing hcounts values).nextRound hactive

theorem Sound.mono (h : Sound slot s given decided acked)
    (hmono : ∀ id round, acked id round → acked' id round) :
    Sound slot s given decided acked' := by
  obtain ⟨hosts, hnodup, hlength, hall⟩ := h.acked
  exact { h with
    acked := ⟨hosts, hnodup, hlength, fun i hi => (hall i hi).imp_right (hmono i s.round)⟩ }

/-! ## Whole runs -/

/-- **A slot is sound after any calls.** -/
theorem sound_after (slot : Slot) (calls : List Call) :
    Sound slot (after slot calls) (offers slot calls) (decisions slot calls)
      (Acked slot calls) := by
  induction calls using List.reverseRecOn with
  | nil => exact sound_ofSlot slot
  | append_singleton calls c ih =>
    rw [after_append, offers_append, decisions_append]
    refine (ih.mono fun _ _ h => h.mono c).step (outcome_take _ c) ?_
    rintro id n rfl
    exact ⟨calls, n, List.prefix_rfl, rfl⟩

/-- What has happened to a slot stays so, whatever it is called with then. -/
theorem precedes_after {earlier : List Call} (h : earlier <+: calls) :
    (after slot earlier).Precedes (after slot calls) := by
  induction calls using List.reverseRecOn with
  | nil =>
    rw [List.prefix_nil.mp h]
    exact .refl _
  | append_singleton calls c ih =>
    rcases List.prefix_concat_iff.mp h with rfl | h
    · exact .refl _
    · rw [after_append]
      exact (ih h).trans (outcome_take _ c).precedes

/-- Rounds are counted by the proposals, as long as there are numbers for them. -/
theorem round_after (h : (offers slot calls).length ≤ UInt32.size) :
    (after slot calls).round.toNat = (offers slot calls).length - 1 := by
  rw [(sound_after slot calls).round_eq]
  have hpos : 0 < UInt32.size := by decide
  exact UInt32.toNat_ofNat_of_lt' (by omega)

/-- A decision is on the last proposal that has been given out.  It comes with an acceptance of the
round of that proposal, with which a quorum of hosts has accepted that round. -/
structure Earned (slot : Slot) (earlier : List Call) (c : Call) (values : ValueSet) : Prop where
  last : ∃ p, (offers slot earlier).getLast? = some p ∧ p.values = values ∧
    p.round = (after slot earlier).round
  majority : ∃ id n, c = .ack id (after slot earlier).round n ∧ ∃ hosts : List HostId,
    hosts.Nodup ∧ n ≤ hosts.length ∧
      ∀ id ∈ hosts, Acked slot (earlier ++ [c]) id (after slot earlier).round

theorem earned_of_decision {earlier : List Call}
    (h : ((after slot earlier).take c).2 = .decision values) : Earned slot earlier c values := by
  have hsound := sound_after slot earlier
  have houtcome := outcome_take (after slot earlier) c
  generalize hs : ((after slot earlier).take c).1 = s' at houtcome
  rw [h] at houtcome
  cases houtcome with
  | @decides id round n hcounts hactive hquorum =>
    obtain ⟨rfl, hnew⟩ := counts_iff.mp hcounts
    obtain ⟨hosts, hnodup, hlength, hall⟩ := hsound.acked
    refine ⟨⟨_, hsound.last (isIdle_of_active hactive), rfl, rfl⟩, id, n, rfl, id :: hosts,
      List.nodup_cons.mpr ⟨fun hmem => hnew (hall id hmem).1, hnodup⟩, ?_, ?_⟩
    · rw [List.length_cons, hlength]
      exact hquorum
    · intro i hi
      rcases List.mem_cons.mp hi with rfl | hold
      · exact ⟨earlier, n, List.prefix_rfl, rfl⟩
      · exact (hall i hold).2.mono _

/-- **A slot keeps its word, whatever it is called with.**  What it has accepted, what it has to
propose, its round and its decision stand; it collects no replies once it has decided, and decides
once at most; what it offers is what it has given out last, and so is what it decides, with a quorum
behind it; values that it refuses change nothing. -/
theorem calls_keep (slot : Slot) (calls : List Call)
    (hrounds : (offers slot calls).length ≤ UInt32.size) :
    (∀ earlier, earlier <+: calls → (after slot earlier).Precedes (after slot calls) ∧
        (after slot earlier).round ≤ (after slot calls).round) ∧
      ¬ ((after slot calls).isActive = true ∧ (after slot calls).isDecided = true) ∧
      (decisions slot calls).length ≤ 1 ∧
      (after slot calls).acks + (after slot calls).nacks = (after slot calls).responded.size ∧
      ((after slot calls).isActive = true →
        (after slot calls).offered.Within (after slot calls).proposed ∧
          ∃ p, (offers slot calls).getLast? = some p ∧
            p.values = (after slot calls).offered ∧ p.round = (after slot calls).round) ∧
      Throughout (fun earlier c =>
        (∀ values, ((after slot earlier).take c).2 = .decision values →
          Earned slot earlier c values) ∧
        ∀ values e, c = .propose values → ((after slot earlier).take c).2 = .refusal e →
          e = .alreadyDecided slot ∧ (after slot earlier).isDecided = true ∧
            ((after slot earlier).take c).1 = after slot earlier) calls := by
  have hsound := sound_after slot calls
  refine ⟨fun earlier h => ?_, ?_, ?_, hsound.size_responded, fun hactive => ?_,
    fun earlier c _ => ⟨fun values h => earned_of_decision h, ?_⟩⟩
  · have hle := (collect_mono h : offers slot earlier <+: offers slot calls).length_le
    refine ⟨precedes_after h, ?_⟩
    rw [UInt32.le_iff_toNat_le, round_after hrounds, round_after (hle.trans hrounds)]
    exact Nat.sub_le_sub_right hle 1
  · rintro ⟨hactive, hdecided⟩
    cases hdecided.symm.trans (hsound.proper.undecided hactive)
  · rw [hsound.length_decisions]
    split <;> omega
  · exact ⟨hsound.within hactive, _, hsound.last (isIdle_of_active hactive), rfl, rfl⟩
  · rintro values e rfl h
    have houtcome := outcome_take (after slot earlier) (.propose values)
    rw [h] at houtcome
    generalize ((after slot earlier).take (.propose values)).1 = s' at houtcome ⊢
    cases houtcome with
    | refused hdecided =>
      exact ⟨by rw [(sound_after slot earlier).proper.slot_eq], hdecided, rfl⟩

/-- An acceptance that comes before any proposal, a refusal that begins a second round, acceptances
that are late or repeated, and calls after the decision. -/
def contested : List Call :=
  [.ack 7 0 2, .proposal ⟨4, 1, .ofList [5]⟩, .propose (.ofList [1]), .nack 2 0 (.ofList [9]) 2,
    .ack 3 0 2, .ack 3 1 2, .ack 3 1 2, .ack 4 1 2, .propose (.ofList [3]),
    .nack 5 1 (.ofList [8]) 2]

theorem calls_keep_contested :
    (offers 1 contested).length ≤ UInt32.size ∧
      offers 1 contested = [⟨0, 1, .ofList [1, 5]⟩, ⟨1, 1, .ofList [1, 5, 9]⟩] ∧
      decisions 1 contested = [.ofList [1, 5, 9]] ∧
      Earned 1 (contested.take 7) (.ack 4 1 2) (.ofList [1, 5, 9]) ∧
      ((after 1 (contested.take 8)).take (.propose (.ofList [3]))).1 =
        after 1 (contested.take 8) := by
  have hrounds : (offers 1 contested).length ≤ UInt32.size := by decide +kernel
  obtain ⟨-, -, -, -, -, hcalls⟩ := calls_keep 1 contested hrounds
  refine ⟨hrounds, by decide +kernel, by decide +kernel, ?_, ?_⟩
  · exact (hcalls _ _ (by decide +kernel)).1 _ (by decide +kernel)
  · exact ((hcalls _ (.propose (.ofList [3])) (by decide +kernel)).2 _ (.alreadyDecided 1) rfl
      (by decide +kernel)).2.2

end SlotView

end Groupcast
