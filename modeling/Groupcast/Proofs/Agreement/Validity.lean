import Groupcast.Proofs.Agreement.Safety
import Groupcast.Proofs.Agreement.Values
import Mathlib.Data.List.TakeWhile

/-!
# What a decision contains

A decision contains all that its member has proposed for the slot, and all that the member had been
offered for it before its own first proposal; and it contains nothing but what some member has
proposed (`decision_valid`).

For the one half, every view covers at all times what has to be in the decision
(`covers_of_reachable`).  For the other, all values in the views of a slot and in the messages about
it have been proposed by some member (`proposed_of_reachable`): each step takes values only from
there, or from a proposal of its own.
-/

namespace Groupcast

variable {hosts : Hosts} {tuning : HostId → Tuning} {watches : HostId → Bool}
  {s : System (Node LatticeAgreement)} {c : Cause (Node LatticeAgreement)} {p q x : HostId}
  {now : Nat} {slot : Slot} {am : AgreementMessage} {v : Value}

/-- The values that are proposed for a slot in a step, if any are and they are not refused. -/
def Occurrence.proposes? (slot : Slot) (o : Occurrence (Node LatticeAgreement)) : Option ValueSet :=
  o.before.protocol.proposes? (o.before.stimulus o.cause) slot o.now

/-- The values of a proposal for a slot that is taken in in a step. -/
def Occurrence.handles? (slot : Slot) (o : Occurrence (Node LatticeAgreement)) : Option ValueSet :=
  o.before.protocol.handles? (o.before.stimulus o.cause) slot

namespace System

/-- The value sets that a member has proposed for a slot without being refused, in order. -/
def proposals (s : System (Node LatticeAgreement)) (slot : Slot) (p : HostId) : List ValueSet :=
  s.record p (·.proposes? slot)

/-- The value sets that a member had been offered for a slot, by itself or others, before it first
proposed any. -/
def heardFirst (s : System (Node LatticeAgreement)) (slot : Slot) (p : HostId) : List ValueSet :=
  ((s.history.filter fun o => o.member = p).takeWhile fun o =>
    (o.proposes? slot).isNone).filterMap (·.handles? slot)

/-- Some member has proposed a value for a slot. -/
def Proposed (hosts : Hosts) (s : System (Node LatticeAgreement)) (slot : Slot) (v : Value) :
    Prop :=
  ∃ q, hosts.contains q = true ∧ ∃ A ∈ s.proposals slot q, v ∈ A

/-! ## What is never lost -/

theorem proposals_step_self : (s.step x c now).proposals slot x = s.proposals slot x ++
    (Occurrence.proposes? slot ⟨x, s.members x, c, now⟩).toList := by
  rw [proposals, record_step, if_pos rfl]
  rfl

theorem proposals_step_of_ne (hp : p ≠ x) :
    (s.step x c now).proposals slot p = s.proposals slot p := by
  rw [proposals, record_step, if_neg (Ne.symm hp), List.append_nil]
  rfl

/-- Nothing is added any more once there is a proposal. -/
theorem heardFirst_step_self : (s.step x c now).heardFirst slot x = s.heardFirst slot x ++
    if s.proposals slot x = [] ∧ Occurrence.proposes? slot ⟨x, s.members x, c, now⟩ = none then
      (Occurrence.handles? slot ⟨x, s.members x, c, now⟩).toList else [] := by
  have hnil : s.proposals slot x = [] ↔ ∀ o ∈ s.history.filter fun o => o.member = x,
      (o.proposes? slot).isNone = true := by
    simp only [proposals, record, List.filterMap_eq_nil_iff, Option.isNone_iff_eq_none]
  have hlast : (s.step x c now).history.filter (fun o => o.member = x) =
      (s.history.filter fun o => o.member = x) ++ [⟨x, s.members x, c, now⟩] := by
    simp
  rw [heardFirst, hlast, List.takeWhile_append]
  by_cases hall : s.proposals slot x = []
  · have hwhole := List.takeWhile_eq_self_iff.mpr (hnil.mp hall)
    rw [hwhole, if_pos rfl, List.filterMap_append, heardFirst, hwhole]
    cases hproposes : Occurrence.proposes? slot ⟨x, s.members x, c, now⟩ with
    | some A => simp [hproposes]
    | none =>
      cases hhandles : Occurrence.handles? slot ⟨x, s.members x, c, now⟩ <;>
        simp [hproposes, hhandles, hall]
  · rw [if_neg, if_neg (fun hboth => hall hboth.1), List.append_nil]
    · rfl
    · intro hlength
      refine hall (hnil.mpr (List.takeWhile_eq_self_iff.mp ?_))
      exact (List.takeWhile_prefix _).eq_of_length hlength

theorem heardFirst_step_of_ne (hp : p ≠ x) :
    (s.step x c now).heardFirst slot p = s.heardFirst slot p := by
  simp [heardFirst, Ne.symm hp]

/-- At first nobody has heard of a slot. -/
theorem viewAt_initial : (System.initial fun id => Node.fresh LatticeAgreement.ofHosts hosts
    (tuning id) (watches id) id).viewAt slot p = .ofSlot slot := by
  simp [viewAt, initial, Node.fresh, LatticeAgreement.ofHosts, LatticeAgreement.view]

/-- What a step does to a member's view of a slot. -/
theorem change_step (s : System (Node LatticeAgreement)) (x : HostId)
    (c : Cause (Node LatticeAgreement)) (now : Nat) (slot : Slot) :
    SlotView.Change slot (s.members x).protocol.group.quorum
      ((s.members x).protocol.Hears ((s.members x).stimulus c))
      (Occurrence.proposes? slot ⟨x, s.members x, c, now⟩)
      (Occurrence.handles? slot ⟨x, s.members x, c, now⟩) (s.viewAt slot x)
      ((s.step x c now).viewAt slot x) := by
  rw [viewAt_step_self]
  exact LatticeAgreement.change_apply _ _ now slot

/-- **All that has to be in a decision is in the view at all times.** -/
theorem covers_of_reachable
    (h : s.Reachable hosts fun id =>
      .fresh LatticeAgreement.ofHosts hosts (tuning id) (watches id) id)
    (slot : Slot) (p : HostId) :
    (s.viewAt slot p).Covers (s.proposals slot p) (s.heardFirst slot p) := by
  induction h with
  | initial =>
    rw [viewAt_initial]
    exact .ofSlot slot
  | @step s x c now _ _ ih =>
    by_cases hp : p = x
    · subst hp
      rw [proposals_step_self, heardFirst_step_self]
      exact ih.change (change_step s p c now slot)
    · rw [viewAt_step_of_ne hp, proposals_step_of_ne hp, heardFirst_step_of_ne hp]
      exact ih

/-! ## Where all values come from -/

theorem proposed_step (h : s.Proposed hosts slot v) : (s.step x c now).Proposed hosts slot v := by
  obtain ⟨q, hq, A, hA, hv⟩ := h
  exact ⟨q, hq, A, mem_record_step.mpr (Or.inl hA), hv⟩

section

variable (hlawful : hosts.Lawful)
  (h : s.Reachable hosts fun id =>
    .fresh LatticeAgreement.ofHosts hosts (tuning id) (watches id) id)

include hlawful h

/-- What a member tells of a slot in a step is in its view then. -/
theorem holds_of_tells_step (hc : s.Permits hosts x c)
    (hwrap : ∀ id, ((s.step x c now).linksAt id).Unwrapped)
    (htold : (s.step x c now).Tells hosts slot p q am) (hv : v ∈ am.values) :
    s.Tells hosts slot p q am ∨ p = x ∧ ((s.step x c now).viewAt slot x).Holds v := by
  rcases tells_step_cases hlawful h hc hwrap htold with hold | ⟨hp, ⟨-, rfl⟩ | ⟨P, -, hview, rfl⟩⟩
  · exact Or.inl hold
  · exact Or.inr ⟨hp, Or.inr (Or.inl hv)⟩
  · refine Or.inr ⟨hp, Or.inr (Or.inr ?_)⟩
    rw [hview]
    exact SlotView.values_within_onProposal _ P v hv

/-- **All values in views and in messages have been proposed by some member.** -/
theorem proposed_of_reachable (hwrap : ∀ id, (s.linksAt id).Unwrapped) :
    (∀ p, (s.viewAt slot p).Holds v → s.Proposed hosts slot v) ∧
      ∀ p q am, s.Tells hosts slot p q am → v ∈ am.values → s.Proposed hosts slot v := by
  induction h with
  | initial =>
    refine ⟨fun p hv => ?_, ?_⟩
    · rw [viewAt_initial] at hv
      rcases hv with hv | hv | hv <;> exact absurd hv Std.ExtTreeSet.not_mem_empty
    · rintro p q am ⟨-, _, ⟨_, ⟨-, _, -, hmem⟩, -⟩, -⟩
      cases hmem
  | @step s x c now h hc ih =>
    obtain ⟨hviews, htells⟩ := ih (unwrapped_nodes_of_step hlawful h hc hwrap)
    have hself : ((s.step x c now).viewAt slot x).Holds v →
        (s.step x c now).Proposed hosts slot v := by
      intro hv
      rcases (change_step s x c now slot).holds hv with hold | ⟨A, hA, hv⟩ |
        ⟨sender, am, hheard, hslot, hv⟩
      · exact proposed_step (hviews x hold)
      · exact ⟨x, hc.contains, A, mem_record_step.mpr (Or.inr ⟨rfl, hA⟩), hv⟩
      · exact proposed_step (htells sender x am (hslot ▸ tells_of_hears hlawful h hc hheard) hv)
    refine ⟨fun p hv => ?_, fun p q am htold hv => ?_⟩
    · by_cases hp : p = x
      · exact hself (hp ▸ hv)
      · rw [viewAt_step_of_ne hp] at hv
        exact proposed_step (hviews p hv)
    · rcases holds_of_tells_step hlawful h hc hwrap htold hv with hold | ⟨-, hv⟩
      · exact proposed_step (htells p q am hold hv)
      · exact hself hv

end

/-- **Decisions are valid.**  In every run of a group whose nodes agree, where no link is given so
many messages that its ids wrap, the set that a member decides for a slot contains all that it has
itself proposed for the slot and all that it had been offered for it before its own first proposal,
and every value in it has been proposed for the slot by some member. -/
theorem decision_valid {hs : List Host} (hhosts : Hosts.ofList hs = .ok hosts)
    (h : s.Reachable hosts fun id =>
      .fresh LatticeAgreement.ofHosts hosts (tuning id) (watches id) id)
    (hwrap : ∀ id, (s.linksAt id).Unwrapped) {D : ValueSet} (hp : s.Decides p slot D) :
    (∀ A ∈ s.proposals slot p, A.Within D) ∧ (∀ A ∈ s.heardFirst slot p, A.Within D) ∧
      ∀ v ∈ D, ∃ q, hosts.contains q = true ∧ ∃ A ∈ s.proposals slot q, v ∈ A := by
  obtain ⟨hdecided, rfl⟩ := decided_of_decides h hp
  obtain ⟨-, -, hall⟩ :=
    (covers_of_reachable h slot p).busy (SlotView.isIdle_of_decided hdecided)
  refine ⟨fun A hA => hall A (List.mem_append_left _ hA),
    fun A hA => hall A (List.mem_append_right _ hA), fun v hv => ?_⟩
  exact (proposed_of_reachable (Hosts.lawful_ofList hhosts) h hwrap).1 p (Or.inr (Or.inl hv))

/-- The second of two members has taken in what the first one proposes before it proposes a value of
its own, and decides on both. -/
theorem decision_valid_twoDecisions : (∀ id, (twoDecisions.linksAt id).Unwrapped) ∧
    twoDecisions.Decides 2 7 (.ofList [1, 2]) ∧
    twoDecisions.proposals 7 2 = [.ofList [2]] ∧ twoDecisions.heardFirst 7 2 = [.ofList [1]] ∧
    (∀ A ∈ twoDecisions.proposals 7 2, A.Within (.ofList [1, 2])) ∧
    (∀ A ∈ twoDecisions.heardFirst 7 2, A.Within (.ofList [1, 2])) ∧
    ∀ v ∈ ValueSet.ofList [1, 2], ∃ q, Hosts.pair.contains q = true ∧
      ∃ A ∈ twoDecisions.proposals 7 q, v ∈ A := by
  have hwrap := unwrapped_nodes_of_linkSteps_lt (Hosts.lawful_ofList Hosts.ofList_pair)
    twoDecisions_reachable (by decide +kernel)
  have hoffered : (twoDecisions.viewAt 7 2).offered = .ofList [1, 2] := by decide +kernel
  have hreported : (twoDecisions.history.any fun o => o.member = 2 ∧
      .decide 7 (twoDecisions.viewAt 7 2).offered ∈ o.output.events) = true := by
    decide +kernel
  have hdecides : twoDecisions.Decides 2 7 (.ofList [1, 2]) := by
    rw [← hoffered]
    simpa [Decides] using hreported
  exact ⟨hwrap, hdecides, by decide +kernel, by decide +kernel,
    decision_valid Hosts.ofList_pair twoDecisions_reachable hwrap hdecides⟩

end System

end Groupcast
