import Groupcast.Agreement.Slot
import Groupcast.Proofs.Quorum

/-!
# Replies to a slot

What a reply does to the proposer of a slot, and what an acceptor does with a proposal.

Values are refused, begin the first round, or begin another one (`propose_cases`).  A reply either
does not count, or is counted and changes nothing else, or is counted and completes a majority
(`onAck_cases`, `onNack_cases`).  Seen from outside, a step of a proposer either makes an offer
(`Offers`) or stays in the round (`Counted`).  None of this makes a slot collect replies that has
decided (`Proper`).
-/

namespace Groupcast

/-- Every value of the one set is in the other. -/
def ValueSet.Within (A B : ValueSet) : Prop := ∀ v ∈ A, v ∈ B

theorem ValueSet.Within.refl (A : ValueSet) : A.Within A := fun _ hv => hv

theorem ValueSet.Within.trans {A B C : ValueSet} (hAB : A.Within B) (hBC : B.Within C) :
    A.Within C := fun v hv => hBC v (hAB v hv)

namespace SlotView

variable {s : SlotView} {id : HostId} {round : UInt32} {values : ValueSet} {n : Nat}

/-! ## What a proposer is doing -/

theorem isIdle_eq_true : s.isIdle = true ↔ s.isActive = false ∧ s.isDecided = false := by
  rw [isIdle, Bool.and_eq_true, Bool.not_eq_true', Bool.not_eq_true']

theorem isIdle_of_active (h : s.isActive = true) : s.isIdle = false := by
  rw [isIdle, h]
  rfl

theorem isIdle_of_decided (h : s.isDecided = true) : s.isIdle = false := by
  rw [isIdle, h, Bool.not_true, Bool.and_false]

/-! ## Values to propose -/

/-- The slot with more to be proposed. -/
def growing (s : SlotView) (values : ValueSet) : SlotView :=
  { s with proposed := s.proposed ∪ values }

/-- The slot once it has offered all that is to be proposed in the round that it is in. -/
def beginning (s : SlotView) (values : ValueSet) : SlotView :=
  { s.growing values with isActive := true, offered := s.proposed ∪ values }

/-- What values come to. -/
theorem propose_cases (s : SlotView) (values : ValueSet) :
    s.isDecided = true ∧ s.propose values = (s, .error (.alreadyDecided s.slot)) ∨
      s.isDecided = false ∧
        (s.isActive = false ∧
            s.propose values = (s.beginning values, .ok (s.beginning values).proposal) ∨
          s.isActive = true ∧ s.propose values =
            ((s.growing values).nextRound, .ok (s.growing values).nextRound.proposal)) := by
  cases hdecided : s.isDecided with
  | true => exact Or.inl ⟨rfl, if_pos hdecided⟩
  | false =>
    refine Or.inr ⟨rfl, ?_⟩
    cases hactive : s.isActive with
    | false =>
      refine Or.inl ⟨rfl, ?_⟩
      simp only [propose, beginning, growing, hdecided, hactive, Bool.false_eq_true, if_false]
    | true =>
      refine Or.inr ⟨rfl, ?_⟩
      simp only [propose, growing, hdecided, hactive, Bool.false_eq_true, if_false, if_true]

/-! ## One reply -/

theorem counts_iff : s.counts id round = true ↔ round = s.round ∧ id ∉ s.responded := by
  rw [counts, Bool.and_eq_true, decide_eq_true_eq, Bool.not_eq_true', ← Bool.not_eq_true,
    Std.ExtTreeSet.contains_iff_mem]

/-- A reply that counts is the first one of its sender. -/
theorem size_insert_responded (h : s.counts id round = true) :
    (s.responded.insert id).size = s.responded.size + 1 := by
  rw [Std.ExtTreeSet.size_insert, if_neg]
  rw [Std.ExtTreeSet.contains_iff_mem]
  exact (counts_iff.mp h).2

/-- The slot with one more acceptance. -/
def accepting (s : SlotView) (id : HostId) : SlotView :=
  { s with responded := s.responded.insert id, acks := s.acks + 1 }

/-- The slot with one more refusal, which carried values. -/
def refusing (s : SlotView) (id : HostId) (values : ValueSet) : SlotView :=
  { s with
    responded := s.responded.insert id
    nacks := s.nacks + 1
    proposed := s.proposed ∪ values }

/-- The slot once it has decided. -/
def deciding (s : SlotView) : SlotView := { s with isActive := false, isDecided := true }

/-- What an acceptance comes to. -/
theorem onAck_cases (s : SlotView) (id : HostId) (round : UInt32) (n : Nat) :
    s.counts id round = false ∧ s.onAck id round n = (s, none) ∨
      s.counts id round = true ∧
        (s.isActive = true ∧ n ≤ s.acks + 1 ∧
            s.onAck id round n = ((s.accepting id).deciding, some s.offered) ∨
          (s.isActive = true → s.acks + 1 < n) ∧ s.onAck id round n = (s.accepting id, none)) := by
  by_cases hcounts : s.counts id round = true
  · refine Or.inr ⟨hcounts, ?_⟩
    simp only [onAck, hcounts, if_true]
    by_cases hdone : s.isActive = true ∧ n ≤ s.acks + 1
    · exact Or.inl ⟨hdone.1, hdone.2, by rw [if_pos hdone]; rfl⟩
    · refine Or.inr ⟨fun hactive => ?_, by rw [if_neg hdone]; rfl⟩
      exact Nat.lt_of_not_le fun hle => hdone ⟨hactive, hle⟩
  · refine Or.inl ⟨by simpa using hcounts, ?_⟩
    rw [onAck, if_neg hcounts]

/-- What a refusal comes to. -/
theorem onNack_cases (s : SlotView) (id : HostId) (round : UInt32) (values : ValueSet) (n : Nat) :
    s.counts id round = false ∧ s.onNack id round values n = (s, none) ∨
      s.counts id round = true ∧
        (s.isActive = true ∧ n ≤ s.acks + (s.nacks + 1) ∧
            s.onNack id round values n = ((s.refusing id values).nextRound,
              some (s.refusing id values).nextRound.proposal) ∨
          (s.isActive = true → s.acks + (s.nacks + 1) < n) ∧
            s.onNack id round values n = (s.refusing id values, none)) := by
  by_cases hcounts : s.counts id round = true
  · refine Or.inr ⟨hcounts, ?_⟩
    simp only [onNack, hcounts, if_true]
    by_cases hdone : s.isActive = true ∧ n ≤ s.acks + (s.nacks + 1)
    · exact Or.inl ⟨hdone.1, hdone.2, by rw [if_pos hdone]; rfl⟩
    · refine Or.inr ⟨fun hactive => ?_, by rw [if_neg hdone]; rfl⟩
      exact Nat.lt_of_not_le fun hle => hdone ⟨hactive, hle⟩
  · refine Or.inl ⟨by simpa using hcounts, ?_⟩
    rw [onNack, if_neg hcounts]

/-! ## One proposal -/

/-- An acceptor absorbs every proposal. -/
theorem within_onProposal (s : SlotView) (p : Proposal) :
    p.values.Within (s.onProposal p).1.accepted :=
  fun _ hv => Std.ExtTreeSet.mem_union_iff.mpr (Or.inr hv)

/-- An acceptor never forgets what it has accepted. -/
theorem within_accepted_onProposal (p : Proposal) :
    s.accepted.Within (s.onProposal p).1.accepted :=
  fun _ hv => Std.ExtTreeSet.mem_union_iff.mpr (Or.inl hv)

/-- An acceptor accepts only what includes all that it has accepted before. -/
theorem onProposal_eq_ack {p : Proposal} {slot : Slot} (h : (s.onProposal p).2 = .ack round slot) :
    round = p.round ∧ s.accepted.Within p.values := by
  simp only [onProposal] at h
  split at h
  · rename_i hincludes
    cases h
    exact ⟨rfl, ValueSet.includes_eq_true.mp hincludes⟩
  · cases h

/-- An acceptor refuses only what lacks something that it has accepted, and tells what that is. -/
theorem onProposal_eq_nack {p q : Proposal} (h : (s.onProposal p).2 = .nack q) :
    q.round = p.round ∧ ¬ q.values.Within p.values := by
  simp only [onProposal] at h
  split at h
  · cases h
  · rename_i hincludes
    cases h
    refine ⟨rfl, fun hwithin => hincludes (ValueSet.includes_eq_true.mpr fun v hv => ?_)⟩
    exact hwithin v (Std.ExtTreeSet.mem_union_iff.mpr (Or.inl hv))

/-- The answer to a proposal is no proposal. -/
theorem onProposal_ne_propose (p q : Proposal) : (s.onProposal p).2 ≠ .propose q := by
  simp only [onProposal]
  split <;> nofun

/-! ## What a step of a slot is -/

/-- What is true of the view of a slot at all times: it is a view of that slot, and it collects no
replies once it has decided. -/
structure Proper (v : SlotView) (slot : Slot) : Prop where
  slot_eq : v.slot = slot
  undecided : v.isActive = true → v.isDecided = false

/-- A member begins to propose, or begins another round. -/
structure Offers (v v' : SlotView) : Prop where
  slot_eq : v'.slot = v.slot
  accepted_eq : v'.accepted = v.accepted
  undecided : v.isDecided = false
  isActive_eq : v'.isActive = true
  isDecided_eq : v'.isDecided = false
  fresh : v.isActive = false ∧ v'.round = v.round ∧ v'.acks = v.acks ∧
      v'.responded = v.responded ∨
    v.isActive = true ∧ v'.round = v.round + 1 ∧ v'.acks = 0

/-- A member takes in a reply and stays in its round.  `heard` says who has accepted that. -/
structure Counted (v v' : SlotView) (n : Nat) (heard : HostId → Prop) : Prop where
  slot_eq : v'.slot = v.slot
  round_eq : v'.round = v.round
  offered_eq : v'.offered = v.offered
  accepted_eq : v'.accepted = v.accepted
  decides : v'.isActive = v.isActive ∧ v'.isDecided = v.isDecided ∨
    v.isActive = true ∧ v'.isActive = false ∧ v'.isDecided = true ∧ n ≤ v'.acks
  acks_eq : (v'.acks = v.acks ∧ ∀ id ∈ v.responded, id ∈ v'.responded) ∨
    ∃ id, id ∉ v.responded ∧ heard id ∧ v'.acks = v.acks + 1 ∧
      v'.responded = v.responded.insert id

variable {v v' : SlotView} {slot : Slot} {heard : HostId → Prop} {p : Proposal}

theorem proper_ofSlot (slot : Slot) : (ofSlot slot).Proper slot := ⟨rfl, nofun⟩

/-- Nothing comes of a reply that does not count. -/
theorem Counted.refl (v : SlotView) : v.Counted v n heard :=
  ⟨rfl, rfl, rfl, rfl, Or.inl ⟨rfl, rfl⟩, Or.inl ⟨rfl, fun _ hid => hid⟩⟩

/-- A proposal that is not refused is offered. -/
theorem offers_propose (h : v.propose values = (v', .ok p)) :
    v.Offers v' ∧ p = v'.proposal := by
  rcases v.propose_cases values with ⟨-, heq⟩ | ⟨hdecided, ⟨hactive, heq⟩ | ⟨hactive, heq⟩⟩
  · cases h.symm.trans heq
  · cases h.symm.trans heq
    exact ⟨⟨rfl, rfl, hdecided, rfl, hdecided, Or.inl ⟨hactive, rfl, rfl, rfl⟩⟩, rfl⟩
  · cases h.symm.trans heq
    exact ⟨⟨rfl, rfl, hdecided, hactive, hdecided, Or.inr ⟨hactive, rfl, rfl⟩⟩, rfl⟩

/-- An acceptance never begins a round. -/
theorem counted_onAck (heq : round = v.round → heard id) :
    v.Counted (v.onAck id round n).1 n heard := by
  rcases v.onAck_cases id round n with ⟨-, h⟩ | ⟨hcounts, ⟨hactive, hle, h⟩ | ⟨-, h⟩⟩
  · rw [h]
    exact .refl v
  · obtain ⟨hround, hnew⟩ := counts_iff.mp hcounts
    rw [h]
    exact ⟨rfl, rfl, rfl, rfl, Or.inr ⟨hactive, rfl, rfl, hle⟩,
      Or.inr ⟨id, hnew, heq hround, rfl, rfl⟩⟩
  · obtain ⟨hround, hnew⟩ := counts_iff.mp hcounts
    rw [h]
    exact ⟨rfl, rfl, rfl, rfl, Or.inl ⟨rfl, rfl⟩, Or.inr ⟨id, hnew, heq hround, rfl, rfl⟩⟩

/-- What an acceptance decides is what was offered. -/
theorem decided_onAck {decision : ValueSet} (h : (v.onAck id round n).2 = some decision) :
    (v.onAck id round n).1.isDecided = true ∧ (v.onAck id round n).1.offered = decision := by
  rcases v.onAck_cases id round n with ⟨-, heq⟩ | ⟨-, ⟨-, -, heq⟩ | ⟨-, heq⟩⟩
  · rw [heq] at h
    cases h
  · rw [heq] at h ⊢
    cases h
    exact ⟨rfl, rfl⟩
  · rw [heq] at h
    cases h

/-- A refusal after which nothing is to be sent is counted. -/
theorem counted_onNack (h : (v.onNack id round values n).2 = none) :
    v.Counted (v.onNack id round values n).1 n heard := by
  rcases v.onNack_cases id round values n with ⟨-, heq⟩ | ⟨-, ⟨-, -, heq⟩ | ⟨-, heq⟩⟩
  · rw [heq]
    exact .refl v
  · rw [heq] at h
    cases h
  · rw [heq]
    exact ⟨rfl, rfl, rfl, rfl, Or.inl ⟨rfl, rfl⟩,
      Or.inl ⟨rfl, fun _ hid => Std.ExtTreeSet.mem_insert.mpr (Or.inr hid)⟩⟩

/-- What a refusal gives to be sent is the proposal of another round. -/
theorem offers_onNack (hv : v.Proper slot) (h : (v.onNack id round values n).2 = some p) :
    v.Offers (v.onNack id round values n).1 ∧ p = (v.onNack id round values n).1.proposal := by
  rcases v.onNack_cases id round values n with ⟨-, heq⟩ | ⟨-, ⟨hactive, -, heq⟩ | ⟨-, heq⟩⟩
  · rw [heq] at h
    cases h
  · have hdecided := hv.undecided hactive
    rw [heq] at h ⊢
    cases h
    exact ⟨⟨rfl, rfl, hdecided, hactive, hdecided, Or.inr ⟨hactive, rfl, rfl⟩⟩, rfl⟩
  · rw [heq] at h
    cases h

theorem Offers.proper (h : v.Offers v') (hv : v.Proper slot) : v'.Proper slot :=
  ⟨h.slot_eq.trans hv.slot_eq, fun _ => h.isDecided_eq⟩

/-- Who makes an offer and has not done so before has been idle. -/
theorem Offers.isIdle_of_inactive (h : v.Offers v') (hactive : v.isActive = false) :
    v.isIdle = true :=
  isIdle_eq_true.mpr ⟨hactive, h.undecided⟩

namespace Counted

theorem mono {heard' : HostId → Prop} (h : v.Counted v' n heard)
    (hmono : ∀ id, heard id → heard' id) : v.Counted v' n heard' := by
  refine { h with acks_eq := h.acks_eq.imp_right ?_ }
  rintro ⟨id, hnew, hheard, hacks⟩
  exact ⟨id, hnew, hmono id hheard, hacks⟩

theorem proper (h : v.Counted v' n heard) (hv : v.Proper slot) : v'.Proper slot := by
  refine ⟨h.slot_eq.trans hv.slot_eq, fun hactive => ?_⟩
  rcases h.decides with ⟨hactive', hdecided'⟩ | ⟨-, hactive', -⟩
  · rw [hdecided']
    exact hv.undecided (hactive' ▸ hactive)
  · cases hactive.symm.trans hactive'

/-- A decision stands. -/
theorem keeps_decided (h : v.Counted v' n heard) (hdecided : v.isDecided = true) :
    v'.isDecided = true ∧ v'.offered = v.offered := by
  refine ⟨?_, h.offered_eq⟩
  rcases h.decides with ⟨-, heq⟩ | ⟨-, -, hdecided', -⟩
  · exact heq.trans hdecided
  · exact hdecided'

/-- A reply does not make a proposer begin. -/
theorem isIdle_eq (h : v.Counted v' n heard) : v'.isIdle = v.isIdle := by
  rcases h.decides with ⟨hactive, hdecided⟩ | ⟨hactive, -, hdecided, -⟩
  · rw [isIdle, isIdle, hactive, hdecided]
  · rw [isIdle_of_decided hdecided, isIdle_of_active hactive]

end Counted

end SlotView

end Groupcast
