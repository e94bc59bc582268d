import Groupcast.Proofs.Agreement.Lattice

/-!
# Where the values of a slot come from

A view of a slot holds three sets of values: what is to be proposed, what is offered, and what has
been accepted.  A step of a member changes the view by one of four calls or not at all
(`change_apply`), and what comes into the three sets by it has been proposed by the member itself or
was in a message that it has taken in (`Change.holds`).

Nothing that a member has to include in its decision is lost on the way.  As long as it has not
proposed anything, it collects what others propose; from then on all of that, and all that it
proposes itself, is in what it offers (`Covers`).
-/

namespace Groupcast

/-- The values that a message offers for a slot, if it is a proposal for that slot. -/
def AgreementMessage.offered? (slot : Slot) : AgreementMessage → Option ValueSet
  | propose p => if p.slot = slot then some p.values else none
  | ack _ _ | nack _ => none

theorem ValueSet.mem_union {A B : ValueSet} {x : Value} : x ∈ A ∪ B ↔ x ∈ A ∨ x ∈ B :=
  Std.ExtTreeSet.mem_union_iff

theorem ValueSet.within_union_left (A B : ValueSet) : A.Within (A ∪ B) :=
  fun _ hx => mem_union.mpr (Or.inl hx)

theorem ValueSet.within_union_right (A B : ValueSet) : B.Within (A ∪ B) :=
  fun _ hx => mem_union.mpr (Or.inr hx)

namespace SlotView

/-- What a step of a member does to its view of a slot.  `hears` says what the member takes in; the
values that it proposes for the slot, and those that it is offered, are named if there are such. -/
inductive Change (slot : Slot) (n : Nat) (hears : HostId → AgreementMessage → Prop)
    (proposes? handles? : Option ValueSet) (v v' : SlotView) : Prop where
  /-- Nothing. -/
  | rest (hview : v' = v) (hproposes : proposes? = none) (hhandles : handles? = none)
  /-- The member proposes values. -/
  | propose {values : ValueSet} {p : Proposal} (hview : v.propose values = (v', .ok p))
      (hproposes : proposes? = some values) (hhandles : handles? = none)
  /-- It takes in a proposal. -/
  | proposal {sender : HostId} {p : Proposal} (hheard : hears sender (.propose p))
      (hslot : p.slot = slot) (hview : v' = (v.onProposal p).1) (hproposes : proposes? = none)
      (hhandles : handles? = some p.values)
  /-- It takes in an acceptance. -/
  | ack {sender : HostId} {round : UInt32} (hview : v' = (v.onAck sender round n).1)
      (hproposes : proposes? = none) (hhandles : handles? = none)
  /-- It takes in a refusal. -/
  | nack {sender : HostId} {p : Proposal} (hheard : hears sender (.nack p)) (hslot : p.slot = slot)
      (hview : v' = (v.onNack sender p.round p.values n).1) (hproposes : proposes? = none)
      (hhandles : handles? = none)

/-- A value is in one of the sets of a view. -/
def Holds (v : SlotView) (x : Value) : Prop := x ∈ v.proposed ∨ x ∈ v.offered ∨ x ∈ v.accepted

/-- All that has to be in the decision of a member is in its view: what it has proposed for the
slot, and what it had been offered before that. -/
structure Covers (v : SlotView) (proposals heardFirst : List ValueSet) : Prop where
  idle : v.isIdle = true → proposals = [] ∧ ∀ A ∈ heardFirst, A.Within v.proposed
  busy : v.isIdle = false → proposals ≠ [] ∧ v.offered.Within v.proposed ∧
    ∀ A ∈ proposals ++ heardFirst, A.Within v.offered

variable {slot : Slot} {n : Nat} {hears hears' : HostId → AgreementMessage → Prop}
  {proposes? handles? : Option ValueSet} {v v' : SlotView} {values : ValueSet}
  {proposals heardFirst : List ValueSet} {p : Proposal}

theorem Change.mono (h : Change slot n hears proposes? handles? v v')
    (hmono : ∀ id am, hears id am → hears' id am) :
    Change slot n hears' proposes? handles? v v' := by
  cases h with
  | rest h₁ h₂ h₃ => exact .rest h₁ h₂ h₃
  | propose h₁ h₂ h₃ => exact .propose h₁ h₂ h₃
  | proposal hheard h₁ h₂ h₃ h₄ => exact .proposal (hmono _ _ hheard) h₁ h₂ h₃ h₄
  | ack h₁ h₂ h₃ => exact .ack h₁ h₂ h₃
  | nack hheard h₁ h₂ h₃ h₄ => exact .nack (hmono _ _ hheard) h₁ h₂ h₃ h₄

/-! ## What comes into a view -/

/-- What a member offers is all that is to be proposed. -/
theorem propose_eq_ok (h : v.propose values = (v', .ok p)) :
    v'.isActive = true ∧ v'.proposed = v.proposed ∪ values ∧ v'.offered = v.proposed ∪ values ∧
      v'.accepted = v.accepted := by
  rcases v.propose_cases values with ⟨-, heq⟩ | ⟨-, ⟨-, heq⟩ | ⟨hactive, heq⟩⟩
  · cases h.symm.trans heq
  · cases h.symm.trans heq
    exact ⟨rfl, rfl, rfl, rfl⟩
  · cases h.symm.trans heq
    exact ⟨hactive, rfl, rfl, rfl⟩

/-- A proposal is remembered by those who have not proposed yet, and accepted by all. -/
theorem onProposal_eq (v : SlotView) (p : Proposal) :
    (v.onProposal p).1.isIdle = v.isIdle ∧ (v.onProposal p).1.offered = v.offered ∧
      (v.onProposal p).1.accepted = v.accepted ∪ p.values ∧
      (v.onProposal p).1.proposed = if v.isIdle then v.proposed ∪ p.values else v.proposed :=
  ⟨rfl, rfl, rfl, rfl⟩

/-- A refusal carries what has been accepted. -/
theorem values_within_onProposal (v : SlotView) (p : Proposal) :
    (v.onProposal p).2.values.Within (v.onProposal p).1.accepted := by
  simp only [onProposal]
  split
  · exact fun x hx => absurd hx Std.ExtTreeSet.not_mem_empty
  · exact .refl _

/-- An acceptance brings no values. -/
theorem onAck_eq (v : SlotView) (id : HostId) (round : UInt32) (n : Nat) :
    (v.onAck id round n).1.proposed = v.proposed ∧ (v.onAck id round n).1.offered = v.offered ∧
      (v.onAck id round n).1.accepted = v.accepted ∧
      (v.onAck id round n).1.isIdle = v.isIdle := by
  rcases v.onAck_cases id round n with ⟨-, h⟩ | ⟨-, ⟨hactive, -, h⟩ | ⟨-, h⟩⟩ <;> rw [h]
  · exact ⟨rfl, rfl, rfl, rfl⟩
  · exact ⟨rfl, rfl, rfl, (isIdle_of_decided rfl).trans (isIdle_of_active hactive).symm⟩
  · exact ⟨rfl, rfl, rfl, rfl⟩

/-- The values of a refusal are to be proposed, at the latest in the round that it begins. -/
theorem onNack_eq (v : SlotView) (id : HostId) (round : UInt32) (values : ValueSet) (n : Nat) :
    ((v.onNack id round values n).1.proposed = v.proposed ∨
        (v.onNack id round values n).1.proposed = v.proposed ∪ values) ∧
      ((v.onNack id round values n).1.offered = v.offered ∨
        (v.onNack id round values n).1.offered = (v.onNack id round values n).1.proposed) ∧
      (v.onNack id round values n).1.accepted = v.accepted ∧
      (v.onNack id round values n).1.isIdle = v.isIdle := by
  rcases v.onNack_cases id round values n with ⟨-, h⟩ | ⟨-, ⟨-, -, h⟩ | ⟨-, h⟩⟩ <;> rw [h]
  · exact ⟨Or.inl rfl, Or.inl rfl, rfl, rfl⟩
  · exact ⟨Or.inr rfl, Or.inr rfl, rfl, rfl⟩
  · exact ⟨Or.inr rfl, Or.inl rfl, rfl, rfl⟩

/-- **What comes into a view was proposed by the member or is in what it takes in.** -/
theorem Change.holds (h : Change slot n hears proposes? handles? v v') {x : Value}
    (hx : v'.Holds x) : v.Holds x ∨ (∃ A, proposes? = some A ∧ x ∈ A) ∨
      ∃ sender am, hears sender am ∧ am.slot = slot ∧ x ∈ am.values := by
  cases h with
  | rest hview _ _ => exact Or.inl (hview ▸ hx)
  | @propose values p hview hproposes _ =>
    obtain ⟨-, hproposed, hoffered, haccepted⟩ := propose_eq_ok hview
    rw [Holds, hproposed, hoffered, haccepted, ValueSet.mem_union] at hx
    rcases hx with (hx | hx) | (hx | hx) | hx
    · exact Or.inl (Or.inl hx)
    · exact Or.inr (Or.inl ⟨values, hproposes, hx⟩)
    · exact Or.inl (Or.inl hx)
    · exact Or.inr (Or.inl ⟨values, hproposes, hx⟩)
    · exact Or.inl (Or.inr (Or.inr hx))
  | @proposal sender p hheard hslot hview _ _ =>
    subst hview
    obtain ⟨-, hoffered, haccepted, hproposed⟩ := v.onProposal_eq p
    rw [Holds, hproposed, hoffered, haccepted, ValueSet.mem_union] at hx
    have hcases : v.Holds x ∨ x ∈ p.values := by
      rcases hx with hx | hx | hx | hx
      · split at hx
        · exact (ValueSet.mem_union.mp hx).imp_left Or.inl
        · exact Or.inl (Or.inl hx)
      · exact Or.inl (Or.inr (Or.inl hx))
      · exact Or.inl (Or.inr (Or.inr hx))
      · exact Or.inr hx
    exact hcases.imp_right fun hx => Or.inr ⟨sender, .propose p, hheard, hslot, hx⟩
  | @ack sender round hview _ _ =>
    subst hview
    obtain ⟨hproposed, hoffered, haccepted, -⟩ := v.onAck_eq sender round n
    rw [Holds, hproposed, hoffered, haccepted] at hx
    exact Or.inl hx
  | @nack sender p hheard hslot hview _ _ =>
    subst hview
    obtain ⟨hproposed, hoffered, haccepted, -⟩ := v.onNack_eq sender p.round p.values n
    have hgrown : x ∈ (v.onNack sender p.round p.values n).1.proposed →
        v.Holds x ∨ x ∈ p.values := by
      intro hx
      rcases hproposed with heq | heq <;> rw [heq] at hx
      · exact Or.inl (Or.inl hx)
      · exact (ValueSet.mem_union.mp hx).imp_left Or.inl
    have hcases : v.Holds x ∨ x ∈ p.values := by
      rcases hx with hx | hx | hx
      · exact hgrown hx
      · rcases hoffered with heq | heq <;> rw [heq] at hx
        · exact Or.inl (Or.inr (Or.inl hx))
        · exact hgrown hx
      · exact Or.inl (Or.inr (Or.inr (haccepted ▸ hx)))
    exact hcases.imp_right fun hx => Or.inr ⟨sender, .nack p, hheard, hslot, hx⟩

/-! ## What is never lost -/

namespace Covers

theorem ofSlot (slot : Slot) : (SlotView.ofSlot slot).Covers [] [] :=
  ⟨fun _ => ⟨rfl, nofun⟩, nofun⟩

theorem isIdle_iff (h : v.Covers proposals heardFirst) : v.isIdle = true ↔ proposals = [] := by
  constructor
  · intro hidle
    exact (h.idle hidle).1
  · intro hnil
    by_contra hbusy
    exact (h.busy (Bool.not_eq_true _ ▸ hbusy)).1 hnil

/-- What is to be proposed only grows, and so does what is offered. -/
theorem grow (h : v.Covers proposals heardFirst) (hidle : v'.isIdle = v.isIdle)
    (hproposed : v.proposed.Within v'.proposed)
    (hoffered : v'.offered = v.offered ∨ v'.offered = v'.proposed) :
    v'.Covers proposals heardFirst := by
  refine ⟨fun hidle' => ?_, fun hbusy => ?_⟩
  · obtain ⟨hnil, hall⟩ := h.idle (hidle.symm.trans hidle')
    exact ⟨hnil, fun A hA => (hall A hA).trans hproposed⟩
  · obtain ⟨hne, hwithin, hall⟩ := h.busy (hidle.symm.trans hbusy)
    refine ⟨hne, ?_, fun A hA => ?_⟩
    · rcases hoffered with heq | heq <;> rw [heq]
      · exact hwithin.trans hproposed
      · exact .refl _
    · rcases hoffered with heq | heq <;> rw [heq]
      · exact hall A hA
      · exact ((hall A hA).trans hwithin).trans hproposed

/-- A proposal is offered at once, with all that has come before it. -/
theorem propose (h : v.Covers proposals heardFirst) (hv : v.propose values = (v', .ok p)) :
    v'.Covers (proposals ++ [values]) heardFirst := by
  obtain ⟨hactive, hproposed, hoffered, -⟩ := propose_eq_ok hv
  have hleft : v.proposed.Within v'.offered := hoffered ▸ ValueSet.within_union_left _ _
  refine ⟨fun hidle => ?_, fun _ => ⟨by simp, ?_, fun A hA => ?_⟩⟩
  · cases hidle.symm.trans (isIdle_of_active hactive)
  · rw [hoffered, hproposed]
    exact .refl _
  · rw [List.append_assoc, List.mem_append, List.mem_append, List.mem_singleton] at hA
    cases hidle : v.isIdle with
    | true =>
      obtain ⟨rfl, hall⟩ := h.idle hidle
      rcases hA with hA | rfl | hA
      · cases hA
      · exact hoffered ▸ ValueSet.within_union_right _ _
      · exact (hall A hA).trans hleft
    | false =>
      obtain ⟨-, hwithin, hall⟩ := h.busy hidle
      rcases hA with hA | rfl | hA
      · exact ((hall A (List.mem_append_left _ hA)).trans hwithin).trans hleft
      · exact hoffered ▸ ValueSet.within_union_right _ _
      · exact ((hall A (List.mem_append_right _ hA)).trans hwithin).trans hleft

/-- Who has not proposed yet remembers what it is offered. -/
theorem proposal (h : v.Covers proposals heardFirst) (p : Proposal) :
    (v.onProposal p).1.Covers proposals
      (heardFirst ++ if proposals = [] then [p.values] else []) := by
  obtain ⟨hkeeps, hoffered, -, hproposed⟩ := v.onProposal_eq p
  by_cases hidle : v.isIdle = true
  · obtain ⟨hnil, hall⟩ := h.idle hidle
    rw [if_pos hidle] at hproposed
    rw [if_pos hnil]
    refine ⟨fun _ => ⟨hnil, fun A hA => ?_⟩, fun hbusy => ?_⟩
    · rw [hproposed]
      rcases List.mem_append.mp hA with hold | hnew
      · exact (hall A hold).trans (ValueSet.within_union_left _ _)
      · rw [List.mem_singleton.mp hnew]
        exact ValueSet.within_union_right _ _
    · cases hidle.symm.trans hbusy
  · rw [if_neg hidle] at hproposed
    rw [if_neg (fun hnil => hidle (h.isIdle_iff.mpr hnil)), List.append_nil]
    exact h.grow hkeeps (hproposed ▸ .refl _) (Or.inl hoffered)

/-- **No step of a member loses any of it.** -/
theorem change (h : v.Covers proposals heardFirst)
    (hchange : Change slot n hears proposes? handles? v v') :
    v'.Covers (proposals ++ proposes?.toList)
      (heardFirst ++ if proposals = [] ∧ proposes? = none then handles?.toList else []) := by
  cases hchange with
  | rest hview hproposes hhandles =>
    rw [hproposes, hhandles, hview]
    simpa using h
  | propose hview hproposes hhandles =>
    rw [hproposes, hhandles]
    simpa using h.propose hview
  | @proposal sender p _ _ hview hproposes hhandles =>
    rw [hproposes, hhandles, hview]
    simpa using h.proposal p
  | @ack sender round hview hproposes hhandles =>
    obtain ⟨hproposed, hoffered, -, hidle⟩ := v.onAck_eq sender round n
    rw [hproposes, hhandles, hview]
    simpa using h.grow hidle (hproposed ▸ .refl _) (Or.inl hoffered)
  | @nack sender p _ _ hview hproposes hhandles =>
    obtain ⟨hproposed, hoffered, -, hidle⟩ := v.onNack_eq sender p.round p.values n
    have hwithin : v.proposed.Within (v.onNack sender p.round p.values n).1.proposed := by
      rcases hproposed with heq | heq <;> rw [heq]
      · exact .refl _
      · exact ValueSet.within_union_left _ _
    rw [hproposes, hhandles, hview]
    simpa using h.grow hidle hwithin hoffered

end Covers

end SlotView

/-! ## What a member does -/

namespace LatticeAgreement

variable {a : LatticeAgreement} {st : Node.Stimulus LatticeAgreement} {sender : HostId} {now : Nat}
  {slot : Slot}

/-- The values that a member proposes for a slot in a step, if it does and is not refused. -/
def proposes? (a : LatticeAgreement) (st : Node.Stimulus LatticeAgreement) (slot : Slot)
    (now : Nat) : Option ValueSet :=
  match st with
  | .command (p : SlotValues) =>
    match a.propose p now with
    | .ok _ => if p.slot = slot then some p.values else none
    | .error _ => none
  | .none | .stop | .timeout | .message _ => none

/-- The values of a proposal for a slot that a member takes in in a step. -/
def handles? (a : LatticeAgreement) (st : Node.Stimulus LatticeAgreement) (slot : Slot) :
    Option ValueSet :=
  match st with
  | .message m => (a.heard m.sender m).bind (AgreementMessage.offered? slot)
  | .none | .stop | .timeout | .command _ => none

theorem change_onAgreement (a : LatticeAgreement) (sender : HostId) (am : AgreementMessage)
    (now : Nat) (slot : Slot) :
    SlotView.Change slot a.group.quorum (fun id am' => id = sender ∧ am' = am) none
      (am.offered? slot) (a.view slot) ((a.onAgreement sender am now).state.view slot) := by
  by_cases heq : am.slot = slot
  · subst heq
    cases am with
    | propose p =>
      refine .proposal ⟨rfl, rfl⟩ rfl ?_ rfl (if_pos rfl)
      simp only [onAgreement, view, slots_reply]
      exact (view_setView a p.slot p.slot _).trans (if_pos rfl)
    | ack round slot =>
      show SlotView.Change slot _ _ _ _ (a.view slot) (LatticeAgreement.view _ slot)
      simp only [onAgreement]
      cases hv : a.slots[slot]? with
      | none => exact .rest rfl rfl rfl
      | some v =>
        simp only [← view_eq_of_getElem? hv, view_setView, if_true]
        exact .ack rfl rfl rfl
    | nack p =>
      show SlotView.Change p.slot _ _ _ _ (a.view p.slot) (LatticeAgreement.view _ p.slot)
      simp only [onAgreement]
      cases hv : a.slots[p.slot]? with
      | none => exact .rest rfl rfl rfl
      | some v =>
        have hview := view_eq_of_getElem? hv
        subst hview
        refine .nack ⟨rfl, rfl⟩ rfl ?_ rfl rfl
        simp only
        cases ((a.view p.slot).onNack sender p.round p.values a.group.quorum).2 with
        | none => simp only [view_setView, if_true]
        | some next => simp only [view_broadcast, view_setView, if_true]
  · refine .rest (view_onAgreement_of_ne heq) rfl ?_
    cases am with
    | propose p => exact if_neg heq
    | ack round slot | nack p => rfl

/-- **A step of a member changes its view of a slot by one of four calls, or not at all.** -/
theorem change_apply (a : LatticeAgreement) (st : Node.Stimulus LatticeAgreement) (now : Nat)
    (slot : Slot) :
    SlotView.Change slot a.group.quorum (a.Hears st) (a.proposes? st slot now)
      (a.handles? st slot) (a.view slot) ((st.apply a now).1.view slot) := by
  cases st with
  | none | stop | timeout => exact .rest rfl rfl rfl
  | command p =>
    simp only [apply_command, proposes?, propose]
    rcases hv : (a.view p.slot).propose p.values with ⟨v, e | proposal⟩
    · exact .rest rfl rfl rfl
    · simp only [view_broadcast, view_setView]
      by_cases heq : p.slot = slot
      · subst heq
        rw [if_pos rfl, if_pos rfl]
        exact .propose hv rfl rfl
      · rw [if_neg heq, if_neg heq]
        exact .rest rfl rfl rfl
  | message m =>
    show SlotView.Change slot _ _ none ((a.heard m.sender m).bind _) _
      ((a.deliver m.sender m now).state.view slot)
    cases hheard : a.heard m.sender m with
    | none =>
      rw [deliver_of_heard_eq_none hheard]
      exact .rest rfl rfl rfl
    | some am =>
      rw [deliver_of_heard_eq_some hheard]
      refine (change_onAgreement (a.received m.sender m) m.sender am now slot).mono ?_
      rintro id am' ⟨rfl, rfl⟩
      exact ⟨m, rfl, rfl, hheard⟩

end LatticeAgreement

end Groupcast
