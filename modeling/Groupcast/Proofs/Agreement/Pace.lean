import Groupcast.Proofs.Agreement.Values

/-!
# When a member sends a proposal

A member broadcasts a proposal for two reasons: it is asked to propose values, or a refusal
completes the replies to its round and another one begins (`LatticeAgreement.sends?`).  Seen from a
slot, a step therefore does one of three things (`SlotView.Pace`): it proposes, it advances to
another round, or it stays with what is offered.
-/

namespace Groupcast

/-! ## What is broadcast -/

namespace LatticeAgreement

variable {a : LatticeAgreement} {st : Node.Stimulus LatticeAgreement} {sender : HostId} {now : Nat}
  {slot : Slot} {P : Proposal}

/-- The request of the local application that a member meets in a step, if it meets one. -/
def requests? (a : LatticeAgreement) (st : Node.Stimulus LatticeAgreement) (now : Nat) :
    Option SlotValues :=
  match st with
  | .command (p : SlotValues) =>
    match a.propose p now with
    | .ok _ => some p
    | .error _ => none
  | .none | .stop | .timeout | .message _ => none

/-- The proposal of another round that an agreement message makes a member begin, if it does. -/
def next? (a : LatticeAgreement) (sender : HostId) : AgreementMessage → Option Proposal
  | .propose _ | .ack _ _ => none
  | .nack p =>
    (a.slots[p.slot]?).bind fun v => (v.onNack sender p.round p.values a.group.quorum).2

/-- The proposal of another round that a member begins in a step because of a refusal. -/
def advances? (a : LatticeAgreement) (st : Node.Stimulus LatticeAgreement) : Option Proposal :=
  match st with
  | .message m => (a.heard m.sender m).bind (a.next? m.sender)
  | .none | .stop | .timeout | .command _ => none

/-- The proposal that a member broadcasts in a step. -/
def sends? (a : LatticeAgreement) (st : Node.Stimulus LatticeAgreement) : Option Proposal :=
  match st with
  | .command (p : SlotValues) =>
    match ((a.view p.slot).propose p.values).2 with
    | .ok proposal => some proposal
    | .error _ => none
  | .none | .stop | .timeout | .message _ => a.advances? st

theorem proposes?_eq (a : LatticeAgreement) (st : Node.Stimulus LatticeAgreement) (slot : Slot)
    (now : Nat) : a.proposes? st slot now =
      (a.requests? st now).bind fun p => if p.slot = slot then some p.values else none := by
  cases st with
  | none | stop | timeout | message m => rfl
  | command p =>
    simp only [proposes?, requests?]
    cases a.propose p now <;> rfl

end LatticeAgreement

/-! ## What a step does to a slot -/

namespace SlotView

/-- What a step of a member does to what it offers for a slot.  `hears` says what the member takes
in; the values that it proposes for the slot, and the proposal for it that it broadcasts, are named
if there are such. -/
inductive Pace (slot : Slot) (hears : HostId → AgreementMessage → Prop)
    (proposes? : Option ValueSet) (sends? : Option Proposal) (v v' : SlotView) : Prop where
  /-- What is offered stays the same. -/
  | stay (hround : v'.round = v.round) (hoffered : v'.offered = v.offered)
      (hidle : v'.isIdle = v.isIdle) (hproposes : proposes? = none) (hsends : sends? = none)
  /-- The member proposes values. -/
  | propose {values : ValueSet} {p : Proposal} (hview : v.propose values = (v', .ok p))
      (hproposes : proposes? = some values) (hsends : sends? = some p)
  /-- A refusal begins another round. -/
  | advance {sender : HostId} {p : Proposal} (hheard : hears sender (.nack p))
      (hslot : p.slot = slot) (hcounts : v.counts sender p.round = true)
      (hactive : v.isActive = true) (hview : v' = (v.refusing sender p.values).nextRound)
      (hproposes : proposes? = none) (hsends : sends? = some v'.proposal)

variable {slot : Slot} {hears hears' : HostId → AgreementMessage → Prop}
  {proposes? : Option ValueSet} {sends? : Option Proposal} {v v' : SlotView} {n : Nat}

theorem Pace.rest (hview : v' = v) (hproposes : proposes? = none) (hsends : sends? = none) :
    Pace slot hears proposes? sends? v v' := by
  subst hview
  exact .stay rfl rfl rfl hproposes hsends

theorem Pace.mono (h : Pace slot hears proposes? sends? v v')
    (hmono : ∀ id am, hears id am → hears' id am) :
    Pace slot hears' proposes? sends? v v' := by
  cases h with
  | stay h₁ h₂ h₃ h₄ h₅ => exact .stay h₁ h₂ h₃ h₄ h₅
  | propose h₁ h₂ h₃ => exact .propose h₁ h₂ h₃
  | advance hheard h₁ h₂ h₃ h₄ h₅ h₆ => exact .advance (hmono _ _ hheard) h₁ h₂ h₃ h₄ h₅ h₆

/-- Who offers something has broadcast it. -/
theorem Pace.sends_of_offers (h : Pace slot hears proposes? sends? v v') (hoffers : v.Offers v') :
    sends? = some v'.proposal := by
  cases h with
  | stay hround _ hidle _ _ =>
    rcases hoffers.fresh with ⟨hactive, -⟩ | ⟨-, hnext, -⟩
    · rw [isIdle_of_active hoffers.isActive_eq, hoffers.isIdle_of_inactive hactive] at hidle
      cases hidle
    · rw [hround] at hnext
      exact absurd hnext.symm (by simp)
  | propose hview _ hsends => rw [hsends, (offers_propose hview).2]
  | advance _ _ _ _ _ _ hsends => exact hsends

/-- What a refusal does, told by whether it gives anything to be sent. -/
theorem pace_onNack {sender : HostId} {p : Proposal} (hslot : p.slot = slot)
    (hheard : hears sender (.nack p)) :
    Pace slot hears none (v.onNack sender p.round p.values n).2 v
      (v.onNack sender p.round p.values n).1 := by
  rcases v.onNack_cases sender p.round p.values n with ⟨-, h⟩ |
    ⟨hcounts, ⟨hactive, -, h⟩ | ⟨-, h⟩⟩ <;> rw [h]
  · exact .rest rfl rfl rfl
  · exact .advance hheard hslot hcounts hactive rfl rfl rfl
  · exact .stay rfl rfl rfl rfl rfl

end SlotView

namespace LatticeAgreement

open SlotView (Pace)

variable {a : LatticeAgreement} {sender : HostId} {slot : Slot} {P : Proposal}

/-- The proposal of another round is for the slot of the refusal. -/
theorem slot_of_next? (hproper : ∀ slot, (a.view slot).Proper slot) {am : AgreementMessage}
    (h : a.next? sender am = some P) : P.slot = am.slot := by
  cases am with
  | propose p | ack round slot => cases h
  | nack p =>
    obtain ⟨v, hv, hnext⟩ := Option.bind_eq_some_iff.mp h
    have hv' : v.Proper p.slot := view_eq_of_getElem? hv ▸ hproper p.slot
    obtain ⟨hoffers, rfl⟩ := SlotView.offers_onNack hv' hnext
    exact hoffers.slot_eq.trans hv'.slot_eq

theorem pace_onAgreement_propose (sender : HostId) (p : Proposal) (now : Nat)
    {hears : HostId → AgreementMessage → Prop} :
    Pace p.slot hears none none (a.view p.slot)
      ((a.onAgreement sender (.propose p) now).state.view p.slot) := by
  have hview : (a.onAgreement sender (.propose p) now).state.view p.slot =
      ((a.view p.slot).onProposal p).1 := by
    simp only [onAgreement, view, slots_reply]
    exact (view_setView a p.slot p.slot _).trans (if_pos rfl)
  rw [hview]
  exact .stay rfl rfl rfl rfl rfl

theorem pace_onAgreement_ack (sender : HostId) (round : UInt32) (slot : Slot) (now : Nat)
    {hears : HostId → AgreementMessage → Prop} :
    Pace slot hears none none (a.view slot)
      ((a.onAgreement sender (.ack round slot) now).state.view slot) := by
  simp only [onAgreement]
  cases hv : a.slots[slot]? with
  | none => exact .rest rfl rfl rfl
  | some v =>
    simp only [← view_eq_of_getElem? hv, view_setView, if_true]
    obtain ⟨-, hoffered, -, hidle⟩ := (a.view slot).onAck_eq sender round a.group.quorum
    have hcounted : (a.view slot).Counted ((a.view slot).onAck sender round a.group.quorum).1
        a.group.quorum fun _ => True := SlotView.counted_onAck fun _ => trivial
    exact .stay hcounted.round_eq hoffered hidle rfl rfl

theorem pace_onAgreement_nack (sender : HostId) (p : Proposal) (now : Nat)
    {hears : HostId → AgreementMessage → Prop} (hheard : hears sender (.nack p)) :
    Pace p.slot hears none (a.next? sender (.nack p)) (a.view p.slot)
      ((a.onAgreement sender (.nack p) now).state.view p.slot) := by
  simp only [onAgreement, next?]
  cases hv : a.slots[p.slot]? with
  | none => exact .rest rfl rfl rfl
  | some v =>
    have hview := view_eq_of_getElem? hv
    subst hview
    have hpace : Pace p.slot hears none
        ((a.view p.slot).onNack sender p.round p.values a.group.quorum).2 (a.view p.slot)
        ((a.view p.slot).onNack sender p.round p.values a.group.quorum).1 :=
      SlotView.pace_onNack rfl hheard
    simp only [Option.bind_some]
    generalize (a.view p.slot).onNack sender p.round p.values a.group.quorum = r at hpace ⊢
    obtain ⟨v', next⟩ := r
    cases next with
    | none => simpa only [view_setView, if_true] using hpace
    | some P => simpa only [view_broadcast, view_setView, if_true] using hpace

theorem pace_onAgreement (hproper : ∀ slot, (a.view slot).Proper slot) (sender : HostId)
    (am : AgreementMessage) (now : Nat) (slot : Slot) :
    Pace slot (fun id am' => id = sender ∧ am' = am) none
      ((a.next? sender am).filter fun P => P.slot = slot) (a.view slot)
      ((a.onAgreement sender am now).state.view slot) := by
  by_cases heq : am.slot = slot
  · subst heq
    have hfilter : (a.next? sender am).filter (fun P => P.slot = am.slot) = a.next? sender am := by
      cases hnext : a.next? sender am with
      | none => rfl
      | some P => simp [slot_of_next? hproper hnext]
    rw [hfilter]
    cases am with
    | propose p => exact pace_onAgreement_propose sender p now
    | ack round slot => exact pace_onAgreement_ack sender round slot now
    | nack p => exact pace_onAgreement_nack sender p now ⟨rfl, rfl⟩
  · refine .rest (view_onAgreement_of_ne heq) rfl ?_
    refine Option.filter_eq_none_iff.mpr fun P hP => ?_
    rw [decide_eq_true_eq, slot_of_next? hproper hP]
    exact heq

/-- **For each slot a step proposes, advances, or stays with what is offered.** -/
theorem pace_apply (hproper : ∀ slot, (a.view slot).Proper slot)
    (st : Node.Stimulus LatticeAgreement) (now : Nat) (slot : Slot) :
    Pace slot (a.Hears st) (a.proposes? st slot now) ((a.sends? st).filter fun P => P.slot = slot)
      (a.view slot) ((st.apply a now).1.view slot) := by
  cases st with
  | none | stop | timeout => exact .rest rfl rfl rfl
  | command p =>
    simp only [apply_command, proposes?, propose, sends?]
    rcases hv : (a.view p.slot).propose p.values with ⟨v, e | proposal⟩
    · exact .rest rfl rfl rfl
    · obtain ⟨hoffers, rfl⟩ := SlotView.offers_propose hv
      have hslot : v.proposal.slot = p.slot := hoffers.slot_eq.trans (hproper p.slot).slot_eq
      simp only [view_broadcast, view_setView]
      by_cases heq : p.slot = slot
      · subst heq
        rw [if_pos rfl, if_pos rfl]
        exact .propose hv rfl (by simp [hslot])
      · rw [if_neg heq, if_neg heq]
        exact .rest rfl rfl (by simp [hslot, heq])
  | message m =>
    show Pace slot _ none (((a.heard m.sender m).bind (a.next? m.sender)).filter _) _
      ((a.deliver m.sender m now).state.view slot)
    cases hheard : a.heard m.sender m with
    | none =>
      rw [deliver_of_heard_eq_none hheard]
      exact .rest rfl rfl rfl
    | some am =>
      rw [deliver_of_heard_eq_some hheard]
      refine (pace_onAgreement (a := a.received m.sender m) hproper m.sender am now slot).mono ?_
      rintro id am' ⟨rfl, rfl⟩
      exact ⟨m, rfl, rfl, hheard⟩

end LatticeAgreement

end Groupcast
