import Groupcast.Agreement.Message
import Groupcast.Proofs.Agreement.Slot

/-!
# One slot in all members

What the members of a group know of a slot, and what they have told each other about it.  `Council`
lists what always holds of the two together; `comparable_of_decided` draws the conclusion that any
two decided sets are comparable.

A member does one of three things to a slot.  It offers a proposal and begins a round
(`Council.offer`), it answers a proposal (`Council.answer`), or it counts a reply
(`Council.count`).  The proposals of a round never change, an acceptor accepts them in ascending
order, and a decision rests on a majority of acceptors that have all accepted it.
-/

namespace Groupcast

/-- The acceptances that a member has counted come from as many members, and a decision rests on a
majority.  `accepted` says who has accepted which round. -/
structure SlotView.Backed (v : SlotView) (n : Nat) (accepted : HostId → UInt32 → Prop) : Prop where
  exists_acks : ∃ A : List HostId, A.Nodup ∧ A.length = v.acks ∧
    ∀ a ∈ A, a ∈ v.responded ∧ accepted a v.round
  le_acks : v.isDecided = true → n ≤ v.acks

/-- What always holds of the proposals that members have told of.  A member may begin a round for
each message that its `budget` counts. -/
structure Proposers (view : HostId → SlotView) (told : HostId → HostId → AgreementMessage → Prop)
    (budget : HostId → Nat) : Prop where
  /-- A proposal has been offered in the current round or before. -/
  offered_of_told : ∀ {p q P}, told p q (.propose P) → (view p).isIdle = false ∧
    P.round.toNat ≤ (view p).round.toNat ∧
      (P.round = (view p).round → P.values = (view p).offered)
  /-- The proposal of a round never changes. -/
  values_eq : ∀ {p q q' P P'}, told p q (.propose P) → told p q' (.propose P') →
    P.round = P'.round → P.values = P'.values
  round_of_idle : ∀ p, (view p).isIdle = true → (view p).round = 0
  round_lt : ∀ p, (view p).isIdle = false → (view p).round.toNat < budget p

/-- What always holds of the acceptances that members have told of. -/
structure Acceptors (slot : Slot) (view : HostId → SlotView)
    (told : HostId → HostId → AgreementMessage → Prop) : Prop where
  accepted_of_ack : ∀ {a p r}, told a p (.ack r slot) →
    ∃ P, told p a (.propose P) ∧ P.round = r ∧ P.values.Within (view a).accepted
  /-- What one acceptor accepts is a chain. -/
  chain : ∀ {a p p' P P'}, told a p (.ack P.round slot) → told p a (.propose P) →
    told a p' (.ack P'.round slot) → told p' a (.propose P') →
      P.values.Within P'.values ∨ P'.values.Within P.values

/-- What always holds of the views that the members of a group have of a slot and of what they have
told each other about it. -/
structure Council (members : List HostId) (slot : Slot) (view : HostId → SlotView)
    (told : HostId → HostId → AgreementMessage → Prop) (budget : HostId → Nat) : Prop where
  slot_eq : ∀ p, (view p).slot = slot
  mem_of_told : ∀ {p q m}, told p q m → p ∈ members
  proposers : Proposers view told budget
  acceptors : Acceptors slot view told
  backed : ∀ p, (view p).Backed (quorum members.length) fun a r => told a p (.ack r slot)

variable {members : List HostId} {slot : Slot} {view view' : HostId → SlotView}
  {told told' : HostId → HostId → AgreementMessage → Prop} {budget budget' : HostId → Nat}
  {p q x : HostId} {v v' : SlotView}

/-! ## Counts of acceptances -/

namespace SlotView.Backed

variable {n : Nat} {accepted accepted' : HostId → UInt32 → Prop}

theorem mono (h : v.Backed n accepted) (hmono : ∀ a r, accepted a r → accepted' a r) :
    v.Backed n accepted' := by
  obtain ⟨⟨A, hnodup, hlength, hA⟩, hle⟩ := h
  exact ⟨⟨A, hnodup, hlength, fun a ha => ⟨(hA a ha).1, hmono a _ (hA a ha).2⟩⟩, hle⟩

theorem offers (h : v.Backed n accepted) (hv : v.Offers v') : v'.Backed n accepted := by
  have hundecided : v'.isDecided = true → n ≤ v'.acks := by
    rw [hv.isDecided_eq]
    nofun
  rcases hv.fresh with ⟨-, hround, hacks, hresponded⟩ | ⟨-, -, hacks⟩
  · refine ⟨?_, hundecided⟩
    rw [hround, hacks, hresponded]
    exact h.exists_acks
  · exact ⟨⟨[], List.nodup_nil, hacks.symm, nofun⟩, hundecided⟩

theorem counted (h : v.Backed n accepted) (hv : v.Counted v' n (accepted · v.round)) :
    v'.Backed n accepted := by
  obtain ⟨A, hnodup, hlength, hA⟩ := h.exists_acks
  have hle : v.acks ≤ v'.acks := by
    rcases hv.acks_eq with ⟨hacks, -⟩ | ⟨_, -, -, hacks, -⟩
    · exact Nat.le_of_eq hacks.symm
    · exact hacks ▸ Nat.le_succ _
  refine ⟨?_, fun hdecided => ?_⟩
  · rw [hv.round_eq]
    rcases hv.acks_eq with ⟨hacks, hresponded⟩ | ⟨id, hnew, haccepted, hacks, hresponded⟩
    · rw [hacks]
      exact ⟨A, hnodup, hlength, fun a ha => ⟨hresponded a (hA a ha).1, (hA a ha).2⟩⟩
    · rw [hacks, hresponded]
      refine ⟨id :: A, List.nodup_cons.mpr ⟨fun ha => hnew (hA id ha).1, hnodup⟩,
        congrArg (· + 1) hlength, fun a ha => ?_⟩
      rcases List.mem_cons.mp ha with rfl | hold
      · exact ⟨Std.ExtTreeSet.mem_insert.mpr (Or.inl Std.compare_self), haccepted⟩
      · exact ⟨Std.ExtTreeSet.mem_insert.mpr (Or.inr (hA a hold).1), (hA a hold).2⟩
  · rcases hv.decides with ⟨-, heq⟩ | ⟨-, -, -, hquorum⟩
    · exact Nat.le_trans (h.le_acks (heq ▸ hdecided)) hle
    · exact hquorum

end SlotView.Backed

/-! ## Proposals -/

namespace Proposers

/-- As long as the budget does not wrap, neither do the rounds. -/
theorem toNat_succ_round (h : Proposers view told budget) (hbusy : (view x).isIdle = false)
    (hwrap : budget x + 1 < UInt32.size) :
    ((view x).round + 1).toNat = (view x).round.toNat + 1 := by
  have hlt := h.round_lt x hbusy
  rw [UInt32.toNat_add]
  exact Nat.mod_eq_of_lt (show (view x).round.toNat + 1 < UInt32.size by omega)

/-- A member that makes an offer begins a round later than all that it has told of. -/
theorem round_lt_of_offers {P : Proposal} (h : Proposers view told budget)
    (hoffers : (view x).Offers v') (hwrap : budget x + 1 < UInt32.size)
    (hP : told x q (.propose P)) : P.round.toNat < v'.round.toNat := by
  obtain ⟨hbusy, hle, -⟩ := h.offered_of_told hP
  rcases hoffers.fresh with ⟨hactive, -⟩ | ⟨-, hround, -⟩
  · cases hbusy.symm.trans (hoffers.isIdle_of_inactive hactive)
  · rw [hround, h.toNat_succ_round hbusy hwrap]
    omega

/-- Nothing changes for the proposers. -/
theorem keep (h : Proposers view told budget)
    (hview : ∀ p, (view' p).round = (view p).round ∧ (view' p).offered = (view p).offered ∧
      (view' p).isIdle = (view p).isIdle)
    (hpropose : ∀ p q P, told' p q (.propose P) → told p q (.propose P))
    (hbudget : ∀ p, budget p ≤ budget' p) : Proposers view' told' budget' where
  offered_of_told := by
    intro p q P hP
    obtain ⟨hround, hoffered, hidle⟩ := hview p
    rw [hround, hoffered, hidle]
    exact h.offered_of_told (hpropose p q P hP)
  values_eq hP hP' := h.values_eq (hpropose _ _ _ hP) (hpropose _ _ _ hP')
  round_of_idle p hp := by
    obtain ⟨hround, -, hidle⟩ := hview p
    rw [hround]
    exact h.round_of_idle p (hidle.symm.trans hp)
  round_lt p hp := by
    obtain ⟨hround, -, hidle⟩ := hview p
    rw [hround]
    exact Nat.lt_of_lt_of_le (h.round_lt p (hidle.symm.trans hp)) (hbudget p)

/-- A member makes an offer and tells of it. -/
theorem offer (h : Proposers view told budget) (hoffers : (view x).Offers (view' x))
    (hother : ∀ p, p ≠ x → view' p = view p)
    (hpropose : ∀ p q P, told' p q (.propose P) →
      told p q (.propose P) ∨ p = x ∧ P = (view' x).proposal)
    (hbudget : ∀ p, budget p ≤ budget' p) (hcost : budget x < budget' x)
    (hwrap : budget' x < UInt32.size) : Proposers view' told' budget' := by
  have hbusy : (view' x).isIdle = false := SlotView.isIdle_of_active hoffers.isActive_eq
  have hlater : ∀ {q P}, told x q (.propose P) → P.round.toNat < (view' x).round.toNat :=
    fun hP => h.round_lt_of_offers hoffers (by omega) hP
  have hround : ∀ {q P}, told x q (.propose P) → P.round ≠ (view' x).round := by
    intro q P hP heq
    exact Nat.lt_irrefl _ (heq ▸ hlater hP)
  refine ⟨fun {p q P} hP => ?_, fun {p q q' P P'} hP hP' heq => ?_, fun p hidle => ?_,
    fun p hp => ?_⟩
  · rcases hpropose p q P hP with hold | ⟨rfl, rfl⟩
    · by_cases hp : p = x
      · subst hp
        exact ⟨hbusy, Nat.le_of_lt (hlater hold), fun heq => absurd heq (hround hold)⟩
      · rw [hother p hp]
        exact h.offered_of_told hold
    · exact ⟨hbusy, Nat.le_refl _, fun _ => rfl⟩
  · rcases hpropose p q P hP with hold | ⟨rfl, rfl⟩ <;>
      rcases hpropose _ q' P' hP' with hold' | ⟨hx', rfl⟩
    · exact h.values_eq hold hold' heq
    · subst hx'
      exact absurd heq (hround hold)
    · exact absurd heq.symm (hround hold')
    · rfl
  · by_cases hp : p = x
    · subst hp
      cases hidle.symm.trans hbusy
    · rw [hother p hp] at hidle ⊢
      exact h.round_of_idle p hidle
  · by_cases hpx : p = x
    · subst hpx
      rcases hoffers.fresh with ⟨hactive, hround, -⟩ | ⟨hactive, hround, -⟩
      · rw [hround, h.round_of_idle p (hoffers.isIdle_of_inactive hactive)]
        exact Nat.lt_of_le_of_lt (Nat.zero_le _) hcost
      · have hbefore := SlotView.isIdle_of_active hactive
        have hlt := h.round_lt p hbefore
        rw [hround, h.toNat_succ_round hbefore (by omega)]
        omega
    · rw [hother p hpx] at hp ⊢
      exact Nat.lt_of_lt_of_le (h.round_lt p hp) (hbudget p)

end Proposers

/-! ## Acceptances -/

namespace Acceptors

/-- Nothing changes for the acceptors, except that more is proposed. -/
theorem keep (h : Acceptors slot view told)
    (hview : ∀ p, (view' p).accepted = (view p).accepted)
    (hmono : ∀ p q m, told p q m → told' p q m)
    (hack : ∀ a p r, told' a p (.ack r slot) → told a p (.ack r slot))
    (hpropose : ∀ a p P, told' a p (.ack P.round slot) → told' p a (.propose P) →
      told p a (.propose P)) : Acceptors slot view' told' where
  accepted_of_ack := by
    intro a p r hr
    obtain ⟨P, hP, hround, hwithin⟩ := h.accepted_of_ack (hack a p r hr)
    exact ⟨P, hmono _ _ _ hP, hround, by rw [hview]; exact hwithin⟩
  chain hr hP hr' hP' :=
    h.chain (hack _ _ _ hr) (hpropose _ _ _ hr hP) (hack _ _ _ hr') (hpropose _ _ _ hr' hP')

/-- A member answers a proposal.  It accepts only what includes all that it has accepted before. -/
theorem answer {sender : HostId} {P : Proposal} (h : Acceptors slot view told)
    (hproposers : Proposers view told budget) (hslot : (view x).slot = slot)
    (hheard : told sender x (.propose P)) (hself : view' x = ((view x).onProposal P).1)
    (hother : ∀ p, p ≠ x → view' p = view p) (hmono : ∀ p q m, told p q m → told' p q m)
    (hnew : ∀ p q m, told' p q m →
      told p q m ∨ p = x ∧ q = sender ∧ m = ((view x).onProposal P).2) :
    Acceptors slot view' told' := by
  have haccepted : ∀ a, (view a).accepted.Within (view' a).accepted := by
    intro a
    by_cases ha : a = x
    · subst ha
      rw [hself]
      exact SlotView.within_accepted_onProposal P
    · rw [hother a ha]
      exact .refl _
  have hpropose : ∀ {p q Q}, told' p q (.propose Q) → told p q (.propose Q) := by
    intro p q Q hQ
    rcases hnew p q _ hQ with hold | ⟨-, -, heq⟩
    · exact hold
    · exact absurd heq.symm (SlotView.onProposal_ne_propose P Q)
  have hack : ∀ {a p r}, told' a p (.ack r slot) → told a p (.ack r slot) ∨
      a = x ∧ p = sender ∧ r = P.round ∧ (view x).accepted.Within P.values := by
    intro a p r hr
    rcases hnew a p _ hr with hold | ⟨ha, hp, heq⟩
    · exact Or.inl hold
    · exact Or.inr ⟨ha, hp, SlotView.onProposal_eq_ack heq.symm⟩
  -- What `x` has accepted before is included in what it accepts now.
  have hwithin : ∀ {p Q}, told x p (.ack Q.round slot) → told p x (.propose Q) →
      Q.values.Within (view x).accepted := by
    intro p Q hr hQ
    obtain ⟨Q', hQ', hround, hwithin⟩ := h.accepted_of_ack hr
    rw [hproposers.values_eq hQ hQ' hround.symm]
    exact hwithin
  refine ⟨fun {a p r} hr => ?_, fun {a p p' Q Q'} hr hQ hr' hQ' => ?_⟩
  · rcases hack hr with hold | ⟨rfl, rfl, rfl, -⟩
    · obtain ⟨Q, hQ, hround, hwithin⟩ := h.accepted_of_ack hold
      exact ⟨Q, hmono _ _ _ hQ, hround, hwithin.trans (haccepted a)⟩
    · refine ⟨P, hmono _ _ _ hheard, rfl, ?_⟩
      rw [hself]
      exact SlotView.within_onProposal (view a) P
  · rcases hack hr with hold | ⟨rfl, rfl, hround, hle⟩ <;>
      rcases hack hr' with hold' | ⟨ha', rfl, hround', hle'⟩
    · exact h.chain hold (hpropose hQ) hold' (hpropose hQ')
    · subst ha'
      rw [hproposers.values_eq (hpropose hQ') hheard hround']
      exact Or.inl ((hwithin hold (hpropose hQ)).trans hle')
    · rw [hproposers.values_eq (hpropose hQ) hheard hround]
      exact Or.inr ((hwithin hold' (hpropose hQ')).trans hle)
    · rw [hproposers.values_eq (hpropose hQ) hheard hround,
        hproposers.values_eq (hpropose hQ') hheard hround']
      exact Or.inl (.refl _)

end Acceptors

/-! ## All of it -/

namespace Council

/-- Nobody has heard of a slot. -/
theorem ofSlot (members : List HostId) (slot : Slot) (htold : ∀ p q m, ¬ told p q m) :
    Council members slot (fun _ => .ofSlot slot) told budget where
  slot_eq _ := rfl
  mem_of_told h := absurd h (htold _ _ _)
  proposers := ⟨fun h => absurd h (htold _ _ _), fun h => absurd h (htold _ _ _), fun _ _ => rfl,
    nofun⟩
  acceptors := ⟨fun h => absurd h (htold _ _ _), fun h => absurd h (htold _ _ _)⟩
  backed _ := ⟨⟨[], List.nodup_nil, rfl, nofun⟩, nofun⟩

/-- A member may be allowed more rounds, and need not tell more. -/
theorem rest (h : Council members slot view told budget) (htold : ∀ p q m, told' p q m ↔ told p q m)
    (hbudget : ∀ p, budget p ≤ budget' p) : Council members slot view told' budget' where
  slot_eq := h.slot_eq
  mem_of_told hm := h.mem_of_told ((htold _ _ _).mp hm)
  proposers := h.proposers.keep (fun _ => ⟨rfl, rfl, rfl⟩)
    (fun _ _ _ => (htold _ _ _).mp) hbudget
  acceptors := h.acceptors.keep (fun _ => rfl) (fun _ _ _ => (htold _ _ _).mpr)
    (fun _ _ _ => (htold _ _ _).mp) (fun _ _ _ _ => (htold _ _ _).mp)
  backed p := (h.backed p).mono fun _ _ => (htold _ _ _).mpr

/-- A member makes an offer, of which it tells some. -/
theorem offer (h : Council members slot view told budget) (hx : x ∈ members)
    (hoffers : (view x).Offers (view' x)) (hother : ∀ p, p ≠ x → view' p = view p)
    (hmono : ∀ p q m, told p q m → told' p q m)
    (hnew : ∀ p q m, told' p q m → told p q m ∨ p = x ∧ m = .propose (view' x).proposal)
    (hbudget : ∀ p, budget p ≤ budget' p) (hcost : budget x < budget' x)
    (hwrap : budget' x < UInt32.size) : Council members slot view' told' budget' := by
  have hack : ∀ a p r, told' a p (.ack r slot) → told a p (.ack r slot) := by
    intro a p r hr
    rcases hnew a p _ hr with hold | ⟨-, heq⟩
    · exact hold
    · cases heq
  refine ⟨fun p => ?_, fun hm => ?_, ?_, ?_, fun p => ?_⟩
  · by_cases hp : p = x
    · rw [hp, hoffers.slot_eq, h.slot_eq]
    · rw [hother p hp, h.slot_eq]
  · rcases hnew _ _ _ hm with hold | ⟨rfl, -⟩
    · exact h.mem_of_told hold
    · exact hx
  · refine h.proposers.offer hoffers hother (fun p q P hP => ?_) hbudget hcost hwrap
    exact (hnew p q _ hP).imp_right fun ⟨hp, heq⟩ => ⟨hp, AgreementMessage.propose.inj heq⟩
  · refine h.acceptors.keep (fun p => ?_) hmono hack (fun a p P hr hP => ?_)
    · by_cases hp : p = x
      · rw [hp, hoffers.accepted_eq]
      · rw [hother p hp]
    · -- What has been accepted was offered before.
      rcases hnew p a _ hP with hold | ⟨rfl, heq⟩
      · exact hold
      · cases heq
        obtain ⟨P₀, hP₀, heq, -⟩ := h.acceptors.accepted_of_ack (hack a p _ hr)
        have hlt := h.proposers.round_lt_of_offers hoffers (by omega) hP₀
        rw [heq] at hlt
        exact absurd hlt (Nat.lt_irrefl _)
  · have hbacked := (h.backed p).mono fun a r => hmono a p (.ack r slot)
    by_cases hp : p = x
    · subst hp
      exact hbacked.offers hoffers
    · rw [hother p hp]
      exact hbacked

/-- A member answers a proposal. -/
theorem answer {sender : HostId} {P : Proposal} (h : Council members slot view told budget)
    (hx : x ∈ members) (hheard : told sender x (.propose P))
    (hself : view' x = ((view x).onProposal P).1) (hother : ∀ p, p ≠ x → view' p = view p)
    (hmono : ∀ p q m, told p q m → told' p q m)
    (hnew : ∀ p q m, told' p q m →
      told p q m ∨ p = x ∧ q = sender ∧ m = ((view x).onProposal P).2)
    (hbudget : ∀ p, budget p ≤ budget' p) : Council members slot view' told' budget' := by
  have hview : ∀ p, (view' p).slot = (view p).slot ∧ (view' p).round = (view p).round ∧
      (view' p).offered = (view p).offered ∧ (view' p).isIdle = (view p).isIdle ∧
      (view' p).isDecided = (view p).isDecided ∧ (view' p).acks = (view p).acks ∧
      (view' p).responded = (view p).responded := by
    intro p
    by_cases hp : p = x
    · subst hp
      rw [hself]
      exact ⟨rfl, rfl, rfl, rfl, rfl, rfl, rfl⟩
    · rw [hother p hp]
      exact ⟨rfl, rfl, rfl, rfl, rfl, rfl, rfl⟩
  refine ⟨fun p => ?_, fun hm => ?_, ?_, ?_, fun p => ?_⟩
  · rw [(hview p).1, h.slot_eq]
  · rcases hnew _ _ _ hm with hold | ⟨rfl, -, -⟩
    · exact h.mem_of_told hold
    · exact hx
  · refine h.proposers.keep (fun p => ?_) (fun p q Q hQ => ?_) hbudget
    · obtain ⟨-, hround, hoffered, hidle, -⟩ := hview p
      exact ⟨hround, hoffered, hidle⟩
    · rcases hnew p q _ hQ with hold | ⟨-, -, heq⟩
      · exact hold
      · exact absurd heq.symm (SlotView.onProposal_ne_propose P Q)
  · exact h.acceptors.answer h.proposers (h.slot_eq x) hheard hself hother hmono hnew
  · obtain ⟨-, hround, -, -, hdecided, hacks, hresponded⟩ := hview p
    have hbacked := (h.backed p).mono fun a r => hmono a p (.ack r slot)
    refine ⟨?_, ?_⟩
    · rw [hround, hacks, hresponded]
      exact hbacked.exists_acks
    · rw [hdecided, hacks]
      exact hbacked.le_acks

/-- A member takes in a reply. -/
theorem count (h : Council members slot view told budget)
    (hcounted : (view x).Counted (view' x) (quorum members.length)
      fun a => told a x (.ack (view x).round slot))
    (hother : ∀ p, p ≠ x → view' p = view p) : Council members slot view' told budget := by
  refine ⟨fun p => ?_, h.mem_of_told, ?_, ?_, fun p => ?_⟩
  · by_cases hp : p = x
    · rw [hp, hcounted.slot_eq, h.slot_eq]
    · rw [hother p hp, h.slot_eq]
  · refine h.proposers.keep (fun p => ?_) (fun _ _ _ hP => hP) (fun _ => Nat.le_refl _)
    by_cases hp : p = x
    · subst hp
      exact ⟨hcounted.round_eq, hcounted.offered_eq, hcounted.isIdle_eq⟩
    · rw [hother p hp]
      exact ⟨rfl, rfl, rfl⟩
  · refine h.acceptors.keep (fun p => ?_) (fun _ _ _ hm => hm) (fun _ _ _ hr => hr)
      (fun _ _ _ _ hP => hP)
    by_cases hp : p = x
    · rw [hp, hcounted.accepted_eq]
    · rw [hother p hp]
  · by_cases hp : p = x
    · subst hp
      exact (h.backed p).counted hcounted
    · rw [hother p hp]
      exact h.backed p

/-- **Any two decided sets are comparable.**  Some member is among the acceptors of both. -/
theorem comparable_of_decided (h : Council members slot view told budget)
    (hp : (view p).isDecided = true) (hq : (view q).isDecided = true) :
    (view p).offered.Within (view q).offered ∨ (view q).offered.Within (view p).offered := by
  obtain ⟨A, hAnodup, hAlength, hA⟩ := (h.backed p).exists_acks
  obtain ⟨B, hBnodup, hBlength, hB⟩ := (h.backed q).exists_acks
  obtain ⟨a, haA, haB⟩ := exists_mem_of_quorum hAnodup hBnodup
    (fun a ha => h.mem_of_told (hA a ha).2) (fun a ha => h.mem_of_told (hB a ha).2)
    (hAlength ▸ (h.backed p).le_acks hp) (hBlength ▸ (h.backed q).le_acks hq)
  have hack := (hA a haA).2
  have hack' := (hB a haB).2
  obtain ⟨P, hP, hround, -⟩ := h.acceptors.accepted_of_ack hack
  obtain ⟨P', hP', hround', -⟩ := h.acceptors.accepted_of_ack hack'
  rw [← (h.proposers.offered_of_told hP).2.2 hround,
    ← (h.proposers.offered_of_told hP').2.2 hround']
  exact h.acceptors.chain (hround ▸ hack) hP (hround' ▸ hack') hP'

end Council

end Groupcast
