import Groupcast.Proofs.Agreement.Pace
import Groupcast.Proofs.Agreement.Validity
import Mathlib.Algebra.Order.BigOperators.Group.Finset

/-!
# Rounds come to an end

Each round that a refusal begins offers more than the one before.  This cannot be seen from the
proposer alone: it rests on the acceptor, which refuses only what lacks something that it has
accepted (`refused_of_nack`), and on the fact that the proposal of a round never changes.  So what
the acceptor has missed is still missing in what is offered when the refusal is counted, however
long it has been on its way.

All that is offered has been proposed by some member.  The rounds of a slot are therefore no more
than what has been proposed for it (`rounds_bounded`): as long as nobody proposes anything new,
only so many proposals are broadcast.
-/

namespace Groupcast

namespace ValueSet

variable {A B : ValueSet} {v : Value}

/-- The same values as a finite set of mathematics. -/
def toFinset (A : ValueSet) : Finset Value := A.toList.toFinset

@[simp] theorem mem_toFinset : v ∈ A.toFinset ↔ v ∈ A := by
  rw [toFinset, List.mem_toFinset, Std.ExtTreeSet.mem_toList]

@[simp] theorem card_toFinset (A : ValueSet) : A.toFinset.card = A.size := by
  have hnodup : A.toList.Nodup :=
    A.distinct_toList.imp fun hne heq => hne (Std.compare_eq_iff_eq.mpr heq)
  rw [toFinset, List.toFinset_card_of_nodup hnodup, Std.ExtTreeSet.length_toList]

theorem size_le_of_within (h : A.Within B) : A.size ≤ B.size := by
  rw [← card_toFinset, ← card_toFinset]
  refine Finset.card_le_card fun v hv => ?_
  rw [mem_toFinset] at hv ⊢
  exact h v hv

theorem size_lt_of_within (h : A.Within B) (hne : ¬ B.Within A) : A.size < B.size := by
  rw [← card_toFinset, ← card_toFinset]
  refine Finset.card_lt_card ⟨fun v hv => ?_, fun hsub => hne fun v hv => ?_⟩
  · rw [mem_toFinset] at hv ⊢
    exact h v hv
  · rw [← mem_toFinset] at hv ⊢
    exact hsub hv

end ValueSet

/-! ## What a slot has room for -/

namespace SlotView

/-- The rounds of a slot do not run ahead of what has been proposed and is offered. -/
structure Paced (v : SlotView) (proposed broadcast : Nat) : Prop where
  idle : v.isIdle = true → v.round = 0 ∧ broadcast = 0
  round_lt : v.isIdle = false → v.round.toNat < broadcast
  le : broadcast ≤ proposed + v.offered.size

variable {slot : Slot} {hears : HostId → AgreementMessage → Prop} {proposes? : Option ValueSet}
  {sends? : Option Proposal} {v v' : SlotView} {sender : HostId} {p : Proposal}
  {proposed broadcast : Nat}

theorem paced_ofSlot (slot : Slot) : (ofSlot slot).Paced 0 0 where
  idle _ := ⟨rfl, rfl⟩
  round_lt := nofun
  le := Nat.zero_le _

theorem toNat_succ_le (round : UInt32) : (round + 1).toNat ≤ round.toNat + 1 := by
  rw [UInt32.toNat_add]
  exact Nat.mod_le _ _

/-- A refusal that tells of something new makes the next round offer more. -/
theorem grows_of_refusing (sender : HostId) (hcovers : v.offered.Within v.proposed)
    (hnew : ¬ p.values.Within v.offered) :
    v.offered.Within (v.refusing sender p.values).nextRound.offered ∧
      ¬ (v.refusing sender p.values).nextRound.offered.Within v.offered := by
  refine ⟨hcovers.trans (ValueSet.within_union_left _ _), fun hwithin => hnew ?_⟩
  exact (ValueSet.within_union_right _ _).trans hwithin

theorem Paced.propose {values : ValueSet} (h : v.Paced proposed broadcast)
    (hview : v.propose values = (v', .ok p))
    (hcovers : v.isIdle = false → v.offered.Within v.proposed) :
    v'.Paced (proposed + 1) (broadcast + 1) := by
  obtain ⟨hactive', -, hoffered, -⟩ := propose_eq_ok hview
  have hle := h.le
  have hoffers := (offers_propose hview).1
  refine ⟨fun hidle => ?_, fun _ => ?_, ?_⟩
  · cases hidle.symm.trans (isIdle_of_active hactive')
  · rcases hoffers.fresh with ⟨hactive, hround, -⟩ | ⟨hactive, hround, -⟩
    · rw [hround, (h.idle (hoffers.isIdle_of_inactive hactive)).1]
      exact Nat.succ_pos broadcast
    · have hlt := h.round_lt (isIdle_of_active hactive)
      have hsucc := toNat_succ_le v.round
      rw [hround]
      omega
  · rcases hoffers.fresh with ⟨hactive, -⟩ | ⟨hactive, -⟩
    · rw [(h.idle (hoffers.isIdle_of_inactive hactive)).2]
      omega
    · have hgrown : v.offered.size ≤ v'.offered.size := by
        refine ValueSet.size_le_of_within ?_
        rw [hoffered]
        exact (hcovers (isIdle_of_active hactive)).trans (ValueSet.within_union_left _ _)
      omega

theorem Paced.advance (h : v.Paced proposed broadcast) (sender : HostId)
    (hbusy : v.isIdle = false) (hcovers : v.offered.Within v.proposed)
    (hnew : ¬ p.values.Within v.offered) :
    (v.refusing sender p.values).nextRound.Paced proposed (broadcast + 1) := by
  obtain ⟨hwithin, hne⟩ := grows_of_refusing sender hcovers hnew
  have hgrown := ValueSet.size_lt_of_within hwithin hne
  have hle := h.le
  refine ⟨fun hidle => ?_, fun _ => ?_, ?_⟩
  · cases hbusy.symm.trans hidle
  · have hlt := h.round_lt hbusy
    have hsucc := toNat_succ_le v.round
    show (v.round + 1).toNat < broadcast + 1
    omega
  · omega

/-- **No step makes the rounds run ahead**, as long as refusals tell of something new. -/
theorem Paced.pace (h : v.Paced proposed broadcast)
    (hpace : Pace slot hears proposes? sends? v v')
    (hcovers : v.isIdle = false → v.offered.Within v.proposed)
    (hnew : ∀ sender p, hears sender (.nack p) → p.slot = slot → p.round = v.round →
      ¬ p.values.Within v.offered) :
    v'.Paced (proposed + proposes?.toList.length) (broadcast + sends?.toList.length) := by
  cases hpace with
  | stay hround hoffered hidle hproposes hsends =>
    rw [hproposes, hsends]
    refine ⟨fun hidle' => ?_, fun hbusy => ?_, ?_⟩
    · rw [hround]
      exact h.idle (hidle.symm.trans hidle')
    · rw [hround]
      exact h.round_lt (hidle.symm.trans hbusy)
    · rw [hoffered]
      exact h.le
  | propose hview hproposes hsends =>
    rw [hproposes, hsends]
    exact h.propose hview hcovers
  | @advance sender p hheard hslot hcounts hactive hview hproposes hsends =>
    have hbusy := isIdle_of_active hactive
    rw [hproposes, hsends, hview]
    exact h.advance sender hbusy (hcovers hbusy)
      (hnew sender p hheard hslot (counts_iff.mp hcounts).1)

end SlotView

/-! ## What a group has proposed -/

/-- The request of the local application that is met in a step, if one is. -/
def Occurrence.requests? (o : Occurrence (Node LatticeAgreement)) : Option SlotValues :=
  o.before.protocol.requests? (o.before.stimulus o.cause) o.now

/-- The proposal of another round that a refusal makes a member begin in a step. -/
def Occurrence.advances? (o : Occurrence (Node LatticeAgreement)) : Option Proposal :=
  o.before.protocol.advances? (o.before.stimulus o.cause)

/-- The proposal that is broadcast in a step. -/
def Occurrence.sends? (o : Occurrence (Node LatticeAgreement)) : Option Proposal :=
  o.before.protocol.sends? (o.before.stimulus o.cause)

theorem Occurrence.proposes?_eq (slot : Slot) (o : Occurrence (Node LatticeAgreement)) :
    o.proposes? slot =
      o.requests?.bind fun r => if r.slot = slot then some r.values else none :=
  LatticeAgreement.proposes?_eq _ _ slot o.now

namespace System

variable {hosts : Hosts} {tuning : HostId → Tuning} {watches : HostId → Bool}
  {s : System (Node LatticeAgreement)} {c : Cause (Node LatticeAgreement)} {p q x : HostId}
  {now : Nat} {slot : Slot} {v : Value} {N P : Proposal}

/-- All requests that members have met, each a proposal of values for a slot. -/
def requests (s : System (Node LatticeAgreement)) : List SlotValues :=
  s.history.filterMap Occurrence.requests?

/-- The different values that members have proposed for a slot. -/
def valuesFor (s : System (Node LatticeAgreement)) (slot : Slot) : Finset Value :=
  ((s.requests.filter fun r => r.slot = slot).flatMap fun r => r.values.toList).toFinset

/-- The different values that members have proposed for any slot. -/
def valuesForAll (s : System (Node LatticeAgreement)) : Finset Value :=
  (s.requests.flatMap fun r => r.values.toList).toFinset

/-- All proposals that members have broadcast. -/
def broadcastProposals (s : System (Node LatticeAgreement)) : List Proposal :=
  s.history.filterMap Occurrence.sends?

/-- The proposals for a slot that a member has broadcast, in order. -/
def proposalsSent (s : System (Node LatticeAgreement)) (slot : Slot) (p : HostId) :
    List Proposal :=
  s.record p fun o => o.sends?.filter fun P => P.slot = slot

theorem valuesFor_subset (s : System (Node LatticeAgreement)) (slot : Slot) :
    s.valuesFor slot ⊆ s.valuesForAll := by
  intro v hv
  rw [valuesFor, List.mem_toFinset, List.mem_flatMap] at hv
  obtain ⟨r, hr, hv⟩ := hv
  rw [valuesForAll, List.mem_toFinset, List.mem_flatMap]
  exact ⟨r, (List.mem_filter.mp hr).1, hv⟩

/-- What some member has proposed for a slot is among these values. -/
theorem mem_valuesFor_of_proposed (h : s.Proposed hosts slot v) : v ∈ s.valuesFor slot := by
  obtain ⟨q, -, A, hA, hv⟩ := h
  obtain ⟨o, ho, -, hproposes⟩ := exists_of_mem_record hA
  rw [Occurrence.proposes?_eq] at hproposes
  obtain ⟨r, hr, hvalues⟩ := Option.bind_eq_some_iff.mp hproposes
  split at hvalues
  · rename_i hslot
    cases hvalues
    rw [valuesFor, List.mem_toFinset, List.mem_flatMap]
    refine ⟨r, List.mem_filter.mpr ⟨List.mem_filterMap.mpr ⟨o, ho, hr⟩, ?_⟩, ?_⟩
    · exact decide_eq_true hslot
    · exact Std.ExtTreeSet.mem_toList.mpr hv
  · cases hvalues

theorem proposalsSent_step_self :
    (s.step x c now).proposalsSent slot x = s.proposalsSent slot x ++
      (Option.filter (fun P : Proposal => P.slot = slot)
        (Occurrence.sends? ⟨x, s.members x, c, now⟩)).toList := by
  rw [proposalsSent, record_step, if_pos rfl]
  rfl

theorem proposalsSent_step_of_ne (hp : p ≠ x) :
    (s.step x c now).proposalsSent slot p = s.proposalsSent slot p := by
  rw [proposalsSent, record_step, if_neg (Ne.symm hp), List.append_nil]
  rfl

/-- What a step does to what a member offers for a slot. -/
theorem pace_step (h : s.Reachable hosts fun id =>
      .fresh LatticeAgreement.ofHosts hosts (tuning id) (watches id) id) (x : HostId)
    (c : Cause (Node LatticeAgreement)) (now : Nat) (slot : Slot) :
    SlotView.Pace slot ((s.members x).protocol.Hears ((s.members x).stimulus c))
      (Occurrence.proposes? slot ⟨x, s.members x, c, now⟩)
      ((Occurrence.sends? ⟨x, s.members x, c, now⟩).filter fun P => P.slot = slot)
      (s.viewAt slot x) ((s.step x c now).viewAt slot x) := by
  rw [viewAt_step_self]
  exact LatticeAgreement.pace_apply (fun slot => proper_viewAt h slot x) _ now slot

section

variable (hlawful : hosts.Lawful)
  (h : s.Reachable hosts fun id =>
    .fresh LatticeAgreement.ofHosts hosts (tuning id) (watches id) id)

include hlawful h

/-! ## Refusals -/

/-- **What an acceptor refuses lacks something that the refusal tells of.** -/
theorem refused_of_nack (hwrap : ∀ id, (s.linksAt id).Unwrapped)
    (htold : s.Tells hosts slot q p (.nack N)) :
    ∃ P, s.Tells hosts slot p q (.propose P) ∧ P.round = N.round ∧
      ¬ N.values.Within P.values := by
  induction h generalizing q p N with
  | initial =>
    obtain ⟨-, _, ⟨_, ⟨-, _, -, hmem⟩, -⟩, -⟩ := htold
    cases hmem
  | @step s x c now h hc ih =>
    have hwrap₀ := unwrapped_nodes_of_step hlawful h hc hwrap
    have hmono : ∀ {p q am}, s.Tells hosts slot p q am → (s.step x c now).Tells hosts slot p q am :=
      fun hold => (tells_step_iff hlawful h hc hwrap).mpr (Or.inl hold)
    rcases tells_step_cases hlawful h hc hwrap htold with hold | ⟨rfl, ⟨-, heq⟩ | ⟨P, hP, -, heq⟩⟩
    · obtain ⟨P, hP, hround, hlacks⟩ := ih hwrap₀ hold
      exact ⟨P, hmono hP, hround, hlacks⟩
    · cases heq
    · obtain ⟨hround, hlacks⟩ := SlotView.onProposal_eq_nack heq.symm
      exact ⟨P, hmono hP, hround.symm, hlacks⟩

/-- A refusal of the current round tells of something that is not offered. -/
theorem not_within_of_hears (hwrap : ∀ id, (s.linksAt id).Unwrapped) (hc : s.Permits hosts x c)
    (hheard : (s.members x).protocol.Hears ((s.members x).stimulus c) q (.nack N))
    (hslot : N.slot = slot) (hround : N.round = (s.viewAt slot x).round) :
    ¬ N.values.Within (s.viewAt slot x).offered := by
  have htold : s.Tells hosts slot q x (.nack N) := hslot ▸ tells_of_hears hlawful h hc hheard
  obtain ⟨P, hP, hPround, hlacks⟩ := refused_of_nack hlawful h hwrap htold
  obtain ⟨-, -, hvalues⟩ :=
    (council_of_reachable hlawful h hwrap slot).proposers.offered_of_told hP
  rw [← hvalues (hPround.trans hround)]
  exact hlacks

/-! ## Rounds -/

omit hlawful in
/-- What is offered is among what is to be proposed. -/
theorem offered_within_proposed (slot : Slot) (p : HostId)
    (hbusy : (s.viewAt slot p).isIdle = false) :
    (s.viewAt slot p).offered.Within (s.viewAt slot p).proposed :=
  ((covers_of_reachable h slot p).busy hbusy).2.1

/-- **A round that a refusal begins offers more than the one before.** -/
theorem grows_of_advances (hwrap : ∀ id, (s.linksAt id).Unwrapped) (hc : s.Permits hosts x c)
    (hnext : Occurrence.advances? ⟨x, s.members x, c, now⟩ = some P) :
    P.round = (s.viewAt P.slot x).round + 1 ∧
      (s.viewAt P.slot x).offered.Within P.values ∧
        ¬ P.values.Within (s.viewAt P.slot x).offered := by
  have hpace := pace_step h x c now P.slot
  cases hstimulus : (s.members x).stimulus c with
  | none | stop | timeout | command r =>
    simp only [Occurrence.advances?, LatticeAgreement.advances?, hstimulus, reduceCtorEq] at hnext
  | message m =>
    have hsends : Occurrence.sends? ⟨x, s.members x, c, now⟩ = some P := by
      rw [← hnext]
      simp only [Occurrence.sends?, Occurrence.advances?, LatticeAgreement.sends?, hstimulus]
    have hproposes : Occurrence.proposes? P.slot ⟨x, s.members x, c, now⟩ = none := by
      simp only [Occurrence.proposes?, LatticeAgreement.proposes?, hstimulus]
    rw [hsends, Option.filter_some, decide_eq_true rfl, if_pos rfl] at hpace
    cases hpace with
    | stay _ _ _ _ hnone => cases hnone
    | propose _ hsome _ => cases hproposes.symm.trans hsome
    | @advance sender N hheard hslot hcounts hactive hview _ hsome =>
      have hnew := not_within_of_hears hlawful h hwrap hc hheard hslot
        (SlotView.counts_iff.mp hcounts).1
      have hcovers := offered_within_proposed h P.slot x (SlotView.isIdle_of_active hactive)
      have hround : P.round = (s.viewAt P.slot x).round + 1 := by
        rw [congrArg Proposal.round (Option.some.inj hsome), hview]
        rfl
      have hvalues :
          P.values = ((s.viewAt P.slot x).refusing sender N.values).nextRound.offered := by
        rw [congrArg Proposal.values (Option.some.inj hsome), hview]
        rfl
      rw [hvalues]
      exact ⟨hround, SlotView.grows_of_refusing sender hcovers hnew⟩

/-- **The rounds of a slot never run ahead of what has been proposed and is offered.** -/
theorem paced_of_reachable (hwrap : ∀ id, (s.linksAt id).Unwrapped) (slot : Slot) (p : HostId) :
    (s.viewAt slot p).Paced (s.proposals slot p).length (s.proposalsSent slot p).length := by
  induction h with
  | initial =>
    rw [viewAt_initial]
    exact SlotView.paced_ofSlot slot
  | @step s x c now h hc ih =>
    have hwrap₀ := unwrapped_nodes_of_step hlawful h hc hwrap
    by_cases hp : p = x
    · subst hp
      rw [proposals_step_self, proposalsSent_step_self, List.length_append, List.length_append]
      refine (ih hwrap₀).pace (pace_step h p c now slot) (offered_within_proposed h slot p) ?_
      intro sender N hheard hslot hround
      exact not_within_of_hears hlawful h hwrap₀ hc hheard hslot hround
    · rw [viewAt_step_of_ne hp, proposals_step_of_ne hp, proposalsSent_step_of_ne hp]
      exact ih hwrap₀

/-- What is offered for a slot has been proposed for it. -/
theorem size_offered_le (hwrap : ∀ id, (s.linksAt id).Unwrapped) (slot : Slot) (p : HostId) :
    (s.viewAt slot p).offered.size ≤ (s.valuesFor slot).card := by
  rw [← ValueSet.card_toFinset]
  refine Finset.card_le_card fun v hv => ?_
  rw [ValueSet.mem_toFinset] at hv
  exact mem_valuesFor_of_proposed
    ((proposed_of_reachable hlawful h hwrap).1 p (Or.inr (Or.inl hv)))

/-- All proposals on the wire are on record. -/
theorem mem_proposalsSent_of_tells (hwrap : ∀ id, (s.linksAt id).Unwrapped)
    (htold : s.Tells hosts slot p q (.propose P)) : P ∈ s.proposalsSent slot p := by
  induction h generalizing p q P with
  | initial =>
    obtain ⟨-, _, ⟨_, ⟨-, _, -, hmem⟩, -⟩, -⟩ := htold
    cases hmem
  | @step s x c now h hc ih =>
    have hwrap₀ := unwrapped_nodes_of_step hlawful h hc hwrap
    rcases tells_step_cases hlawful h hc hwrap htold with hold |
      ⟨rfl, ⟨hoffers, heq⟩ | ⟨P', -, -, heq⟩⟩
    · exact mem_record_step.mpr (Or.inl (ih hwrap₀ hold))
    · refine mem_record_step.mpr (Or.inr ⟨rfl, ?_⟩)
      rw [AgreementMessage.propose.inj heq]
      exact (pace_step h p c now slot).sends_of_offers hoffers
    · exact absurd heq.symm (SlotView.onProposal_ne_propose P' P)

/-- A member broadcasts no more proposals for a slot than has been proposed for it. -/
theorem length_proposalsSent_le (hwrap : ∀ id, (s.linksAt id).Unwrapped) (slot : Slot)
    (p : HostId) : (s.proposalsSent slot p).length ≤
      (s.proposals slot p).length + (s.valuesFor slot).card := by
  have hle := (paced_of_reachable hlawful h hwrap slot p).le
  have hsize := size_offered_le hlawful h hwrap slot p
  omega

theorem toNat_round_le (hwrap : ∀ id, (s.linksAt id).Unwrapped) (slot : Slot) (p : HostId) :
    (s.viewAt slot p).round.toNat ≤ (s.proposals slot p).length + (s.valuesFor slot).card := by
  have hpaced := paced_of_reachable hlawful h hwrap slot p
  by_cases hidle : (s.viewAt slot p).isIdle = true
  · rw [(hpaced.idle hidle).1]
    exact Nat.zero_le _
  · have hlt := hpaced.round_lt (Bool.not_eq_true _ ▸ hidle)
    have hle := length_proposalsSent_le hlawful h hwrap slot p
    omega

/-- Who proposes nothing for a slot broadcasts nothing for it. -/
theorem proposals_ne_nil_of_proposalsSent (hwrap : ∀ id, (s.linksAt id).Unwrapped)
    (hsent : s.proposalsSent slot p ≠ []) : s.proposals slot p ≠ [] := by
  intro hnil
  have hidle := (covers_of_reachable h slot p).isIdle_iff.mpr hnil
  have hnone := ((paced_of_reachable hlawful h hwrap slot p).idle hidle).2
  exact hsent (List.length_eq_zero_iff.mp hnone)

end

/-! ## How many proposals there are in all -/

/-- The place of one member in the agreement on one slot. -/
structure Seat where
  member : HostId
  slot : Slot
  deriving DecidableEq

/-- What is on record of a member is counted by keys that name it. -/
theorem length_record_eq_count {σ : Type} [Member σ] {s : System σ} {α κ : Type} [DecidableEq κ]
    {f : Occurrence σ → Option α} {key : Occurrence σ → Option κ} {k : κ}
    (h : ∀ o, key o = some k ↔ o.member = p ∧ (f o).isSome = true) :
    (s.record p f).length = (s.history.filterMap key).count k := by
  rw [record]
  induction s.history with
  | nil => rfl
  | cons o os ih =>
    by_cases hkey : key o = some k
    · obtain ⟨hmember, hsome⟩ := (h o).mp hkey
      obtain ⟨a, ha⟩ := Option.isSome_iff_exists.mp hsome
      rw [List.filter_cons_of_pos (by simpa using hmember), List.filterMap_cons_some ha,
        List.filterMap_cons_some hkey, List.count_cons_self, List.length_cons, ih]
    · -- Neither side counts this step.
      have hcount : ((o :: os).filterMap key).count k = (os.filterMap key).count k := by
        cases hk : key o with
        | none => rw [List.filterMap_cons_none hk]
        | some k' =>
          rw [List.filterMap_cons_some hk, List.count_cons_of_ne]
          rintro rfl
          exact hkey hk
      rw [hcount, ← ih]
      by_cases hmember : o.member = p
      · have hnone : f o = none := by
          rw [← Option.not_isSome_iff_eq_none]
          exact fun hsome => hkey ((h o).mpr ⟨hmember, hsome⟩)
        rw [List.filter_cons_of_pos (by simpa using hmember), List.filterMap_cons_none hnone]
      · rw [List.filter_cons_of_neg (by simpa using hmember)]

/-- Where each request has been met. -/
def requestSeats (s : System (Node LatticeAgreement)) : List Seat :=
  s.history.filterMap fun o => o.requests?.map fun r => ⟨o.member, r.slot⟩

/-- Where each proposal has been broadcast. -/
def broadcastSeats (s : System (Node LatticeAgreement)) : List Seat :=
  s.history.filterMap fun o => o.sends?.map fun P => ⟨o.member, P.slot⟩

theorem length_requestSeats (s : System (Node LatticeAgreement)) :
    s.requestSeats.length = s.requests.length := by
  simp only [requestSeats, requests, List.length_filterMap_eq_countP, Option.isSome_map]

theorem length_broadcastSeats (s : System (Node LatticeAgreement)) :
    s.broadcastSeats.length = s.broadcastProposals.length := by
  simp only [broadcastSeats, broadcastProposals, List.length_filterMap_eq_countP,
    Option.isSome_map]

theorem count_requestSeats (s : System (Node LatticeAgreement)) (p : HostId) (slot : Slot) :
    s.requestSeats.count ⟨p, slot⟩ = (s.proposals slot p).length := by
  refine (length_record_eq_count fun o => ?_).symm
  rw [Occurrence.proposes?_eq]
  cases o.requests? with
  | none => simp
  | some r => by_cases hslot : r.slot = slot <;> simp [hslot]

theorem count_broadcastSeats (s : System (Node LatticeAgreement)) (p : HostId) (slot : Slot) :
    s.broadcastSeats.count ⟨p, slot⟩ = (s.proposalsSent slot p).length := by
  refine (length_record_eq_count fun o => ?_).symm
  cases o.sends? with
  | none => simp
  | some P => by_cases hslot : P.slot = slot <;> simp [hslot]

/-- **All members together broadcast only so many proposals.**  Those of a member for a slot are no
more than its own requests for the slot and the values that anyone has proposed. -/
theorem length_broadcastProposals_le (hlawful : hosts.Lawful)
    (h : s.Reachable hosts fun id =>
      .fresh LatticeAgreement.ofHosts hosts (tuning id) (watches id) id)
    (hwrap : ∀ id, (s.linksAt id).Unwrapped) :
    s.broadcastProposals.length ≤ s.requests.length * (s.valuesForAll.card + 1) := by
  let values := s.valuesForAll.card
  have hcount : ∀ k ∈ s.broadcastSeats.toFinset,
      s.broadcastSeats.count k ≤ s.requestSeats.count k + values := by
    rintro ⟨p, slot⟩ -
    rw [count_broadcastSeats, count_requestSeats]
    have hle := length_proposalsSent_le hlawful h hwrap slot p
    have hvalues := Finset.card_le_card (s.valuesFor_subset slot)
    omega
  have hsub : s.broadcastSeats.toFinset ⊆ s.requestSeats.toFinset := by
    rintro ⟨p, slot⟩ hk
    rw [List.mem_toFinset, ← List.count_pos_iff, count_broadcastSeats, List.length_pos_iff] at hk
    rw [List.mem_toFinset, ← List.count_pos_iff, count_requestSeats, List.length_pos_iff]
    exact proposals_ne_nil_of_proposalsSent hlawful h hwrap hk
  calc s.broadcastProposals.length
      = ∑ k ∈ s.broadcastSeats.toFinset, s.broadcastSeats.count k := by
        rw [List.sum_toFinset_count_eq_length, length_broadcastSeats]
    _ ≤ ∑ k ∈ s.broadcastSeats.toFinset, (s.requestSeats.count k + values) :=
        Finset.sum_le_sum hcount
    _ ≤ ∑ k ∈ s.requestSeats.toFinset, (s.requestSeats.count k + values) :=
        Finset.sum_le_sum_of_subset hsub
    _ = s.requests.length + s.requestSeats.toFinset.card * values := by
        rw [Finset.sum_add_distrib, List.sum_toFinset_count_eq_length, length_requestSeats,
          Finset.sum_const_nat fun _ _ => rfl]
    _ ≤ s.requests.length + s.requests.length * values := by
        rw [← length_requestSeats]
        exact Nat.add_le_add_left (Nat.mul_le_mul_right values (List.toFinset_card_le _)) _
    _ = s.requests.length * (values + 1) := by
        rw [Nat.mul_succ, Nat.add_comm]

/-- **Rounds come to an end.**  In every run of a group whose nodes agree, where no link is given so
many messages that its ids wrap:

* whenever a refusal makes a member begin another round, that round offers all that was offered
  before and something else;
* the round of a member for a slot is at most the number of its own requests that it has met for the
  slot and of the different values that members have proposed for it, and so is the number of
  proposals that it has broadcast, among which are all on the wire;
* all proposals that members have ever broadcast, for all slots, are at most as many as the requests
  that have been met, times one more than the different values in them. -/
theorem rounds_bounded {hs : List Host} (hhosts : Hosts.ofList hs = .ok hosts)
    (h : s.Reachable hosts fun id =>
      .fresh LatticeAgreement.ofHosts hosts (tuning id) (watches id) id)
    (hwrap : ∀ id, (s.linksAt id).Unwrapped) :
    (∀ o ∈ s.history, ∀ P, o.advances? = some P →
      (o.before.protocol.view P.slot).offered.Within P.values ∧
        ¬ P.values.Within (o.before.protocol.view P.slot).offered) ∧
    (∀ slot p,
      (s.viewAt slot p).round.toNat ≤ (s.proposals slot p).length + (s.valuesFor slot).card ∧
        (s.proposalsSent slot p).length ≤
          (s.proposals slot p).length + (s.valuesFor slot).card ∧
        ∀ q P, s.Tells hosts slot p q (.propose P) → P ∈ s.proposalsSent slot p) ∧
    s.broadcastProposals.length ≤ s.requests.length * (s.valuesForAll.card + 1) := by
  have hlawful := Hosts.lawful_ofList hhosts
  refine ⟨?_, fun slot p => ⟨toNat_round_le hlawful h hwrap slot p,
    length_proposalsSent_le hlawful h hwrap slot p,
    fun q P => mem_proposalsSent_of_tells hlawful h hwrap⟩,
    length_broadcastProposals_le hlawful h hwrap⟩
  induction h with
  | initial => exact nofun
  | @step s x c now h hc ih =>
    have hwrap₀ := unwrapped_nodes_of_step hlawful h hc hwrap
    intro o ho P hnext
    rcases List.mem_append.mp ho with hold | hnew
    · exact ih hwrap₀ o hold P hnext
    · rw [List.mem_singleton.mp hnew] at hnext ⊢
      exact (grows_of_advances hlawful h hwrap₀ hc hnext).2

/-! ## A refusal and the round that it begins -/

/-- The proposals of two members cross: the second one refuses what the first one offers, and the
first one begins another round. -/
def crossing : System (Node LatticeAgreement) :=
  let propose (s : System (Node LatticeAgreement)) (p : HostId) (v : Value) :=
    s.step p (.input (.command (⟨7, .ofList [v]⟩ : SlotValues))) 0
  let hear (s : System (Node LatticeAgreement)) (p : Host) (q : HostId) (id : UInt32)
      (am : AgreementMessage) := s.step q (.arrival p (letterOf p.id q id am).encode) 0
  let s := System.initial fun id => Node.fresh LatticeAgreement.ofHosts .pair {} false id
  let s := propose s 1 1
  let s := propose s 2 2
  let s := hear s .second 2 1 (.propose ⟨0, 7, .ofList [2]⟩)
  let s := hear s .first 2 1 (.propose ⟨0, 7, .ofList [1]⟩)
  let s := hear s .first 1 1 (.propose ⟨0, 7, .ofList [1]⟩)
  let s := hear s .first 1 2 (.ack 0 7)
  hear s .second 1 2 (.nack ⟨0, 7, .ofList [1, 2]⟩)

theorem crossing_reachable : crossing.Reachable .pair fun id =>
    .fresh LatticeAgreement.ofHosts .pair {} false id := by
  refine .step _ (.step _ (.step _ (.step _ (.step _ (.step _ (.step _
    .initial ?_) ?_) ?_) ?_) ?_) ?_) ?_
  · show Hosts.pair.contains 1 = true
    rfl
  · show Hosts.pair.contains 2 = true
    rfl
  · exact ⟨rfl, .second, rfl, by decide +kernel⟩
  · exact ⟨rfl, .second, rfl, by decide +kernel⟩
  · exact ⟨rfl, .first, rfl, by decide +kernel⟩
  · exact ⟨rfl, .first, rfl, by decide +kernel⟩
  · exact ⟨rfl, .first, rfl, by decide +kernel⟩

/-- The first member is in its second round, and has broadcast two proposals.  There may be one
more, since it has made one request and two values have been proposed. -/
theorem rounds_bounded_crossing : (∀ id, (crossing.linksAt id).Unwrapped) ∧
    (∃ o ∈ crossing.history, o.advances? = some ⟨1, 7, .ofList [1, 2]⟩) ∧
    (crossing.viewAt 7 1).round = 1 ∧ (crossing.proposalsSent 7 1).length = 2 ∧
    (crossing.proposals 7 1).length + (crossing.valuesFor 7).card = 3 ∧
    (crossing.viewAt 7 1).round.toNat ≤
      (crossing.proposals 7 1).length + (crossing.valuesFor 7).card ∧
    crossing.broadcastProposals.length ≤
      crossing.requests.length * (crossing.valuesForAll.card + 1) := by
  have hwrap := unwrapped_nodes_of_linkSteps_lt (Hosts.lawful_ofList Hosts.ofList_pair)
    crossing_reachable (by decide +kernel)
  obtain ⟨-, hslots, htotal⟩ := rounds_bounded Hosts.ofList_pair crossing_reachable hwrap
  exact ⟨hwrap, by decide +kernel, by decide +kernel, by decide +kernel, by decide +kernel,
    (hslots 7 1).1, htotal⟩

end System

end Groupcast
