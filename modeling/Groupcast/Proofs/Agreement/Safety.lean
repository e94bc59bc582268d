import Groupcast.Proofs.Agreement.Council
import Groupcast.Proofs.Agreement.Lattice
import Groupcast.Proofs.Node.Group

/-!
# Any two decisions are comparable

In a group whose members agree, the views that they have of a slot and what they have told each
other about it form a `Council` at all times (`council_of_reachable`).  What a member has decided is
in its view ever after (`decided_of_decides`), and so any two decisions for a slot are ordered by
inclusion (`decisions_comparable`).

Rounds do not wrap as long as the ids of the links do not: every round begins with a proposal to all
members, the proposer included.
-/

namespace Groupcast.System

variable {hosts : Hosts} {tuning : HostId → Tuning} {watches : HostId → Bool}
  {s : System (Node LatticeAgreement)} {c : Cause (Node LatticeAgreement)} {p q x : HostId}
  {now : Nat} {slot : Slot} {am : AgreementMessage}

/-- The view that a member has of a slot. -/
def viewAt (s : System (Node LatticeAgreement)) (slot : Slot) (p : HostId) : SlotView :=
  (s.members p).protocol.view slot

/-- A member has told another one something about a slot. -/
def Tells (hosts : Hosts) (s : System (Node LatticeAgreement)) (slot : Slot) (p q : HostId)
    (am : AgreementMessage) : Prop :=
  am.slot = slot ∧ ∃ payload, Said hosts s.wire p q payload ∧
    AgreementMessage.decode payload = .ok am

/-- A member has reported a decision for a slot. -/
def Decides (s : System (Node LatticeAgreement)) (p : HostId) (slot : Slot) (D : ValueSet) : Prop :=
  ∃ o ∈ s.history, o.member = p ∧ .decide slot D ∈ o.output.events

/-! ## Views -/

theorem viewAt_step_self : (s.step x c now).viewAt slot x =
    (((s.members x).stimulus c).apply (s.members x).protocol now).1.view slot := by
  unfold viewAt
  rw [step_protocol_self]

theorem viewAt_step_of_ne (hp : p ≠ x) : (s.step x c now).viewAt slot p = s.viewAt slot p := by
  unfold viewAt
  rw [step_members_of_ne hp]

section

variable (h : s.Reachable hosts fun id =>
  .fresh LatticeAgreement.ofHosts hosts (tuning id) (watches id) id)

include h

/-- All members know the same group. -/
theorem quorum_of_reachable (p : HostId) :
    (s.members p).protocol.group.quorum = quorum hosts.ids.length := by
  have hhosts : (s.members p).protocol.group.hosts = hosts := by
    induction h with
    | initial => rfl
    | @step s x c now _ _ ih =>
      by_cases hp : p = x
      · subst hp
        rw [step_protocol_self, LatticeAgreement.hosts_apply]
        exact ih
      · rw [step_members_of_ne hp]
        exact ih
  unfold BestEffort.quorum Hosts.quorum
  rw [hhosts, Hosts.length_ids]

/-- All views are proper at all times. -/
theorem proper_viewAt (slot : Slot) (p : HostId) : (s.viewAt slot p).Proper slot := by
  induction h generalizing slot with
  | initial => exact SlotView.proper_ofSlot slot
  | @step s x c now _ _ ih =>
    by_cases hp : p = x
    · subst hp
      rw [viewAt_step_self]
      exact (LatticeAgreement.turn_apply ih _ now slot).proper (ih slot)
    · rw [viewAt_step_of_ne hp]
      exact ih slot

/-- What a step comes to for a slot. -/
theorem turn_step (x : HostId) (c : Cause (Node LatticeAgreement)) (now : Nat) (slot : Slot) :
    SlotView.Turn slot (quorum hosts.ids.length)
      ((s.members x).protocol.Hears ((s.members x).stimulus c))
      (((s.members x).stimulus c).orders (s.members x).protocol) (s.viewAt slot x)
      ((s.step x c now).viewAt slot x) := by
  rw [viewAt_step_self, ← quorum_of_reachable h x]
  exact LatticeAgreement.turn_apply (fun slot => proper_viewAt h slot x) _ now slot

/-- A member that has reported a decision keeps to it. -/
theorem decided_of_decides {D : ValueSet} (hdecides : s.Decides p slot D) :
    (s.viewAt slot p).isDecided = true ∧ (s.viewAt slot p).offered = D := by
  induction h with
  | initial =>
    obtain ⟨o, ho, -⟩ := hdecides
    cases ho
  | @step s x c now h _ ih =>
    obtain ⟨o, ho, hmember, hevent⟩ := hdecides
    rcases List.mem_append.mp ho with hold | hnew
    · obtain ⟨hdecided, hoffered⟩ := ih ⟨o, hold, hmember, hevent⟩
      by_cases hp : p = x
      · subst hp
        obtain ⟨hdecided', hoffered'⟩ := (turn_step h p c now slot).keeps_decided hdecided
        exact ⟨hdecided', hoffered'.trans hoffered⟩
      · rw [viewAt_step_of_ne hp]
        exact ⟨hdecided, hoffered⟩
    · rw [List.mem_singleton.mp hnew] at hmember hevent
      subst hmember
      rw [Occurrence.events_output] at hevent
      rw [viewAt_step_self]
      exact LatticeAgreement.decided_of_event hevent

end

/-! ## What members tell each other -/

section

variable (hlawful : hosts.Lawful)
  (h : s.Reachable hosts fun id =>
    .fresh LatticeAgreement.ofHosts hosts (tuning id) (watches id) id)

include hlawful h

/-- What a member takes in has been told. -/
theorem tells_of_hears (hc : s.Permits hosts x c)
    (hhears : (s.members x).protocol.Hears ((s.members x).stimulus c) q am) :
    s.Tells hosts am.slot q x am := by
  obtain ⟨m, hm, rfl, hheard⟩ := hhears
  obtain ⟨hresult, hdecode⟩ := BestEffort.heard_eq_some.mp hheard
  exact ⟨rfl, m.payload, said_of_stimulus hlawful h hc hm hresult, hdecode⟩

/-- What has been told by the end of a step was told before, or is what the step sends. -/
theorem tells_step_iff (hc : s.Permits hosts x c)
    (hwrap : ∀ id, ((s.step x c now).linksAt id).Unwrapped) :
    (s.step x c now).Tells hosts slot p q am ↔ s.Tells hosts slot p q am ∨
      p = x ∧ am.slot = slot ∧ hosts.contains q = true ∧
        ∃ o ∈ ((s.members x).stimulus c).orders (s.members x).protocol,
          o.reaches q = true ∧ o.message.kind = .data ∧
            AgreementMessage.decode o.message.payload = .ok am := by
  simp only [Tells, said_nodes_iff hlawful h hc hwrap]
  constructor
  · rintro ⟨hslot, payload, hold | ⟨hp, hq, o, ho, hreaches, hkind, rfl⟩, hdecode⟩
    · exact Or.inl ⟨hslot, payload, hold, hdecode⟩
    · exact Or.inr ⟨hp, hslot, hq, o, ho, hreaches, hkind, hdecode⟩
  · rintro (⟨hslot, payload, hold, hdecode⟩ | ⟨hp, hslot, hq, o, ho, hreaches, hkind, hdecode⟩)
    · exact ⟨hslot, payload, Or.inl hold, hdecode⟩
    · exact ⟨hslot, _, Or.inr ⟨hp, hq, o, ho, hreaches, hkind, rfl⟩, hdecode⟩

/-- What a member comes to tell in a step is what it offers then, or its answer to a proposal. -/
theorem tells_step_cases (hc : s.Permits hosts x c)
    (hwrap : ∀ id, ((s.step x c now).linksAt id).Unwrapped)
    (htold : (s.step x c now).Tells hosts slot p q am) :
    s.Tells hosts slot p q am ∨ p = x ∧
      ((s.viewAt slot x).Offers ((s.step x c now).viewAt slot x) ∧
          am = .propose ((s.step x c now).viewAt slot x).proposal ∨
        ∃ P, s.Tells hosts slot q x (.propose P) ∧
          (s.step x c now).viewAt slot x = ((s.viewAt slot x).onProposal P).1 ∧
          am = ((s.viewAt slot x).onProposal P).2) := by
  rcases (tells_step_iff hlawful h hc hwrap).mp htold with hold |
    ⟨hp, hslot, -, o, ho, hreaches, -, hdecode⟩
  · exact Or.inl hold
  refine Or.inr ⟨hp, ?_⟩
  cases turn_step h x c now slot with
  | rest _ horders =>
    obtain ⟨am', hpayload, hne⟩ := horders o ho
    rw [hpayload] at hdecode
    rw [AgreementMessage.eq_of_decode_encode hdecode] at hslot
    exact absurd hslot hne
  | @offer m hm hoffers horders hpayload =>
    rw [horders, List.mem_singleton] at ho
    subst ho
    replace hdecode : AgreementMessage.decode m.payload = .ok am := hdecode
    rw [hpayload] at hdecode
    exact Or.inl ⟨hoffers, AgreementMessage.eq_of_decode_encode hdecode⟩
  | @answer sender P m hm hheard hP hview horders hpayload =>
    rw [horders, List.mem_singleton] at ho
    subst ho
    replace hdecode : AgreementMessage.decode m.payload = .ok am := hdecode
    rw [hpayload] at hdecode
    have hsender : q = sender := of_decide_eq_true hreaches
    refine Or.inr ⟨P, ?_, hview, AgreementMessage.eq_of_decode_encode hdecode⟩
    rw [hsender, ← hP]
    exact tells_of_hears hlawful h hc hheard
  | count _ horders =>
    rw [horders] at ho
    cases ho

/-- **The members of a group are a council on each slot at all times.** -/
theorem council_of_reachable (hwrap : ∀ id, (s.linksAt id).Unwrapped) (slot : Slot) :
    Council hosts.ids slot (s.viewAt slot) (s.Tells hosts slot)
      fun p => (s.linksAt p).sentCountTo p := by
  induction h with
  | initial =>
    refine Council.ofSlot hosts.ids slot ?_
    rintro p q m ⟨-, _, ⟨_, ⟨-, _, -, hmem⟩, -⟩, -⟩
    cases hmem
  | @step s x c now h hc ih =>
    have hcouncil := ih (unwrapped_nodes_of_step hlawful h hc hwrap)
    have hx : x ∈ hosts.ids := Hosts.mem_ids_iff.mpr hc.contains
    have hother : ∀ p, p ≠ x → (s.step x c now).viewAt slot p = s.viewAt slot p :=
      fun p hp => viewAt_step_of_ne hp
    have hbudget : ∀ p, (s.linksAt p).sentCountTo p ≤ ((s.step x c now).linksAt p).sentCountTo p :=
      fun p => sentCountTo_le_step hlawful h hc
    have htells : ∀ p q am, (s.step x c now).Tells hosts slot p q am ↔ _ :=
      fun p q am => tells_step_iff hlawful h hc hwrap
    have hmono : ∀ p q am, s.Tells hosts slot p q am → (s.step x c now).Tells hosts slot p q am :=
      fun p q am hold => (htells p q am).mpr (Or.inl hold)
    cases turn_step h x c now slot with
    | rest hview horders =>
      have hviews : (s.step x c now).viewAt slot = s.viewAt slot := by
        funext p
        by_cases hp : p = x
        · rw [hp, hview]
        · exact hother p hp
      rw [hviews]
      refine hcouncil.rest (fun p q am => ⟨fun htold => ?_, hmono p q am⟩) hbudget
      rcases (htells p q am).mp htold with hold | ⟨-, hslot, -, o, ho, -, -, hdecode⟩
      · exact hold
      · obtain ⟨am', hpayload, hne⟩ := horders o ho
        rw [hpayload] at hdecode
        rw [AgreementMessage.eq_of_decode_encode hdecode] at hslot
        exact absurd hslot hne
    | @offer m hm hoffers horders hpayload =>
      refine hcouncil.offer hx hoffers hother hmono (fun p q am htold => ?_) hbudget ?_
        ((hwrap x).sentCountTo_lt x)
      · rcases (htells p q am).mp htold with hold | ⟨hp, -, -, o, ho, -, -, hdecode⟩
        · exact Or.inl hold
        · rw [horders, List.mem_singleton] at ho
          subst ho
          replace hdecode : AgreementMessage.decode m.payload = .ok am := hdecode
          rw [hpayload] at hdecode
          exact Or.inr ⟨hp, AgreementMessage.eq_of_decode_encode hdecode⟩
      · refine sentCountTo_lt_step hlawful h hc hc.contains (o := .all m hm) ?_ rfl
        rw [horders]
        exact List.mem_singleton_self _
    | @answer sender P m hm hheard hslot hview horders hpayload =>
      have htold : s.Tells hosts slot sender x (.propose P) :=
        hslot ▸ tells_of_hears hlawful h hc hheard
      refine hcouncil.answer hx htold hview hother hmono (fun p q am htold => ?_) hbudget
      rcases (htells p q am).mp htold with hold | ⟨hp, -, -, o, ho, hreaches, -, hdecode⟩
      · exact Or.inl hold
      · rw [horders, List.mem_singleton] at ho
        subst ho
        replace hdecode : AgreementMessage.decode m.payload = .ok am := hdecode
        rw [hpayload] at hdecode
        exact Or.inr ⟨hp, of_decide_eq_true hreaches, AgreementMessage.eq_of_decode_encode hdecode⟩
    | count hcounted horders =>
      have hcouncil' : Council hosts.ids slot ((s.step x c now).viewAt slot) (s.Tells hosts slot)
          fun p => (s.linksAt p).sentCountTo p := by
        refine hcouncil.count (hcounted.mono fun id hheard => ?_) hother
        exact tells_of_hears hlawful h hc hheard
      refine hcouncil'.rest (fun p q am => ⟨fun htold => ?_, hmono p q am⟩) hbudget
      rcases (htells p q am).mp htold with hold | ⟨-, -, -, o, ho, -⟩
      · exact hold
      · rw [horders] at ho
        cases ho

end

/-- **Lattice agreement is safe.**  In every run of a group whose nodes agree, where no link is
given so many messages that its ids wrap, any two sets that are decided for the same slot are
comparable by inclusion. -/
theorem decisions_comparable {hs : List Host} (hhosts : Hosts.ofList hs = .ok hosts)
    (h : s.Reachable hosts fun id =>
      .fresh LatticeAgreement.ofHosts hosts (tuning id) (watches id) id)
    (hwrap : ∀ id, (s.linksAt id).Unwrapped) {D E : ValueSet} (hp : s.Decides p slot D)
    (hq : s.Decides q slot E) : D.Within E ∨ E.Within D := by
  obtain ⟨hdecided, hD⟩ := decided_of_decides h hp
  obtain ⟨hdecided', hE⟩ := decided_of_decides h hq
  have hcouncil := council_of_reachable (Hosts.lawful_ofList hhosts) h hwrap slot
  rw [← hD, ← hE]
  exact hcouncil.comparable_of_decided hdecided hdecided'

/-! ## Two decisions of two members -/

/-- An agreement message on its way, with the id that the link has given it. -/
def letterOf (p q : HostId) (id : UInt32) (am : AgreementMessage) : Message :=
  { Message.ofData p 0 am.encode with id := id, receiver := q }

/-- The first of two members decides on a value that it has proposed, and then the second on that
value and one of its own. -/
def twoDecisions : System (Node LatticeAgreement) :=
  let propose (s : System (Node LatticeAgreement)) (p : HostId) (v : Value) :=
    s.step p (.input (.command (⟨7, .ofList [v]⟩ : SlotValues))) 0
  let hear (s : System (Node LatticeAgreement)) (p : Host) (q : HostId) (id : UInt32)
      (am : AgreementMessage) := s.step q (.arrival p (letterOf p.id q id am).encode) 0
  let one := AgreementMessage.propose ⟨0, 7, .ofList [1]⟩
  let both := AgreementMessage.propose ⟨0, 7, .ofList [1, 2]⟩
  let s := System.initial fun id => Node.fresh LatticeAgreement.ofHosts .pair {} false id
  let s := propose s 1 1
  let s := hear s .first 1 1 one
  let s := hear s .first 2 1 one
  let s := hear s .first 1 2 (.ack 0 7)
  let s := hear s .second 1 1 (.ack 0 7)
  let s := propose s 2 2
  let s := hear s .second 1 2 both
  let s := hear s .second 2 1 both
  let s := hear s .first 2 2 (.ack 0 7)
  hear s .second 2 2 (.ack 0 7)

theorem twoDecisions_reachable : twoDecisions.Reachable .pair fun id =>
    .fresh LatticeAgreement.ofHosts .pair {} false id := by
  refine .step _ (.step _ (.step _ (.step _ (.step _ (.step _ (.step _ (.step _ (.step _ (.step _
    .initial ?_) ?_) ?_) ?_) ?_) ?_) ?_) ?_) ?_) ?_
  · show Hosts.pair.contains 1 = true
    rfl
  · exact ⟨rfl, .first, rfl, by decide +kernel⟩
  · exact ⟨rfl, .second, rfl, by decide +kernel⟩
  · exact ⟨rfl, .first, rfl, by decide +kernel⟩
  · exact ⟨rfl, .first, rfl, by decide +kernel⟩
  · show Hosts.pair.contains 2 = true
    rfl
  · exact ⟨rfl, .first, rfl, by decide +kernel⟩
  · exact ⟨rfl, .second, rfl, by decide +kernel⟩
  · exact ⟨rfl, .second, rfl, by decide +kernel⟩
  · exact ⟨rfl, .second, rfl, by decide +kernel⟩

theorem decisions_comparable_twoDecisions : (∀ id, (twoDecisions.linksAt id).Unwrapped) ∧
    twoDecisions.Decides 1 7 (.ofList [1]) ∧ twoDecisions.Decides 2 7 (.ofList [1, 2]) ∧
      ((ValueSet.ofList [1]).Within (.ofList [1, 2]) ∨
        (ValueSet.ofList [1, 2]).Within (.ofList [1])) := by
  have hwrap := unwrapped_nodes_of_linkSteps_lt (Hosts.lawful_ofList Hosts.ofList_pair)
    twoDecisions_reachable (by decide +kernel)
  have hdecides : ∀ (p : HostId) (D : ValueSet), (twoDecisions.history.any fun o =>
      o.member = p ∧ .decide 7 D ∈ o.output.events) = true → twoDecisions.Decides p 7 D := by
    intro p D h
    simpa [Decides] using h
  have hfirst : twoDecisions.Decides 1 7 (.ofList [1]) := hdecides 1 _ (by decide +kernel)
  have hsecond : twoDecisions.Decides 2 7 (.ofList [1, 2]) := by
    have hoffered : (twoDecisions.viewAt 7 2).offered = .ofList [1, 2] := by decide +kernel
    rw [← hoffered]
    exact hdecides 2 _ (by decide +kernel)
  exact ⟨hwrap, hfirst, hsecond, decisions_comparable Hosts.ofList_pair twoDecisions_reachable hwrap
    hfirst hsecond⟩

end Groupcast.System
