import Groupcast.Agreement.Lattice
import Groupcast.Proofs.Agreement.Message
import Groupcast.Proofs.Agreement.Slot
import Groupcast.Proofs.Broadcast.BestEffort
import Groupcast.Proofs.Node.Member

/-!
# One member that agrees

Lattice agreement does all its sending over links, and what it sends is known before it is sent: a
proposal to all for a command, an answer to one for a proposal, and again a proposal to all once a
refusal begins another round.

For a single slot a step of a member is one of four things (`SlotView.Turn`): it offers, it answers,
it counts, or it has nothing to do with the slot.  That there is no fifth is the main statement here
(`turn_apply`), and all that is proved of runs rests on it alone.
-/

namespace Groupcast

/-! ## What can happen to a slot -/

/-- What a step of a member comes to for its view of a slot: what the view is then, and what is sent
for that.  `hears` says what the member takes in. -/
inductive SlotView.Turn (slot : Slot) (n : Nat) (hears : HostId → AgreementMessage → Prop)
    (os : List Order) (v v' : SlotView) : Prop where
  /-- It has nothing to do with the slot. -/
  | rest (hview : v' = v)
      (horders : ∀ o ∈ os, ∃ am : AgreementMessage, o.message.payload = am.encode ∧ am.slot ≠ slot)
  /-- A proposal is sent to every member. -/
  | offer {m : Message} {hm : m.kind ≠ .ack} (hoffers : v.Offers v') (horders : os = [.all m hm])
      (hpayload : m.payload = (AgreementMessage.propose v'.proposal).encode)
  /-- A proposal is answered. -/
  | answer {sender : HostId} {p : Proposal} {m : Message} {hm : m.kind ≠ .ack}
      (hheard : hears sender (.propose p)) (hslot : p.slot = slot)
      (hview : v' = (v.onProposal p).1) (horders : os = [.one sender m hm])
      (hpayload : m.payload = (v.onProposal p).2.encode)
  /-- A reply is counted. -/
  | count (hcounted : v.Counted v' n fun id => hears id (.ack v.round slot)) (horders : os = [])

namespace SlotView

/-- The reply to a proposal is about the same slot. -/
theorem slot_onProposal (v : SlotView) (p : Proposal) : (v.onProposal p).2.slot = v.slot := by
  simp only [onProposal]
  split <;> rfl

namespace Turn

variable {slot : Slot} {n : Nat} {hears hears' : HostId → AgreementMessage → Prop}
  {os : List Order} {v v' : SlotView}

theorem mono (h : Turn slot n hears os v v') (hmono : ∀ id am, hears id am → hears' id am) :
    Turn slot n hears' os v v' := by
  cases h with
  | rest hview horders => exact .rest hview horders
  | offer hoffers horders hpayload => exact .offer hoffers horders hpayload
  | answer hheard hslot hview horders hpayload =>
    exact .answer (hmono _ _ hheard) hslot hview horders hpayload
  | count hcounted horders =>
    exact .count (hcounted.mono fun id hheard => hmono id _ hheard) horders

/-- Nothing of it makes a slot collect replies that has decided. -/
theorem proper (h : Turn slot n hears os v v') (hv : v.Proper slot) : v'.Proper slot := by
  cases h with
  | rest hview _ => rwa [hview]
  | offer hoffers _ _ => exact hoffers.proper hv
  | answer _ _ hview _ _ =>
    rw [hview]
    exact ⟨hv.slot_eq, hv.undecided⟩
  | count hcounted _ => exact hcounted.proper hv

/-- A decision stands. -/
theorem keeps_decided (h : Turn slot n hears os v v') (hdecided : v.isDecided = true) :
    v'.isDecided = true ∧ v'.offered = v.offered := by
  cases h with
  | rest hview _ =>
    rw [hview]
    exact ⟨hdecided, rfl⟩
  | offer hoffers _ _ => cases hdecided.symm.trans hoffers.undecided
  | answer _ _ hview _ _ =>
    rw [hview]
    exact ⟨hdecided, rfl⟩
  | count hcounted _ => exact hcounted.keeps_decided hdecided

end Turn

end SlotView

namespace LatticeAgreement

variable {a : LatticeAgreement} {sender : HostId} {m : Message} {now : Nat}

/-! ## What is sent -/

/-- To send an agreement message to one member. -/
def toOne (a : LatticeAgreement) (receiver : HostId) (m : AgreementMessage) : Order :=
  .one receiver (a.wrap m) nofun

/-- To send an agreement message to every member. -/
def toAll (a : LatticeAgreement) (m : AgreementMessage) : Order := .all (a.wrap m) nofun

/-- What is sent for a command. -/
def offers (a : LatticeAgreement) (p : SlotValues) : List Order :=
  match ((a.view p.slot).propose p.values).2 with
  | .ok proposal => [a.toAll (.propose proposal)]
  | .error _ => []

/-- What is sent in answer to an agreement message. -/
def answers (a : LatticeAgreement) (sender : HostId) : AgreementMessage → List Order
  | .propose p => [a.toOne sender ((a.view p.slot).onProposal p).2]
  | .ack _ _ => []
  | .nack p =>
    match a.slots[p.slot]? with
    | none => []
    | some v =>
      match (v.onNack sender p.round p.values a.group.quorum).2 with
      | none => []
      | some next => [a.toAll (.propose next)]

/-- The agreement message that gets through with a message, if one does. -/
def heard (a : LatticeAgreement) (sender : HostId) (m : Message) : Option AgreementMessage :=
  a.group.heard AgreementMessage.decode sender m

/-- The member once its links have taken in a message. -/
def received (a : LatticeAgreement) (sender : HostId) (m : Message) : LatticeAgreement :=
  { a with group := (a.group.deliver sender m).state }

theorem deliver_of_heard_eq_none (h : a.heard sender m = none) (now : Nat) :
    a.deliver sender m now = ⟨a.received sender m, (a.group.deliver sender m).sent, none⟩ := by
  rcases a.group.heard_cases AgreementMessage.decode sender m with ⟨hresult, -⟩ |
    ⟨hresult, ⟨⟨e, hdecode⟩, -⟩ | ⟨am, -, hheard⟩⟩
  · simp only [deliver, hresult]
    rfl
  · simp only [deliver, hresult, hdecode]
    rfl
  · cases h.symm.trans hheard

theorem deliver_of_heard_eq_some {am : AgreementMessage} (h : a.heard sender m = some am)
    (now : Nat) : a.deliver sender m now =
      ⟨((a.received sender m).onAgreement sender am now).state,
        (a.group.deliver sender m).sent ++ ((a.received sender m).onAgreement sender am now).sent,
        ((a.received sender m).onAgreement sender am now).result⟩ := by
  obtain ⟨hresult, hdecode⟩ := BestEffort.heard_eq_some.mp h
  simp only [deliver, hresult, hdecode]
  rfl

/-! ## Sending is all done over links -/

theorem broadcast_eq (a : LatticeAgreement) (p : Proposal) (now : Nat) :
    ((a.broadcast p now).state.group.links, (a.broadcast p now).sent) =
      a.group.links.performAll now [a.toAll (.propose p)] := by
  rw [Links.performAll_singleton]
  rfl

theorem reply_eq (a : LatticeAgreement) (receiver : HostId) (m : AgreementMessage) (now : Nat) :
    ((a.reply receiver m now).state.group.links, (a.reply receiver m now).sent) =
      a.group.links.performAll now [a.toOne receiver m] := by
  rw [Links.performAll_singleton]
  simp only [reply, BestEffort.send, toOne, Links.perform]
  cases a.group.links.send receiver (a.wrap m) now <;> rfl

/-- Taking in an agreement message sends what `answers` says. -/
theorem onAgreement_eq (a : LatticeAgreement) (sender : HostId) (am : AgreementMessage)
    (now : Nat) : ((a.onAgreement sender am now).state.group.links,
      (a.onAgreement sender am now).sent) =
        a.group.links.performAll now (a.answers sender am) := by
  cases am with
  | propose p => exact reply_eq (a.setView p.slot _) sender _ now
  | ack round slot =>
    simp only [onAgreement, answers]
    cases a.slots[slot]? <;> rfl
  | nack p =>
    simp only [onAgreement, answers]
    cases a.slots[p.slot]? with
    | none => rfl
    | some v =>
      simp only
      cases (v.onNack sender p.round p.values a.group.quorum).2 with
      | none => rfl
      | some next => exact broadcast_eq (a.setView p.slot _) next now

instance : Linked LatticeAgreement where
  ofHosts := ofHosts
  links a := a.group.links
  commandOrders := offers
  messageOrders a sender m :=
    match a.heard sender m with
    | none => []
    | some am => (a.received sender m).answers sender am
  links_ofHosts _ _ _ := rfl
  onCommand_ok := by
    intro a p now step h
    replace h : a.onCommand p now = .ok step := h
    simp only [onCommand, propose] at h
    simp only [offers]
    rcases hv : (a.view p.slot).propose p.values with ⟨v, e | proposal⟩
    · rw [hv] at h
      cases h
    · rw [hv] at h
      cases h
      exact broadcast_eq (a.setView p.slot v) proposal now
  onCommand_error := by
    intro a p now e h
    replace h : a.onCommand p now = .error e := h
    simp only [onCommand, propose] at h
    simp only [offers]
    rcases hv : (a.view p.slot).propose p.values with ⟨v, e' | proposal⟩
    · rfl
    · rw [hv] at h
      cases h
  onMessage_eq := by
    intro a sender m now
    show ((a.deliver sender m now).state.group.links, (a.deliver sender m now).sent) = _
    cases hheard : a.heard sender m with
    | none =>
      rw [deliver_of_heard_eq_none hheard]
      exact congrArg (_, ·) (List.append_nil _).symm
    | some am =>
      rw [deliver_of_heard_eq_some hheard]
      have hlinks := onAgreement_eq (a.received sender m) sender am now
      exact congrArg (fun r : Links × List Datagram =>
        (r.1, (a.group.deliver sender m).sent ++ r.2)) hlinks
  onTimeout_eq _ _ := rfl
  links_stop _ := rfl

/-- What is sent in answer to a message is what answers the agreement message heard in it. -/
theorem mem_messageOrders_iff {o : Order} : o ∈ Linked.messageOrders a sender m ↔
    ∃ am, a.heard sender m = some am ∧ o ∈ (a.received sender m).answers sender am := by
  simp only [Linked.messageOrders]
  cases a.heard sender m <;> simp

/-! ## What a step comes to for a slot -/

theorem view_setView (a : LatticeAgreement) (slot slot' : Slot) (v : SlotView) :
    (a.setView slot v).view slot' = if slot = slot' then v else a.view slot' := by
  simp only [view, setView, Std.ExtTreeMap.getD_insert, Std.compare_eq_iff_eq]

theorem view_eq_of_getElem? {slot : Slot} {v : SlotView} (h : a.slots[slot]? = some v) :
    a.view slot = v := by
  rw [view, Std.ExtTreeMap.getD_eq_getD_getElem?, h, Option.getD_some]

theorem view_broadcast (a : LatticeAgreement) (p : Proposal) (now : Nat) (slot : Slot) :
    (a.broadcast p now).state.view slot = a.view slot := rfl

theorem slots_reply (a : LatticeAgreement) (receiver : HostId) (m : AgreementMessage) (now : Nat) :
    (a.reply receiver m now).state.slots = a.slots := by
  simp only [reply]
  cases a.group.send receiver (a.wrap m) now <;> rfl

/-- What a member takes in in a step. -/
def Hears (a : LatticeAgreement) (st : Node.Stimulus LatticeAgreement) (sender : HostId)
    (am : AgreementMessage) : Prop :=
  ∃ m, st = .message m ∧ m.sender = sender ∧ a.heard sender m = some am

/-- A message about another slot changes nothing. -/
theorem view_onAgreement_of_ne {am : AgreementMessage} {slot : Slot} (h : am.slot ≠ slot) :
    (a.onAgreement sender am now).state.view slot = a.view slot := by
  cases am with
  | propose p =>
    simp only [onAgreement, view, slots_reply]
    exact (view_setView a p.slot slot _).trans (if_neg h)
  | ack round slot' =>
    simp only [onAgreement]
    cases a.slots[slot']? with
    | none => rfl
    | some v => exact (view_setView a slot' slot _).trans (if_neg h)
  | nack p =>
    simp only [onAgreement]
    cases a.slots[p.slot]? with
    | none => rfl
    | some v =>
      simp only
      cases (v.onNack sender p.round p.values a.group.quorum).2 <;>
        exact (view_setView a p.slot slot _).trans (if_neg h)

/-- All that is sent in answer to a message is about the same slot. -/
theorem slot_of_mem_answers {am : AgreementMessage} (hproper : ∀ slot, (a.view slot).Proper slot)
    {o : Order} (ho : o ∈ a.answers sender am) :
    ∃ am', o.message.payload = AgreementMessage.encode am' ∧ am'.slot = am.slot := by
  cases am with
  | propose p =>
    rw [List.mem_singleton.mp ho]
    exact ⟨_, rfl, (SlotView.slot_onProposal _ p).trans (hproper p.slot).slot_eq⟩
  | ack round slot => cases ho
  | nack p =>
    simp only [answers] at ho
    split at ho
    · cases ho
    · rename_i v hv
      split at ho
      · cases ho
      · rename_i next hnext
        have hv' : v.Proper p.slot := view_eq_of_getElem? hv ▸ hproper p.slot
        obtain ⟨hoffers, rfl⟩ := SlotView.offers_onNack hv' hnext
        rw [List.mem_singleton.mp ho]
        exact ⟨_, rfl, hoffers.slot_eq.trans hv'.slot_eq⟩

theorem turn_onAgreement (hproper : ∀ slot, (a.view slot).Proper slot) (sender : HostId)
    (am : AgreementMessage) (now : Nat) (slot : Slot) :
    SlotView.Turn slot a.group.quorum (fun id am' => id = sender ∧ am' = am) (a.answers sender am)
      (a.view slot) ((a.onAgreement sender am now).state.view slot) := by
  by_cases heq : am.slot = slot
  · subst heq
    cases am with
    | propose p =>
      refine .answer ⟨rfl, rfl⟩ rfl ?_ rfl rfl
      simp only [onAgreement, view, slots_reply]
      exact (view_setView a p.slot p.slot _).trans (if_pos rfl)
    | ack round slot =>
      refine .count ?_ rfl
      show (a.view slot).Counted ((a.onAgreement sender (.ack round slot) now).state.view slot) _ _
      simp only [onAgreement]
      cases hv : a.slots[slot]? with
      | none => exact .refl _
      | some v =>
        have hview := view_eq_of_getElem? hv
        subst hview
        simp only [view_setView, if_true]
        refine SlotView.counted_onAck ?_
        rintro rfl
        exact ⟨rfl, rfl⟩
    | nack p =>
      show SlotView.Turn p.slot _ _ _ (a.view p.slot) (LatticeAgreement.view _ p.slot)
      simp only [onAgreement, answers]
      cases hv : a.slots[p.slot]? with
      | none => exact .rest rfl (List.forall_mem_nil _)
      | some v =>
        have hview := view_eq_of_getElem? hv
        subst hview
        simp only
        cases hnext :
          ((a.view p.slot).onNack sender p.round p.values a.group.quorum).2 with
        | none =>
          simp only [view_setView, if_true]
          exact .count (SlotView.counted_onNack hnext) rfl
        | some next =>
          obtain ⟨hoffers, rfl⟩ := SlotView.offers_onNack (hproper p.slot) hnext
          simp only [view_broadcast, view_setView, if_true]
          exact .offer hoffers rfl rfl
  · refine .rest (view_onAgreement_of_ne heq) fun o ho => ?_
    obtain ⟨am', hpayload, heq'⟩ := slot_of_mem_answers hproper ho
    exact ⟨am', hpayload, heq' ▸ heq⟩

/-- A decision is what was offered for the slot. -/
theorem decided_of_result {am : AgreementMessage} {d : SlotValues}
    (h : (a.onAgreement sender am now).result = some d) :
    ((a.onAgreement sender am now).state.view d.slot).isDecided = true ∧
      ((a.onAgreement sender am now).state.view d.slot).offered = d.values := by
  cases am with
  | propose p => cases h
  | ack round slot =>
    simp only [onAgreement] at h ⊢
    cases hv : a.slots[slot]? with
    | none =>
      rw [hv] at h
      cases h
    | some v =>
      simp only [hv, Option.map_eq_some_iff] at h
      obtain ⟨D, hD, rfl⟩ := h
      simp only [view_setView, if_true]
      exact SlotView.decided_onAck hD
  | nack p =>
    simp only [onAgreement] at h
    cases hv : a.slots[p.slot]? with
    | none =>
      rw [hv] at h
      cases h
    | some v =>
      simp only [hv] at h
      cases hnext : (v.onNack sender p.round p.values a.group.quorum).2 <;>
        simp only [hnext, reduceCtorEq] at h

theorem apply_command (a : LatticeAgreement) (p : SlotValues) (now : Nat) :
    (.command p : Node.Stimulus LatticeAgreement).apply a now =
      match a.propose p now with
      | .ok step => (step.state, [])
      | .error _ => (a, []) := by
  have hcommand : Protocol.onCommand a p now =
      match a.propose p now with
      | .ok step => .ok ⟨step.state, step.sent, []⟩
      | .error e => .error e := rfl
  simp only [Node.Stimulus.apply, hcommand]
  cases a.propose p now <;> rfl

/-- **For each slot a step of a member is one of four things.** -/
theorem turn_apply (hproper : ∀ slot, (a.view slot).Proper slot)
    (st : Node.Stimulus LatticeAgreement) (now : Nat) (slot : Slot) :
    SlotView.Turn slot a.group.quorum (a.Hears st) (st.orders a) (a.view slot)
      ((st.apply a now).1.view slot) := by
  cases st with
  | none | stop | timeout => exact .rest rfl (List.forall_mem_nil _)
  | command p =>
    show SlotView.Turn slot _ _ (a.offers p) _ _
    simp only [apply_command, offers, propose]
    rcases hv : (a.view p.slot).propose p.values with ⟨v, e | proposal⟩
    · exact .rest rfl (List.forall_mem_nil _)
    · obtain ⟨hoffers, rfl⟩ := SlotView.offers_propose hv
      simp only [view_broadcast, view_setView]
      by_cases heq : p.slot = slot
      · subst heq
        rw [if_pos rfl]
        exact .offer hoffers rfl rfl
      · rw [if_neg heq]
        refine .rest rfl fun o ho => ?_
        rw [List.mem_singleton.mp ho]
        refine ⟨_, rfl, ?_⟩
        show v.slot ≠ slot
        rw [hoffers.slot_eq, (hproper p.slot).slot_eq]
        exact heq
  | message m =>
    show SlotView.Turn slot _ _
      (match a.heard m.sender m with
        | none => []
        | some am => (a.received m.sender m).answers m.sender am) _
      ((a.deliver m.sender m now).state.view slot)
    cases hheard : a.heard m.sender m with
    | none =>
      rw [deliver_of_heard_eq_none hheard]
      exact .rest rfl (List.forall_mem_nil _)
    | some am =>
      rw [deliver_of_heard_eq_some hheard]
      refine (turn_onAgreement (a := a.received m.sender m) hproper m.sender am now slot).mono ?_
      rintro id am' ⟨rfl, rfl⟩
      exact ⟨m, rfl, rfl, hheard⟩

/-- A decision that is reported is the one in the view of the slot. -/
theorem decided_of_event {st : Node.Stimulus LatticeAgreement} {slot : Slot} {D : ValueSet}
    (h : .decide slot D ∈ (st.apply a now).2) :
    ((st.apply a now).1.view slot).isDecided = true ∧
      ((st.apply a now).1.view slot).offered = D := by
  cases st with
  | none | stop | timeout => cases h
  | command p =>
    rw [apply_command] at h
    cases hstep : a.propose p now <;> rw [hstep] at h <;> cases h
  | message m =>
    replace h : .decide slot D ∈ (a.deliver m.sender m now).result.toList.map
      fun d => Event.decide d.slot d.values := h
    show ((a.deliver m.sender m now).state.view slot).isDecided = true ∧
      ((a.deliver m.sender m now).state.view slot).offered = D
    obtain ⟨d, hd, heq⟩ := List.mem_map.mp h
    cases heq
    rw [Option.mem_toList] at hd
    cases hheard : a.heard m.sender m with
    | none =>
      rw [deliver_of_heard_eq_none hheard] at hd
      cases hd
    | some am =>
      rw [deliver_of_heard_eq_some hheard] at hd ⊢
      exact decided_of_result hd

theorem hosts_reply (a : LatticeAgreement) (receiver : HostId) (m : AgreementMessage) (now : Nat) :
    (a.reply receiver m now).state.group.hosts = a.group.hosts := by
  simp only [reply, BestEffort.send]
  cases a.group.links.send receiver (a.wrap m) now <;> rfl

theorem hosts_onAgreement (a : LatticeAgreement) (sender : HostId) (am : AgreementMessage)
    (now : Nat) : (a.onAgreement sender am now).state.group.hosts = a.group.hosts := by
  cases am with
  | propose p => exact hosts_reply (a.setView p.slot _) sender _ now
  | ack round slot =>
    simp only [onAgreement]
    cases a.slots[slot]? <;> rfl
  | nack p =>
    simp only [onAgreement]
    cases a.slots[p.slot]? with
    | none => rfl
    | some v =>
      simp only
      cases (v.onNack sender p.round p.values a.group.quorum).2 <;> rfl

/-- The group of a member does not change. -/
theorem hosts_apply (st : Node.Stimulus LatticeAgreement) :
    (st.apply a now).1.group.hosts = a.group.hosts := by
  cases st with
  | none | stop | timeout => rfl
  | command p =>
    rw [apply_command]
    simp only [propose]
    rcases (a.view p.slot).propose p.values with ⟨v, e | proposal⟩ <;> rfl
  | message m =>
    show (a.deliver m.sender m now).state.group.hosts = _
    cases hheard : a.heard m.sender m with
    | none =>
      rw [deliver_of_heard_eq_none hheard]
      rfl
    | some am =>
      rw [deliver_of_heard_eq_some hheard]
      exact hosts_onAgreement (a.received m.sender m) m.sender am now

end LatticeAgreement

end Groupcast
