import Groupcast.Broadcast.Uniform
import Groupcast.Proofs.Broadcast.BestEffort
import Groupcast.Proofs.Node.Member

/-!
# One member that broadcasts uniformly

Uniform broadcast is used by itself and by the protocol that keeps messages in order.  Either is a
protocol that does nothing to its broadcast but use it (`Relaying`), so that a step of a member is
one of four things for the broadcast below (`UniformBroadcast.Turn`): it broadcasts a message of its
own, it notes that someone holds a message, it delivers one, or nothing happens.

A message that has been taken in from a member has been delivered, or waits with that member among
its holders, at all later times (`Handled`).
-/

namespace Groupcast

namespace UniformBroadcast

variable {u u' : UniformBroadcast} {sender holder : HostId} {m : Message} {now : Nat}

/-! ## What is sent -/

/-- To relay a message to every member. -/
def toAll (u : UniformBroadcast) (m : Message) : Order := .all (u.envelope m) nofun

/-- What is sent in answer to a message that was in an envelope. -/
def relays (u : UniformBroadcast) (m : Message) : List Order :=
  if !u.group.hosts.contains m.sender || u.delivered.contains (.ofMessage m) ||
    u.forwarded.contains (.ofMessage m) then [] else [u.toAll m]

/-- The message that gets through in an envelope, if one does. -/
def heard (u : UniformBroadcast) (sender : HostId) (m : Message) : Option Message :=
  u.group.heard Message.decode sender m

/-- The member once its links have taken in a message. -/
def received (u : UniformBroadcast) (sender : HostId) (m : Message) : UniformBroadcast :=
  { u with group := (u.group.deliver sender m).state }

theorem deliver_of_heard_eq_none (h : u.heard sender m = none) (now : Nat) :
    u.deliver sender m now = ⟨u.received sender m, (u.group.deliver sender m).sent, none⟩ := by
  rcases u.group.heard_cases Message.decode sender m with ⟨hresult, -⟩ |
    ⟨hresult, ⟨⟨e, hdecode⟩, -⟩ | ⟨inner, -, hheard⟩⟩
  · simp only [deliver, hresult]
    rfl
  · simp only [deliver, hresult, hdecode]
    rfl
  · cases h.symm.trans hheard

theorem deliver_of_heard_eq_some {inner : Message} (h : u.heard sender m = some inner)
    (now : Nat) : u.deliver sender m now =
      ⟨((u.received sender m).onRelayed sender inner now).state,
        (u.group.deliver sender m).sent ++ ((u.received sender m).onRelayed sender inner now).sent,
        ((u.received sender m).onRelayed sender inner now).result⟩ := by
  obtain ⟨hresult, hdecode⟩ := BestEffort.heard_eq_some.mp h
  simp only [deliver, hresult, hdecode]
  rfl

/-! ## What is noted of a message -/

/-- What is pending of a message once a member is known to hold it. -/
def held (u : UniformBroadcast) (m : Message) (holder : HostId) : Pending :=
  let p := u.pending.getD (.ofMessage m) ⟨m, ∅⟩
  { p with holders := p.holders.insert holder }

theorem mem_holders_held {id : HostId} : id ∈ (u.held m holder).holders ↔ id = holder ∨
    ∃ p, u.pending[Label.ofMessage m]? = some p ∧ id ∈ p.holders := by
  simp only [held, Std.ExtTreeMap.getD_eq_getD_getElem?, Std.ExtTreeSet.mem_insert,
    Std.compare_eq_iff_eq]
  cases u.pending[Label.ofMessage m]? <;> simp [eq_comm]

/-- What is kept of a message is what was kept before, or else the message itself. -/
theorem message_held (u : UniformBroadcast) (m : Message) (holder : HostId) :
    (u.held m holder).message = m ∨
    ∃ p, u.pending[Label.ofMessage m]? = some p ∧ (u.held m holder).message = p.message := by
  simp only [held, Std.ExtTreeMap.getD_eq_getD_getElem?]
  cases u.pending[Label.ofMessage m]? <;> simp

/-- A member takes notice of a message: it relays it, if it has not done so. -/
structure Takes (m : Message) (os : List Order) (u u' : UniformBroadcast) : Prop where
  contains_sender : u.group.hosts.contains m.sender = true
  not_mem_delivered : Label.ofMessage m ∉ u.delivered
  lastId_eq : u'.lastId = u.lastId
  mem_forwarded : ∀ label, label ∈ u'.forwarded ↔ label = Label.ofMessage m ∨ label ∈ u.forwarded
  orders_eq : Label.ofMessage m ∈ u.forwarded ∧ os = [] ∨
    Label.ofMessage m ∉ u.forwarded ∧ os = [u.toAll m]
  pending_of_ne : ∀ label, label ≠ Label.ofMessage m → u'.pending[label]? = u.pending[label]?

/-- What a step of a member comes to for its broadcast.  `hears` says what the member takes in; what
is broadcast and what is delivered are its own message and some message, if there are such. -/
inductive Turn (hears : HostId → Message → Prop) (os : List Order)
    (broadcast? deliver? : Option Message) (u u' : UniformBroadcast) : Prop where
  /-- Nothing happens. -/
  | rest (hlastId : u'.lastId = u.lastId) (hforwarded : u'.forwarded = u.forwarded)
      (hpending : u'.pending = u.pending) (hdelivered : u'.delivered = u.delivered)
      (horders : os = []) (hbroadcast : broadcast? = none) (hdeliver : deliver? = none)
  /-- A message of the member's own is broadcast. -/
  | broadcast {m : Message} (hsender : m.sender = u.self) (hid : m.id = u.lastId + 1)
      (hlastId : u'.lastId = m.id)
      (hforwarded : ∀ label, label ∈ u'.forwarded ↔
        label = Label.ofMessage m ∨ label ∈ u.forwarded)
      (hpending : u'.pending = u.pending.insertIfNew (.ofMessage m) ⟨m, ∅⟩)
      (hdelivered : u'.delivered = u.delivered) (horders : os = [u.toAll m])
      (hbroadcast : broadcast? = some m) (hdeliver : deliver? = none)
  /-- A member is known to hold a message, and there are not enough of them yet. -/
  | hold {holder : HostId} {m : Message} (hheard : hears holder m) (htakes : Takes m os u u')
      (hpending : u'.pending[Label.ofMessage m]? = some (u.held m holder))
      (hsize : (u.held m holder).holders.size < u.group.quorum)
      (hdelivered : u'.delivered = u.delivered)
      (hbroadcast : broadcast? = none) (hdeliver : deliver? = none)
  /-- A member is known to hold a message, and now there are enough. -/
  | deliver {holder : HostId} {m : Message} (hheard : hears holder m) (htakes : Takes m os u u')
      (hpending : u'.pending[Label.ofMessage m]? = none)
      (hsize : u.group.quorum ≤ (u.held m holder).holders.size)
      (hdelivered : ∀ label, label ∈ u'.delivered ↔
        label = Label.ofMessage m ∨ label ∈ u.delivered)
      (hbroadcast : broadcast? = none) (hdeliver : deliver? = some (u.held m holder).message)

theorem Turn.mono {hears hears' : HostId → Message → Prop} {os : List Order}
    {broadcast? deliver? : Option Message} (h : Turn hears os broadcast? deliver? u u')
    (hmono : ∀ id m, hears id m → hears' id m) : Turn hears' os broadcast? deliver? u u' := by
  cases h with
  | rest h₁ h₂ h₃ h₄ h₅ h₆ h₇ => exact .rest h₁ h₂ h₃ h₄ h₅ h₆ h₇
  | broadcast h₁ h₂ h₃ h₄ h₅ h₆ h₇ h₈ h₉ => exact .broadcast h₁ h₂ h₃ h₄ h₅ h₆ h₇ h₈ h₉
  | hold hheard h₁ h₂ h₃ h₄ h₅ h₆ => exact .hold (hmono _ _ hheard) h₁ h₂ h₃ h₄ h₅ h₆
  | deliver hheard h₁ h₂ h₃ h₄ h₅ h₆ => exact .deliver (hmono _ _ hheard) h₁ h₂ h₃ h₄ h₅ h₆

/-! ## Taking in what was in an envelope -/

theorem relayOnce_eq (u : UniformBroadcast) (m : Message) (now : Nat) :
    (u.relayOnce m now).state.lastId = u.lastId ∧
      (u.relayOnce m now).state.pending = u.pending ∧
      (u.relayOnce m now).state.delivered = u.delivered ∧
      (u.relayOnce m now).state.group.hosts = u.group.hosts ∧
      (∀ label, label ∈ (u.relayOnce m now).state.forwarded ↔
        label = .ofMessage m ∨ label ∈ u.forwarded) ∧
      ((u.relayOnce m now).state.group.links, (u.relayOnce m now).sent) =
        u.group.links.performAll now
          (if u.forwarded.contains (.ofMessage m) then [] else [u.toAll m]) := by
  simp only [relayOnce]
  by_cases hold : u.forwarded.contains (.ofMessage m) = true
  · rw [if_pos hold, if_pos hold]
    refine ⟨rfl, rfl, rfl, rfl, fun label => ⟨Or.inr, ?_⟩, rfl⟩
    rintro (rfl | hlabel)
    · exact Std.ExtTreeSet.contains_iff_mem.mp hold
    · exact hlabel
  · rw [if_neg hold, if_neg hold]
    refine ⟨rfl, rfl, rfl, rfl, fun label => ?_, ?_⟩
    · show label ∈ u.forwarded.insert (.ofMessage m) ↔ _
      rw [Std.ExtTreeSet.mem_insert, Std.compare_eq_iff_eq, eq_comm]
    · rw [Links.performAll_singleton]
      rfl

/-- What is in an envelope is not heeded if it comes from no member, or has been delivered. -/
theorem onRelayed_of_not_heeded (holder : HostId) (now : Nat)
    (h : (!u.group.hosts.contains m.sender || u.delivered.contains (.ofMessage m)) = true) :
    u.onRelayed holder m now = ⟨u, [], none⟩ ∧ u.relays m = [] := by
  constructor
  · rw [onRelayed, if_pos h]
  · rw [relays, h, Bool.true_or, if_pos rfl]

/-- What becomes of a message that waits. -/
theorem tryDeliver_of_pending {label : Label} {p : Pending} (h : u.pending[label]? = some p) :
    p.holders.size < u.group.quorum ∧ u.tryDeliver label = (u, none) ∨
      u.group.quorum ≤ p.holders.size ∧ u.tryDeliver label =
        ({ u with pending := u.pending.erase label, delivered := u.delivered.insert label },
          some p.message) := by
  simp only [tryDeliver, h]
  by_cases hsize : u.group.quorum ≤ p.holders.size
  · exact Or.inr ⟨hsize, if_pos hsize⟩
  · exact Or.inl ⟨Nat.lt_of_not_le hsize, if_neg hsize⟩

/-- All else is. -/
theorem onRelayed_of_heeded (holder : HostId) (now : Nat)
    (h : (!u.group.hosts.contains m.sender || u.delivered.contains (.ofMessage m)) = false) :
    Takes m (u.relays m) u (u.onRelayed holder m now).state ∧
      ((u.held m holder).holders.size < u.group.quorum ∧
          (u.onRelayed holder m now).state.pending[Label.ofMessage m]? = some (u.held m holder) ∧
          (u.onRelayed holder m now).state.delivered = u.delivered ∧
          (u.onRelayed holder m now).result = none ∨
        u.group.quorum ≤ (u.held m holder).holders.size ∧
          (u.onRelayed holder m now).state.pending[Label.ofMessage m]? = none ∧
          (u.onRelayed holder m now).state.delivered = u.delivered.insert (.ofMessage m) ∧
          (u.onRelayed holder m now).result = some (u.held m holder).message) := by
  have hheeded := h
  rw [Bool.or_eq_false_iff, Bool.not_eq_false', ← Bool.not_eq_true,
    Std.ExtTreeSet.contains_iff_mem] at hheeded
  obtain ⟨hlastId, hpending, hdelivered, hhosts, hforwarded, -⟩ :=
    relayOnce_eq (u.addHolder m holder) m now
  have hadded : (u.addHolder m holder).pending =
      u.pending.insert (.ofMessage m) (u.held m holder) := rfl
  have hwaits : ((u.addHolder m holder).relayOnce m now).state.pending[Label.ofMessage m]? =
      some (u.held m holder) := by
    rw [hpending, hadded, Std.ExtTreeMap.getElem?_insert_self]
  have hother : ∀ label, label ≠ Label.ofMessage m →
      ((u.addHolder m holder).relayOnce m now).state.pending[label]? = u.pending[label]? := by
    intro label hlabel
    rw [hpending, hadded, Std.ExtTreeMap.getElem?_insert, if_neg]
    rw [Std.compare_eq_iff_eq]
    exact fun heq => hlabel heq.symm
  have horders : Label.ofMessage m ∈ u.forwarded ∧ u.relays m = [] ∨
      Label.ofMessage m ∉ u.forwarded ∧ u.relays m = [u.toAll m] := by
    rw [relays, h, Bool.false_or]
    by_cases hold : Label.ofMessage m ∈ u.forwarded
    · exact Or.inl ⟨hold, if_pos (Std.ExtTreeSet.contains_iff_mem.mpr hold)⟩
    · refine Or.inr ⟨hold, if_neg ?_⟩
      rwa [Std.ExtTreeSet.contains_iff_mem]
  have hquorum : ((u.addHolder m holder).relayOnce m now).state.group.quorum = u.group.quorum := by
    rw [BestEffort.quorum, hhosts]
    rfl
  simp only [onRelayed, h, Bool.false_eq_true, if_false]
  rcases tryDeliver_of_pending hwaits with ⟨hsize, heq⟩ | ⟨hsize, heq⟩
  · rw [hquorum] at hsize
    rw [heq]
    exact ⟨⟨hheeded.1, hheeded.2, hlastId, hforwarded, horders, hother⟩,
      Or.inl ⟨hsize, hwaits, hdelivered, rfl⟩⟩
  · rw [hquorum] at hsize
    rw [heq]
    refine ⟨⟨hheeded.1, hheeded.2, hlastId, hforwarded, horders, fun label hlabel => ?_⟩,
      Or.inr ⟨hsize, Std.ExtTreeMap.getElem?_erase_self,
        congrArg (·.insert (Label.ofMessage m)) hdelivered, rfl⟩⟩
    rw [← hother label hlabel]
    show (Std.ExtTreeMap.erase _ (Label.ofMessage m))[label]? = _
    rw [Std.ExtTreeMap.getElem?_erase, if_neg]
    rw [Std.compare_eq_iff_eq]
    exact fun heq => hlabel heq.symm

theorem group_tryDeliver (u : UniformBroadcast) (label : Label) :
    (u.tryDeliver label).1.group = u.group := by
  simp only [tryDeliver]
  split
  · split <;> rfl
  · rfl

/-- Taking in what was in an envelope sends what `relays` says. -/
theorem onRelayed_eq (u : UniformBroadcast) (holder : HostId) (m : Message) (now : Nat) :
    (u.onRelayed holder m now).state.group.hosts = u.group.hosts ∧
      ((u.onRelayed holder m now).state.group.links, (u.onRelayed holder m now).sent) =
        u.group.links.performAll now (u.relays m) := by
  cases h : !u.group.hosts.contains m.sender || u.delivered.contains (.ofMessage m) with
  | true =>
    obtain ⟨heq, horders⟩ := onRelayed_of_not_heeded holder now h
    rw [heq, horders]
    exact ⟨rfl, rfl⟩
  | false =>
    obtain ⟨-, -, -, hhosts, -, hsent⟩ := relayOnce_eq (u.addHolder m holder) m now
    simp only [onRelayed, relays, h, Bool.false_eq_true, if_false, Bool.false_or]
    rw [group_tryDeliver]
    exact ⟨hhosts, hsent⟩

theorem turn_onRelayed (u : UniformBroadcast) (holder : HostId) (m : Message) (now : Nat) :
    Turn (fun id m' => id = holder ∧ m' = m) (u.relays m) none (u.onRelayed holder m now).result u
      (u.onRelayed holder m now).state := by
  cases h : !u.group.hosts.contains m.sender || u.delivered.contains (.ofMessage m) with
  | true =>
    obtain ⟨heq, horders⟩ := onRelayed_of_not_heeded holder now h
    rw [heq, horders]
    exact .rest rfl rfl rfl rfl rfl rfl rfl
  | false =>
    obtain ⟨htakes, ⟨hsize, hpending, hdelivered, hresult⟩ | ⟨hsize, hpending, hdelivered,
      hresult⟩⟩ := onRelayed_of_heeded holder now h
    · exact .hold ⟨rfl, rfl⟩ htakes hpending hsize hdelivered rfl hresult
    · refine .deliver ⟨rfl, rfl⟩ htakes hpending hsize (fun label => ?_) rfl hresult
      rw [hdelivered, Std.ExtTreeSet.mem_insert, Std.compare_eq_iff_eq, eq_comm]

theorem toAll_received (u : UniformBroadcast) (sender : HostId) (m m' : Message) :
    (u.received sender m).toAll m' = u.toAll m' := by
  have hself : (u.received sender m).self = u.self := (Links.moved_deliver sender m).self_eq
  simp only [toAll, envelope, hself]

theorem Takes.of_received {inner : Message} {os : List Order}
    (h : Takes inner os (u.received sender m) u') : Takes inner os u u' where
  contains_sender := h.contains_sender
  not_mem_delivered := h.not_mem_delivered
  lastId_eq := h.lastId_eq
  mem_forwarded := h.mem_forwarded
  orders_eq := toAll_received u sender m inner ▸ h.orders_eq
  pending_of_ne := h.pending_of_ne

theorem turn_deliver {inner : Message} (h : u.heard sender m = some inner) (now : Nat) :
    Turn (fun id m' => id = sender ∧ m' = inner) ((u.received sender m).relays inner) none
      (u.deliver sender m now).result u (u.deliver sender m now).state := by
  rw [deliver_of_heard_eq_some h]
  cases turn_onRelayed (u.received sender m) sender inner now with
  | rest h₁ h₂ h₃ h₄ h₅ h₆ h₇ => exact .rest h₁ h₂ h₃ h₄ h₅ h₆ h₇
  | broadcast _ _ _ _ _ _ _ hbroadcast _ => cases hbroadcast
  | hold hheard htakes h₂ h₃ h₄ h₅ h₆ => exact .hold hheard htakes.of_received h₂ h₃ h₄ h₅ h₆
  | deliver hheard htakes h₂ h₃ h₄ h₅ h₆ => exact .deliver hheard htakes.of_received h₂ h₃ h₄ h₅ h₆

/-! ## What has been taken in -/

/-- A message in an envelope of a member has been delivered, or that member is known to hold it. -/
def Handled (u : UniformBroadcast) (holder : HostId) (envelope : Message) : Prop :=
  ∀ m, Message.decode envelope.payload = .ok m → u.group.hosts.contains m.sender = true →
    Label.ofMessage m ∈ u.delivered ∨
      ∃ p, u.pending[Label.ofMessage m]? = some p ∧ holder ∈ p.holders

/-- It stays so. -/
theorem Turn.handled {hears : HostId → Message → Prop} {os : List Order}
    {broadcast? deliver? : Option Message} {envelope : Message}
    (h : Turn hears os broadcast? deliver? u u') (hhosts : u'.group.hosts = u.group.hosts)
    (hold : u.Handled holder envelope) : u'.Handled holder envelope := by
  intro m hdecode hcontains
  rw [hhosts] at hcontains
  have hm := hold m hdecode hcontains
  cases h with
  | rest _ _ hpending hdelivered _ _ _ =>
    rw [hpending, hdelivered]
    exact hm
  | broadcast _ _ _ _ hpending hdelivered _ _ _ =>
    rw [hpending, hdelivered]
    refine hm.imp_right ?_
    rintro ⟨p, hp, hmem⟩
    refine ⟨p, ?_, hmem⟩
    rw [Std.ExtTreeMap.getElem?_insertIfNew, if_neg, hp]
    rintro ⟨hlabel, hnew⟩
    rw [Std.compare_eq_iff_eq] at hlabel
    rw [hlabel] at hnew
    exact hnew (Std.ExtTreeMap.mem_iff_isSome_getElem?.mpr (by rw [hp]; rfl))
  | @hold holder' m' _ htakes hpending _ hdelivered _ _ =>
    rw [hdelivered]
    refine hm.imp_right ?_
    rintro ⟨p, hp, hmem⟩
    by_cases hlabel : Label.ofMessage m = Label.ofMessage m'
    · rw [hlabel, hpending]
      exact ⟨_, rfl, mem_holders_held.mpr (Or.inr ⟨p, hlabel ▸ hp, hmem⟩)⟩
    · exact ⟨p, by rw [htakes.pending_of_ne _ hlabel, hp], hmem⟩
  | @deliver holder' m' _ htakes _ _ hdelivered _ _ =>
    rw [hdelivered]
    by_cases hlabel : Label.ofMessage m = Label.ofMessage m'
    · exact Or.inl (Or.inl hlabel)
    · rcases hm with hm | ⟨p, hp, hmem⟩
      · exact Or.inl (Or.inr hm)
      · exact Or.inr ⟨p, by rw [htakes.pending_of_ne _ hlabel, hp], hmem⟩

/-- What comes out of an envelope for the first time is handled. -/
theorem handled_deliver {l : PerfectLink} (hl : u.group.links.links[sender]? = some l)
    (hkind : m.kind = .data) (hnew : l.delivered.contains m.id = false) (now : Nat) :
    (u.deliver sender m now).state.Handled sender m := by
  intro inner hdecode hcontains
  have hresult : (u.group.deliver sender m).result = some m := by
    show (u.group.links.deliver sender m).result = some m
    rw [Links.result_deliver hl, (PerfectLink.deliver_of_data hkind).2.1, hnew]
    rfl
  rw [deliver_of_heard_eq_some (BestEffort.heard_eq_some.mpr ⟨hresult, hdecode⟩)] at hcontains ⊢
  simp only [(onRelayed_eq (u.received sender m) sender inner now).1] at hcontains
  cases h : !(u.received sender m).group.hosts.contains inner.sender ||
      (u.received sender m).delivered.contains (.ofMessage inner) with
  | true =>
    simp only [(onRelayed_of_not_heeded sender now h).1]
    rw [hcontains, Bool.not_true, Bool.false_or, Std.ExtTreeSet.contains_iff_mem] at h
    exact Or.inl h
  | false =>
    obtain ⟨-, ⟨-, hpending, -, -⟩ | ⟨-, -, hdelivered, -⟩⟩ := onRelayed_of_heeded sender now h
    · exact Or.inr ⟨_, hpending, mem_holders_held.mpr (Or.inl rfl)⟩
    · refine Or.inl ?_
      simp only [hdelivered, Std.ExtTreeSet.mem_insert, Std.compare_self, true_or]

end UniformBroadcast

/-! ## Protocols on top of it -/

/-- A protocol that sits on a uniform broadcast and does nothing to it but use it. -/
class Relaying (π : Type) [Protocol π] where
  /-- The protocol of a member, before anything has happened. -/
  ofHosts : HostId → Hosts → Tuning → π
  uniform : π → UniformBroadcast
  /-- What is broadcast for a command. -/
  draft : (p : π) → Protocol.Command π → Message
  uniform_ofHosts : ∀ id hosts tuning, uniform (ofHosts id hosts tuning) = .ofHosts id hosts tuning
  onCommand_eq : ∀ (p : π) (c : Protocol.Command π) (now : Nat), ∃ step : Step π (List Event),
    Protocol.onCommand p c now = .ok step ∧
      uniform step.state = ((uniform p).broadcast (draft p c) now).state ∧
      step.sent = ((uniform p).broadcast (draft p c) now).sent
  onMessage_eq : ∀ (p : π) (sender : HostId) (m : Message) (now : Nat),
    uniform (Protocol.onMessage p sender m now).state = ((uniform p).deliver sender m now).state ∧
      (Protocol.onMessage p sender m now).sent = ((uniform p).deliver sender m now).sent
  onTimeout_eq : ∀ (p : π) (now : Nat),
    uniform (Protocol.onTimeout p now).state = ((uniform p).onTimeout now).state ∧
      (Protocol.onTimeout p now).sent = ((uniform p).onTimeout now).sent
  uniform_stop : ∀ p : π, uniform (Protocol.stop p) = (uniform p).stop

instance : Relaying UniformBroadcast where
  ofHosts := .ofHosts
  uniform := id
  draft u payload := .ofData u.self (u.lastId + 1) payload
  uniform_ofHosts _ _ _ := rfl
  onCommand_eq _ _ _ := ⟨_, rfl, rfl, rfl⟩
  onMessage_eq _ _ _ _ := ⟨rfl, rfl⟩
  onTimeout_eq _ _ := ⟨rfl, rfl⟩
  uniform_stop _ := rfl

open Relaying (uniform draft)

variable {π : Type} [Protocol π] [Relaying π] {now : Nat}

/-- Sending is all done over links. -/
instance : Linked π where
  ofHosts := Relaying.ofHosts
  links p := (uniform p).group.links
  commandOrders p c := [(uniform p).toAll ((uniform p).stamp (draft p c))]
  messageOrders p sender m :=
    match (uniform p).heard sender m with
    | none => []
    | some inner => ((uniform p).received sender m).relays inner
  links_ofHosts id hosts tuning := by
    rw [Relaying.uniform_ofHosts]
    rfl
  onCommand_ok := by
    intro p c now step h
    obtain ⟨step', hstep, hstate, hsent⟩ := Relaying.onCommand_eq p c now
    rw [hstep] at h
    cases h
    rw [hstate, hsent, Links.performAll_singleton]
    rfl
  onCommand_error := by
    intro p c now e h
    obtain ⟨step', hstep, -⟩ := Relaying.onCommand_eq p c now
    rw [hstep] at h
    cases h
  onMessage_eq := by
    intro p sender m now
    obtain ⟨hstate, hsent⟩ := Relaying.onMessage_eq p sender m now
    rw [hstate, hsent]
    cases hheard : (uniform p).heard sender m with
    | none =>
      rw [UniformBroadcast.deliver_of_heard_eq_none hheard]
      exact congrArg (_, ·) (List.append_nil _).symm
    | some inner =>
      rw [UniformBroadcast.deliver_of_heard_eq_some hheard]
      have hlinks :=
        (((uniform p).received sender m).onRelayed_eq sender inner now).2
      exact congrArg (fun r : Links × List Datagram =>
        (r.1, ((uniform p).group.deliver sender m).sent ++ r.2)) hlinks
  onTimeout_eq := by
    intro p now
    obtain ⟨hstate, hsent⟩ := Relaying.onTimeout_eq p now
    rw [hstate, hsent]
    rfl
  links_stop := by
    intro p
    rw [Relaying.uniform_stop]
    rfl

/-- What is sent in answer to a message is what is relayed of the message heard in it. -/
theorem Relaying.mem_messageOrders_iff {p : π} {sender : HostId} {m : Message} {o : Order} :
    o ∈ Linked.messageOrders p sender m ↔ ∃ inner, (uniform p).heard sender m = some inner ∧
      o ∈ ((uniform p).received sender m).relays inner := by
  simp only [Linked.messageOrders]
  cases (uniform p).heard sender m <;> simp

namespace Node.Stimulus

/-- The message that a step broadcasts, as it is stamped. -/
def broadcast? (st : Stimulus π) (p : π) : Option Message :=
  match st with
  | command c => some ((uniform p).stamp (draft p c))
  | none | stop | timeout | message _ => Option.none

/-- The message that the broadcast of a member delivers in a step. -/
def deliver? (st : Stimulus π) (p : π) (now : Nat) : Option Message :=
  match st with
  | message m => ((uniform p).deliver m.sender m now).result
  | none | stop | timeout | command _ => Option.none

/-- What the broadcast of a member takes in in a step. -/
def Hears (st : Stimulus π) (p : π) (sender : HostId) (m : Message) : Prop :=
  ∃ envelope, st = .message envelope ∧ envelope.sender = sender ∧
    (uniform p).heard sender envelope = some m

variable (st : Stimulus π) (p : π) (now : Nat)

/-- **A step of a member is one of four things for its broadcast.** -/
theorem turn_apply : UniformBroadcast.Turn (st.Hears p) (st.orders p) (st.broadcast? p)
    (st.deliver? p now) (uniform p) (uniform (st.apply p now).1) := by
  cases st with
  | none => exact .rest rfl rfl rfl rfl rfl rfl rfl
  | stop =>
    show UniformBroadcast.Turn _ _ _ _ _ (uniform (Protocol.stop p))
    rw [Relaying.uniform_stop]
    exact .rest rfl rfl rfl rfl rfl rfl rfl
  | timeout =>
    show UniformBroadcast.Turn _ _ _ _ _ (uniform (Protocol.onTimeout p now).state)
    rw [(Relaying.onTimeout_eq p now).1]
    exact .rest rfl rfl rfl rfl rfl rfl rfl
  | command c =>
    obtain ⟨step, hstep, hstate, -⟩ := Relaying.onCommand_eq p c now
    simp only [apply, hstep, hstate]
    refine .broadcast rfl rfl rfl (fun label => ?_) rfl rfl rfl rfl rfl
    show label ∈ (uniform p).forwarded.insert (.ofMessage _) ↔ _
    rw [Std.ExtTreeSet.mem_insert, Std.compare_eq_iff_eq, eq_comm]
  | message m =>
    show UniformBroadcast.Turn _ (Linked.messageOrders p m.sender m) _
      ((uniform p).deliver m.sender m now).result _
      (uniform (Protocol.onMessage p m.sender m now).state)
    rw [(Relaying.onMessage_eq p m.sender m now).1]
    simp only [Linked.messageOrders]
    cases hheard : (uniform p).heard m.sender m with
    | none =>
      rw [UniformBroadcast.deliver_of_heard_eq_none hheard]
      exact .rest rfl rfl rfl rfl rfl rfl rfl
    | some inner =>
      refine (UniformBroadcast.turn_deliver hheard now).mono ?_
      rintro id inner' ⟨rfl, rfl⟩
      exact ⟨m, rfl, rfl, hheard⟩

/-- The group of a member does not change. -/
theorem hosts_apply :
    (uniform (st.apply p now).1).group.hosts = (uniform p).group.hosts := by
  cases st with
  | none => rfl
  | stop =>
    show (uniform (Protocol.stop p)).group.hosts = _
    rw [Relaying.uniform_stop]
    rfl
  | timeout =>
    show (uniform (Protocol.onTimeout p now).state).group.hosts = _
    rw [(Relaying.onTimeout_eq p now).1]
    rfl
  | command c =>
    obtain ⟨step, hstep, hstate, -⟩ := Relaying.onCommand_eq p c now
    simp only [apply, hstep, hstate]
    rfl
  | message m =>
    show (uniform (Protocol.onMessage p m.sender m now).state).group.hosts = _
    rw [(Relaying.onMessage_eq p m.sender m now).1]
    cases hheard : (uniform p).heard m.sender m with
    | none =>
      rw [UniformBroadcast.deliver_of_heard_eq_none hheard]
      rfl
    | some inner =>
      rw [UniformBroadcast.deliver_of_heard_eq_some hheard]
      exact (((uniform p).received m.sender m).onRelayed_eq m.sender inner now).1

end Node.Stimulus

end Groupcast
