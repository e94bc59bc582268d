import Groupcast.Proofs.Agreement.Lattice
import Groupcast.Proofs.Broadcast.Fifo

/-!
# The protocols of a node

A node runs one of four protocols (`Stack`): the links by themselves, one of the two broadcasts, or
agreement.  All of them leave everything that has to do with time to their links
(`Stack.nextDeadline?_eq`, `Stack.onTimeout_of_rest`), and all that they order is data in the
member's own name (`Stack.own_commandOrders`, `Stack.own_messageOrders`).  The links by themselves
order nothing in answer to a message, and no protocol orders anything in answer to an
acknowledgement (`Stack.kind_ne_ack_of_mem_messageOrders`).
-/

namespace Groupcast

/-- What is sent for a request, if there is a link to the host. -/
def Links.requests (g : Links) (c : Links.Command) : List Order :=
  if g.links.contains c.receiver then
    [.one c.receiver (.ofData g.self c.seq c.payload) nofun]
  else []

instance : Linked Links where
  ofHosts := .ofHosts
  links g := g
  commandOrders := Links.requests
  messageOrders _ _ _ := []
  links_ofHosts _ _ _ := rfl
  onCommand_ok := by
    intro g c now step h
    replace h : g.onCommand c now = .ok step := h
    simp only [Links.onCommand, Links.send] at h
    rw [Links.requests, Std.ExtTreeMap.contains_eq_isSome_getElem?]
    cases hl : g.links[c.receiver]? with
    | none =>
      rw [hl] at h
      cases h
    | some l =>
      rw [hl] at h
      cases h
      rw [Option.isSome_some, if_pos rfl, Links.performAll_singleton]
      simp only [Links.perform, Links.send, hl]
  onCommand_error := by
    intro g c now e h
    replace h : g.onCommand c now = .error e := h
    simp only [Links.onCommand, Links.send] at h
    rw [Links.requests, Std.ExtTreeMap.contains_eq_isSome_getElem?]
    cases hl : g.links[c.receiver]? with
    | none => rfl
    | some l =>
      rw [hl] at h
      cases h
  onMessage_eq _ _ _ _ := congrArg (_, ·) (List.append_nil _).symm
  onTimeout_eq _ _ := rfl
  links_stop _ := rfl

/-- An order to send data in the name of a member. -/
def Order.Own (owner : HostId) (o : Order) : Prop :=
  o.message.kind = .data ∧ o.message.sender = owner

theorem Links.own_of_mem_requests {g : Links} {c : Links.Command} {o : Order}
    (ho : o ∈ g.requests c) : o.Own g.self := by
  rw [requests] at ho
  split at ho
  · rw [List.mem_singleton.mp ho]
    exact ⟨rfl, rfl⟩
  · cases ho

theorem UniformBroadcast.own_toAll (u : UniformBroadcast) (m : Message) :
    (u.toAll m).Own u.group.links.self := ⟨rfl, rfl⟩

theorem UniformBroadcast.own_of_mem_relays {u : UniformBroadcast} {m : Message} {o : Order}
    (ho : o ∈ u.relays m) : o.Own u.group.links.self := by
  rw [relays] at ho
  split at ho
  · cases ho
  · rw [List.mem_singleton.mp ho]
    exact u.own_toAll m

section

open Relaying (uniform)

variable {π : Type} [Protocol π] [Relaying π] {p : π} {o : Order}

theorem Relaying.own_of_mem_commandOrders {c : Protocol.Command π}
    (ho : o ∈ Linked.commandOrders p c) : o.Own (Linked.links p).self := by
  rw [List.mem_singleton.mp ho]
  exact (uniform p).own_toAll _

theorem Relaying.own_of_mem_messageOrders {sender : HostId} {m : Message}
    (ho : o ∈ Linked.messageOrders p sender m) : o.Own (Linked.links p).self := by
  have hself : ((uniform p).received sender m).group.links.self = (uniform p).group.links.self :=
    (Links.moved_deliver sender m).self_eq
  obtain ⟨inner, -, ho⟩ := mem_messageOrders_iff.mp ho
  exact hself ▸ UniformBroadcast.own_of_mem_relays ho

theorem Relaying.kind_ne_ack_of_mem_messageOrders {sender : HostId} {m : Message}
    (ho : o ∈ Linked.messageOrders p sender m) : m.kind ≠ .ack := by
  obtain ⟨inner, hheard, -⟩ := mem_messageOrders_iff.mp ho
  exact BestEffort.kind_ne_ack_of_heard hheard

end

namespace LatticeAgreement

variable {a : LatticeAgreement} {o : Order}

theorem own_of_mem_offers {p : SlotValues} (ho : o ∈ a.offers p) : o.Own a.group.links.self := by
  rw [offers] at ho
  split at ho
  · rw [List.mem_singleton.mp ho]
    exact ⟨rfl, rfl⟩
  · cases ho

theorem own_of_mem_answers {sender : HostId} {am : AgreementMessage}
    (ho : o ∈ a.answers sender am) : o.Own a.group.links.self := by
  cases am with
  | propose p =>
    rw [List.mem_singleton.mp ho]
    exact ⟨rfl, rfl⟩
  | ack round slot => cases ho
  | nack p =>
    simp only [answers] at ho
    split at ho
    · cases ho
    · split at ho
      · cases ho
      · rw [List.mem_singleton.mp ho]
        exact ⟨rfl, rfl⟩

theorem own_of_mem_messageOrders {sender : HostId} {m : Message}
    (ho : o ∈ Linked.messageOrders a sender m) : o.Own a.group.links.self := by
  have hself : (a.received sender m).group.links.self = a.group.links.self :=
    (Links.moved_deliver sender m).self_eq
  obtain ⟨am, -, ho⟩ := mem_messageOrders_iff.mp ho
  exact hself ▸ own_of_mem_answers ho

theorem kind_ne_ack_of_mem_messageOrders {sender : HostId} {m : Message}
    (ho : o ∈ Linked.messageOrders a sender m) : m.kind ≠ .ack := by
  obtain ⟨am, hheard, -⟩ := mem_messageOrders_iff.mp ho
  exact BestEffort.kind_ne_ack_of_heard hheard

end LatticeAgreement

/-- The protocols that a node can run. -/
inductive Stack where
  | links
  | uniform
  | fifo
  | lattice
  deriving DecidableEq

namespace Stack

/-- The states of a protocol. -/
abbrev State : Stack → Type
  | links => Links
  | uniform => UniformBroadcast
  | fifo => FifoBroadcast
  | lattice => LatticeAgreement

instance : (s : Stack) → Protocol s.State
  | links => inferInstanceAs (Protocol Links)
  | uniform => inferInstanceAs (Protocol UniformBroadcast)
  | fifo => inferInstanceAs (Protocol FifoBroadcast)
  | lattice => inferInstanceAs (Protocol LatticeAgreement)

instance : (s : Stack) → Linked s.State
  | links => inferInstanceAs (Linked Links)
  | uniform => inferInstanceAs (Linked UniformBroadcast)
  | fifo => inferInstanceAs (Linked FifoBroadcast)
  | lattice => inferInstanceAs (Linked LatticeAgreement)

/-- The protocol of a member, before anything has happened. -/
def ofHosts : (s : Stack) → HostId → Hosts → Tuning → s.State
  | links => .ofHosts
  | uniform => .ofHosts
  | fifo => .ofHosts
  | lattice => .ofHosts

/-- The number of messages that wait for an acknowledgement. -/
def inFlight : (s : Stack) → s.State → Nat
  | links => Links.inFlight
  | uniform => UniformBroadcast.inFlight
  | fifo => FifoBroadcast.inFlight
  | lattice => LatticeAgreement.inFlight

/-- The node of a member, with a failure detector if there is a tuning for it. -/
def node (s : Stack) (self : HostId) (hosts : Hosts) (tuning : Tuning) (watching : Option Tuning) :
    Option (Node s.State) :=
  Node.ofHosts self hosts (s.ofHosts self hosts tuning) (watching.map (.ofHosts self hosts))

variable {s : Stack}

theorem links_ofHosts (s : Stack) (self : HostId) (hosts : Hosts) (tuning : Tuning) :
    Linked.links (s.ofHosts self hosts tuning) = .ofHosts self hosts tuning := by
  cases s <;> rfl

theorem inFlight_eq (p : s.State) : s.inFlight p = (Linked.links p).inFlight := by
  cases s <;> rfl

theorem nextDeadline?_eq (p : s.State) :
    Protocol.nextDeadline? p = (Linked.links p).nextDeadline? := by
  cases s <;> rfl

/-- A protocol whose links have nothing to do has nothing to do. -/
theorem onTimeout_of_rest {p : s.State} {now : Nat}
    (h : (Linked.links p).onTimeout now = ⟨Linked.links p, [], ()⟩) :
    Protocol.onTimeout p now = ⟨p, [], ()⟩ := by
  cases s with
  | links => exact h
  | uniform =>
    replace h : p.group.links.onTimeout now = ⟨p.group.links, [], ()⟩ := h
    show UniformBroadcast.onTimeout p now = _
    simp only [UniformBroadcast.onTimeout, BestEffort.onTimeout, BestEffort.put, h]
  | fifo =>
    replace h : p.uniform.group.links.onTimeout now = ⟨p.uniform.group.links, [], ()⟩ := h
    show FifoBroadcast.onTimeout p now = _
    simp only [FifoBroadcast.onTimeout, UniformBroadcast.onTimeout, BestEffort.onTimeout,
      BestEffort.put, h]
  | lattice =>
    replace h : p.group.links.onTimeout now = ⟨p.group.links, [], ()⟩ := h
    show LatticeAgreement.onTimeout p now = _
    simp only [LatticeAgreement.onTimeout, BestEffort.onTimeout, BestEffort.put, h]

/-! ## What is ordered -/

/-- What is ordered for a command is data in the member's own name. -/
theorem own_commandOrders {p : s.State} {c : Protocol.Command s.State} {o : Order}
    (ho : o ∈ Linked.commandOrders p c) : o.Own (Linked.links p).self := by
  cases s with
  | links => exact Links.own_of_mem_requests ho
  | uniform | fifo => exact Relaying.own_of_mem_commandOrders ho
  | lattice => exact LatticeAgreement.own_of_mem_offers ho

/-- What is ordered in answer to a message is data in the member's own name. -/
theorem own_messageOrders {p : s.State} {sender : HostId} {m : Message} {o : Order}
    (ho : o ∈ Linked.messageOrders p sender m) : o.Own (Linked.links p).self := by
  cases s with
  | links => cases ho
  | uniform | fifo => exact Relaying.own_of_mem_messageOrders ho
  | lattice => exact LatticeAgreement.own_of_mem_messageOrders ho

/-- Nothing is ordered in answer to an acknowledgement. -/
theorem kind_ne_ack_of_mem_messageOrders {p : s.State} {sender : HostId} {m : Message} {o : Order}
    (ho : o ∈ Linked.messageOrders p sender m) : m.kind ≠ .ack := by
  cases s with
  | links => cases ho
  | uniform | fifo => exact Relaying.kind_ne_ack_of_mem_messageOrders ho
  | lattice => exact LatticeAgreement.kind_ne_ack_of_mem_messageOrders ho

end Stack

end Groupcast
