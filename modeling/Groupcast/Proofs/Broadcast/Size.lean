import Groupcast.Proofs.Broadcast.Order
import Groupcast.Proofs.Node.Size

/-!
# Broadcasts in order fit into datagrams

A payload travels inside three messages: the one that stands for it, the one that carries it
together with the history of its sender, and the envelope.  The history takes what room is left,
but the number of its blocks is always there, and so four bytes less than the budget of the history
are left for the payload (`FifoBroadcast.maxPayload`).

If no payload is longer, then no datagram of any run is longer than a datagram can be, whatever the
histories are that the members have gathered, and a longer payload never fits (`datagrams_fit`).
-/

namespace Groupcast

open Relaying (uniform draft)

/-! ## What a member orders -/

namespace UniformBroadcast

variable {u : UniformBroadcast} {m : Message}

theorem encodedLength_toAll (u : UniformBroadcast) (m : Message) :
    (u.toAll m).message.encodedLength = Message.headerLength + m.encodedLength := by
  show Message.headerLength + m.encode.length = _
  rw [Message.length_encode]

/-- A message is relayed in an envelope that is as long as the one in which it came. -/
theorem encodedLength_of_mem_relays {sender : HostId} {inner : Message} {o : Order}
    (hheard : u.heard sender m = some inner) (ho : o ∈ (u.received sender m).relays inner) :
    o.message.encodedLength = m.encodedLength := by
  obtain ⟨-, hdecode⟩ := BestEffort.heard_eq_some.mp hheard
  have hpayload : m.payload.length = inner.encodedLength := by
    rw [Message.decode_eq_ok_iff.mp hdecode, Message.length_encode]
  rw [relays] at ho
  split at ho
  · cases ho
  · rw [List.mem_singleton.mp ho, encodedLength_toAll, ← hpayload]
    rfl

end UniformBroadcast

/-- What a member relays of a message is as long as the message. -/
theorem Relaying.encodedLength_of_mem_messageOrders {π : Type} [Protocol π] [Relaying π] {p : π}
    {sender : HostId} {m : Message} {o : Order} (ho : o ∈ Linked.messageOrders p sender m) :
    o.message.encodedLength = m.encodedLength := by
  obtain ⟨inner, hheard, ho⟩ := Relaying.mem_messageOrders_iff.mp ho
  exact UniformBroadcast.encodedLength_of_mem_relays hheard ho

namespace FifoBroadcast

/-- The longest payload that is sure to fit. -/
def maxPayload : Nat := History.budget - 4

/-- A body is as long as its message and its history, which has at least a number of blocks. -/
theorem length_body_le (history : History) (m : Message) :
    (body history m).length ≤ max 4 (History.budget - m.payload.length) + 4 + m.encodedLength := by
  have hle := History.length_encode_le (History.budget - m.payload.length) history
  rw [body, List.length_append, Message.length_encodeFramed]
  omega

theorem encodedLength_carrier (f : FifoBroadcast) (payload : Bytes) :
    (f.carrier payload).encodedLength =
      Message.headerLength + (body f.history (f.text payload)).length := rfl

/-- The order in which a payload goes out. -/
def issueOrder (f : FifoBroadcast) (payload : Bytes) : Order :=
  f.uniform.toAll (f.uniform.stamp (f.carrier payload))

/-- What a member does when it is asked to broadcast a payload. -/
def request (payload : Bytes) : Cause (Node FifoBroadcast) := .input (.command payload)

theorem commandOrders_eq (f : FifoBroadcast) (payload : Bytes) :
    Linked.commandOrders f payload = [f.issueOrder payload] := rfl

theorem encodedLength_issueOrder (f : FifoBroadcast) (payload : Bytes) :
    (f.issueOrder payload).message.encodedLength =
      2 * Message.headerLength + (body f.history (f.text payload)).length := by
  have hstamp : (f.uniform.stamp (f.carrier payload)).encodedLength =
    (f.carrier payload).encodedLength := rfl
  rw [issueOrder, UniformBroadcast.encodedLength_toAll, hstamp, encodedLength_carrier]
  omega

/-- **A payload fits into a datagram exactly if it is no longer than `maxPayload`**, whatever the
history of the member is. -/
theorem encodedLength_issueOrder_le_iff (f : FifoBroadcast) (payload : Bytes) :
    (f.issueOrder payload).message.encodedLength ≤ Message.maxDatagramLength ↔
      payload.length ≤ maxPayload := by
  have htext : (f.text payload).encodedLength = Message.headerLength + payload.length := rfl
  have hpayload : (f.text payload).payload = payload := rfl
  have hupper := length_body_le f.history (f.text payload)
  have hlower := le_length_body f.history (f.text payload)
  rw [htext] at hupper hlower
  rw [hpayload] at hupper
  rw [encodedLength_issueOrder]
  simp only [maxPayload, History.budget, Message.maxDatagramLength, Message.headerLength]
    at hupper hlower ⊢
  omega

end FifoBroadcast

namespace System

open FifoBroadcast (maxPayload request)

variable {hosts : Hosts} {tuning : HostId → Tuning} {watches : HostId → Bool}
  {s : System (Node FifoBroadcast)} {c : Cause (Node FifoBroadcast)} {p x : HostId} {now : Nat}

/-- No payload that has been broadcast is longer than what is sure to fit. -/
def Modest (s : System (Node FifoBroadcast)) : Prop :=
  ∀ p, ∀ issue ∈ s.issued p, issue.2.length ≤ maxPayload

theorem Modest.of_step (h : (s.step x c now).Modest) : s.Modest := by
  intro p issue hissue
  refine h p issue ?_
  rw [issued_step]
  exact List.mem_append_left _ hissue

/-- What a member orders fits, if the payloads fit and all that is on the wire does. -/
theorem encodedLength_orders_le (hlawful : hosts.Lawful)
    (h : s.Reachable hosts fun id => .fresh FifoBroadcast.ofHosts hosts (tuning id) (watches id) id)
    (hc : s.Permits hosts x c) (hmodest : (s.step x c now).Modest)
    (hwire : ∀ f ∈ s.wire, f.datagram.bytes.length ≤ Message.maxDatagramLength) :
    ∀ o ∈ ((s.members x).stimulus c).orders (s.members x).protocol,
      o.message.encodedLength ≤ Message.maxDatagramLength := by
  intro o ho
  cases hstimulus : (s.members x).stimulus c with
  | none | stop | timeout =>
    rw [hstimulus] at ho
    cases ho
  | command payload =>
    rw [hstimulus] at ho
    have heq : o = (s.members x).protocol.issueOrder payload := List.mem_singleton.mp ho
    rw [heq, FifoBroadcast.encodedLength_issueOrder_le_iff]
    refine hmodest x (((s.members x).protocol.broadcast payload now).result, payload) ?_
    rw [issued_step, if_pos rfl, hstimulus]
    exact List.mem_append_right _ (List.mem_singleton.mpr rfl)
  | message m =>
    rw [hstimulus] at ho
    obtain ⟨-, g, -, hmem⟩ := carries_of_stimulus hlawful h hc hstimulus
    have hlength := hwire _ hmem
    rw [Message.length_encode] at hlength
    rw [Relaying.encodedLength_of_mem_messageOrders ho]
    exact hlength

/-- At all times nothing waits or is on the wire that does not fit. -/
theorem short_of_reachable (hlawful : hosts.Lawful)
    (h : s.Reachable hosts fun id => .fresh FifoBroadcast.ofHosts hosts (tuning id) (watches id) id)
    (hmodest : s.Modest) :
    (∀ p, (s.members p).Short Message.maxDatagramLength) ∧
      ∀ f ∈ s.wire, f.datagram.bytes.length ≤ Message.maxDatagramLength := by
  induction h with
  | initial => exact ⟨fun p => Node.short_fresh hosts (tuning p) (watches p) p, nofun⟩
  | @step s x c now h hc ih =>
    obtain ⟨hmembers, hwire⟩ := ih hmodest.of_step
    have horders := encodedLength_orders_le hlawful h hc hmodest hwire
    have hack : Message.ackLength ≤ Message.maxDatagramLength := by decide
    obtain ⟨hstate, hsent⟩ := Node.short_effect hack (hmembers x) c now horders
    constructor
    · intro p
      by_cases hp : p = x
      · subst hp
        rw [step_members_self]
        exact hstate
      · rw [step_members_of_ne hp]
        exact hmembers p
    · intro f hf
      rcases List.mem_append.mp hf with hold | hnew
      · exact hwire f hold
      · obtain ⟨d, hd, rfl⟩ := List.mem_map.mp hnew
        exact hsent d hd

/-- A broadcast sends every member its envelope. -/
theorem exists_sent_command (hlawful : hosts.Lawful)
    (h : s.Reachable hosts fun id => .fresh FifoBroadcast.ofHosts hosts (tuning id) (watches id) id)
    {q : HostId} {g : Host} (hq : hosts.get? q = some g) (payload : Bytes) (now : Nat) :
    ∃ bytes, ⟨g.address, bytes⟩ ∈ ((request payload).effect (s.members p) now).2 ∧
      bytes.length = ((s.members p).protocol.issueOrder payload).message.encodedLength := by
  have hfits := fits_nodes hlawful h p
  obtain ⟨l, hl⟩ := hfits.exists_link (Hosts.contains_of_get? hq)
  have hpeer : l.link.peer = g := by
    have hmap := hfits.map_peer q
    rw [hl, hq] at hmap
    exact Option.some.inj hmap
  have hmirrors := Node.mirrors_command (tidy_of_reachable hlawful h p) payload now
  let m := l.link.stamp ((s.members p).protocol.issueOrder payload).message
  have hsent : (⟨g.address, m.encode⟩ : Datagram) ∈
      ((s.linksAt p).perform ((s.members p).protocol.issueOrder payload) now).2 := by
    rw [(Links.moved_perform _ now).mem_sent]
    refine ⟨q, l, hl, ?_⟩
    rw [← hpeer]
    exact List.mem_singleton.mpr rfl
  refine ⟨m.encode, ?_, Message.length_encode m⟩
  refine (hmirrors.mem_iff g.address m rfl).mpr ?_
  rw [FifoBroadcast.commandOrders_eq, Links.performAll_singleton]
  exact hsent

/-- **Broadcasts in order fit into datagrams.**  In every run of a group whose nodes broadcast in
order, however long it is and whatever histories have been gathered:

* if no payload is longer than `maxPayload`, then no datagram that was ever emitted is longer than a
  datagram can be, be it a first copy, a relayed one, a later copy or an acknowledgement;
* a broadcast of a longer payload sends every member a datagram that is too long. -/
theorem datagrams_fit {hs : List Host} (hhosts : Hosts.ofList hs = .ok hosts)
    (h : s.Reachable hosts fun id =>
      .fresh FifoBroadcast.ofHosts hosts (tuning id) (watches id) id) :
    (s.Modest → ∀ f ∈ s.wire, f.datagram.bytes.length ≤ Message.maxDatagramLength) ∧
      ∀ (p q : HostId) (g : Host) (payload : Bytes) (now : Nat),
        hosts.get? q = some g → maxPayload < payload.length →
          ∃ bytes, ⟨g.address, bytes⟩ ∈ ((request payload).effect (s.members p) now).2 ∧
            Message.maxDatagramLength < bytes.length := by
  have hlawful := Hosts.lawful_ofList hhosts
  refine ⟨fun hmodest => (short_of_reachable hlawful h hmodest).2, ?_⟩
  intro p q g payload now hq hlong
  obtain ⟨bytes, hmem, hlength⟩ := exists_sent_command (p := p) hlawful h hq payload now
  refine ⟨bytes, hmem, ?_⟩
  have hiff := (s.members p).protocol.encodedLength_issueOrder_le_iff payload
  omega

/-- In the run with a gap all datagrams fit, and at its end the second member could not broadcast a
payload that is longer by a byte than what is sure to fit. -/
theorem datagrams_fit_gapRun : gapRun.Modest ∧
    (∀ f ∈ gapRun.wire, f.datagram.bytes.length ≤ Message.maxDatagramLength) ∧
    ∃ bytes, ⟨Host.first.address, bytes⟩ ∈
        ((request (List.replicate (maxPayload + 1) 0)).effect (gapRun.members 2) 0).2 ∧
      Message.maxDatagramLength < bytes.length := by
  have hmodest : gapRun.Modest := by
    intro p issue hissue
    obtain ⟨o, ho, -, hsome⟩ := exists_of_mem_record hissue
    have hall : ∀ o ∈ gapRun.history,
        ∀ issue ∈ (o.before.stimulus o.cause).issue? o.before.protocol o.now,
          issue.2.length ≤ maxPayload := by
      decide +kernel
    exact hall o ho issue hsome
  have hrun := datagrams_fit Hosts.ofList_pair gapRun_reachable.reachable
  refine ⟨hmodest, hrun.1 hmodest, hrun.2 2 1 .first _ 0 rfl ?_⟩
  rw [List.length_replicate]
  exact Nat.lt_succ_self _

end System

end Groupcast
