import Groupcast.Proofs.Broadcast.Agreement

/-!
# What is delivered has been broadcast, and is held by a majority

What the broadcast of a member delivers is what some member has once passed to its own broadcast,
under the label that it got for it, and it is delivered for the first time.  A majority has by then
relayed it to everyone, unchanged to the byte (`integrity_of_deliver`).

All of this is in the account of the member that delivers.  That account speaks of what others have
relayed to this one member; what they have relayed to all is in their own accounts
(`relays_to_all`).
-/

namespace Groupcast

open Relaying (uniform draft)

variable {π : Type} [Protocol π] [Relaying π]

/-- What a member passes to its broadcast in a step, and the label that it gets for it. -/
def Occurrence.call? (o : Occurrence (Node π)) : Option (Message × Label) :=
  match o.cause with
  | .input (.command c) =>
    let m := draft o.before.protocol c
    some (m, ((uniform o.before.protocol).broadcast m o.now).result)
  | _ => none

namespace System

variable {hosts : Hosts} {tuning : HostId → Tuning} {watches : HostId → Bool}
  {s : System (Node π)} {c : Cause (Node π)} {p q : HostId} {now : Nat} {m : Message}

/-- What is broadcast is what has been passed to the broadcast, apart from what the label names. -/
theorem exists_call_of_mem_broadcasts (hm : m ∈ s.broadcasts p) :
    ∃ o ∈ s.history, o.member = p ∧ ∃ m₀ : Message, o.call? = some (m₀, .ofMessage m) ∧
      m.seq = m₀.seq ∧ m.payload = m₀.payload := by
  obtain ⟨o, ho, hp, hbroadcast⟩ := exists_of_mem_record hm
  refine ⟨o, ho, hp, ?_⟩
  unfold Occurrence.call?
  cases hcause : o.cause with
  | arrival source bytes =>
    rw [hcause] at hbroadcast
    simp only [Node.stimulus] at hbroadcast
    split at hbroadcast
    · cases hbroadcast
    · split at hbroadcast <;> cases hbroadcast
  | input i =>
    rw [hcause] at hbroadcast
    cases i with
    | start | stop | timeout => cases hbroadcast
    | command c =>
      cases hbroadcast
      exact ⟨draft o.before.protocol c, rfl, rfl, rfl⟩

section

variable (hlawful : hosts.Lawful)
  (h : s.Reachable hosts fun id => .fresh Relaying.ofHosts hosts (tuning id) (watches id) id)
  (hwrap : ∀ id, (s.linksAt id).Unwrapped)

include hlawful h hwrap

/-- What a member has relayed to another one, it has relayed to all. -/
theorem relays_to_all (hm : s.Relays hosts p q m) {a : HostId} (ha : hosts.contains a = true) :
    s.Relays hosts p a m := by
  have haccounts := account_of_reachable hlawful h hwrap
  have hforwarded := (haccounts p).forwards.of_relayed q m hm
  obtain ⟨m', hlabel, hall⟩ := (haccounts p).forwards.exists_relayed _ hforwarded
  rw [hosts_uniformAt h p] at hall
  have hrelayed := hall a ha
  rwa [eq_of_label_eq haccounts (known_of_relays hlawful h hwrap hrelayed)
    (known_of_relays hlawful h hwrap hm) hlabel] at hrelayed

/-- The account of a member that delivers a message, before it knows of its own doings in the same
step. -/
theorem delivers_of_permits (hc : s.Permits hosts p c) (now : Nat) :
    ((s.step p c now).uniformAt p).Delivers
      (s.deliveries p ++
        (((s.members p).stimulus c).deliver? (s.members p).protocol now).toList)
      s.Known fun a m => s.Relays hosts a p m := by
  have haccounts := account_of_reachable hlawful h hwrap
  have hquorum : ((s.step p c now).uniformAt p).group.quorum = (s.uniformAt p).group.quorum := by
    unfold BestEffort.quorum
    rw [hosts_uniformAt (.step now h hc) p, hosts_uniformAt h p]
  refine (haccounts p).delivers.turn (turn_uniformAt p c now) (haccounts p).waits hquorum
    (fun _ hknown => hknown) (fun _ _ hheld => hheld) (fun a m hhears => ?_)
    (fun _ _ hm hm' heq _ ha => eq_of_label_eq haccounts hm hm' heq ▸ ha)
  have hrelayed := relays_of_hears hlawful h hc hhears
  exact ⟨hrelayed, known_of_relays hlawful h hwrap hrelayed⟩

/-- What the broadcast of a member delivers is what it has just heard of, to the byte. -/
theorem exists_hears_of_deliver (hc : s.Permits hosts p c)
    (hm : ((s.members p).stimulus c).deliver? (s.members p).protocol now = some m) :
    ∃ holder, ((s.members p).stimulus c).Hears (s.members p).protocol holder m := by
  have haccounts := account_of_reachable hlawful h hwrap
  cases turn_uniformAt (s := s) p c now with
  | rest _ _ _ _ _ _ hnone => cases hnone.symm.trans hm
  | broadcast _ _ _ _ _ _ _ _ hnone => cases hnone.symm.trans hm
  | hold _ _ _ _ _ _ hnone => cases hnone.symm.trans hm
  | @deliver holder m' hhears _ _ _ _ _ hsome =>
    have heq : ((s.uniformAt p).held m' holder).message = m :=
      Option.some.inj (hsome.symm.trans hm)
    refine ⟨holder, ?_⟩
    -- What was kept of the message earlier is known under the same label, and so is the same.
    rcases (s.uniformAt p).message_held m' holder with hnew | ⟨w, hw, hold⟩
    · rw [← heq, hnew]
      exact hhears
    · have hwaits := (haccounts p).waits _ w hw
      have hknown := known_of_relays hlawful h hwrap (relays_of_hears hlawful h hc hhears)
      rw [← heq, hold, eq_of_label_eq haccounts hwaits.known hknown hwaits.label_eq]
      exact hhears

end

/-! ## Over UDP -/

section

variable (hlawful : hosts.Lawful)

include hlawful

/-- What a member hears of has come in a datagram, and so it is short. -/
theorem encodedLength_lt_of_hears
    (h : s.Reachable hosts fun id => .fresh Relaying.ofHosts hosts (tuning id) (watches id) id)
    (hc : s.Permits hosts p c) (hfits : c.FitsUdp)
    (hhears : ((s.members p).stimulus c).Hears (s.members p).protocol q m) :
    m.encodedLength < UInt16.size := by
  obtain ⟨envelope, hstimulus, -, hheard⟩ := hhears
  obtain ⟨-, source, rfl, -⟩ :=
    Node.stimulus_eq_message (tidy_of_reachable hlawful h p) hlawful hc.get?_source hstimulus
  have hdecode := (BestEffort.heard_eq_some.mp hheard).2
  have hpayload : envelope.payload.length = m.encodedLength := by
    rw [Message.decode_eq_ok_iff.mp hdecode, Message.length_encode]
  have hlength : envelope.encode.length < UInt16.size := hfits
  rw [Message.length_encode, Message.encodedLength, hpayload] at hlength
  omega

/-- What the broadcast of a member has delivered is short. -/
theorem encodedLength_lt_of_mem_deliveries
    (h : s.ReachableOverUdp hosts fun id =>
      .fresh Relaying.ofHosts hosts (tuning id) (watches id) id)
    (hwrap : ∀ id, (s.linksAt id).Unwrapped) (hm : m ∈ s.deliveries p) :
    m.encodedLength < UInt16.size := by
  induction h with
  | initial => cases hm
  | @step s x c now h hc hfits ih =>
    have hwrap₀ := unwrapped_nodes_of_step hlawful h.reachable hc hwrap
    rcases mem_record_step.mp hm with hold | ⟨rfl, hnew⟩
    · exact ih hwrap₀ hold
    · obtain ⟨holder, hhears⟩ := exists_hears_of_deliver hlawful h.reachable hwrap₀ hc hnew
      exact encodedLength_lt_of_hears hlawful h.reachable hc hfits hhears

end

/-- **Uniform broadcast delivers what has been broadcast, once, and only what a majority holds.**
In every run of a group whose protocols sit on uniform broadcasts, where no link is given so many
messages that its ids wrap, whenever the broadcast of a member delivers a message:

* the sender of the message is a member that has passed its sequence number and its payload to its
  own broadcast, and has got for that the label of the message;
* the member has delivered nothing under that label before;
* a majority of distinct members has already sent envelopes to all members that hold the encoding of
  the message. -/
theorem integrity_of_deliver {hs : List Host} (hhosts : Hosts.ofList hs = .ok hosts)
    (h : s.Reachable hosts fun id => .fresh Relaying.ofHosts hosts (tuning id) (watches id) id)
    (hwrap : ∀ id, (s.linksAt id).Unwrapped) (hc : s.Permits hosts p c)
    (hm : ((s.members p).stimulus c).deliver? (s.members p).protocol now = some m) :
    (hosts.contains m.sender = true ∧ ∃ o ∈ s.history, o.member = m.sender ∧
      ∃ m₀ : Message, o.call? = some (m₀, .ofMessage m) ∧ m.seq = m₀.seq ∧
        m.payload = m₀.payload) ∧
    (∀ m' ∈ s.deliveries p, Label.ofMessage m' ≠ .ofMessage m) ∧
    ∃ A : List HostId, A.Nodup ∧ hosts.size / 2 + 1 ≤ A.length ∧ ∀ a ∈ A,
      hosts.contains a = true ∧ ∀ q, hosts.contains q = true → s.Relays hosts a q m := by
  have hlawful := Hosts.lawful_ofList hhosts
  have hdelivers := delivers_of_permits hlawful h hwrap hc now
  rw [hm, Option.toList_some] at hdelivers
  have hlast : m ∈ s.deliveries p ++ [m] := List.mem_append_right _ (List.mem_singleton_self m)
  refine ⟨?_, ?_, ?_⟩
  · obtain ⟨o, ho, hmember, hcall⟩ := exists_call_of_mem_broadcasts (hdelivers.known m hlast)
    exact ⟨hmember ▸ h.contains_of_mem_history ho, o, ho, hmember, hcall⟩
  · intro m' hm' heq
    have hnodup := hdelivers.nodup_label
    rw [List.map_append, List.nodup_append] at hnodup
    exact hnodup.2.2 _ (List.mem_map_of_mem hm') _ (List.mem_singleton_self _) heq
  · obtain ⟨A, hnodup, hlength, hA⟩ := hdelivers.exists_holders m hlast
    rw [BestEffort.quorum, hosts_uniformAt (.step now h hc) p] at hlength
    refine ⟨A, hnodup, hlength, fun a ha => ⟨?_, fun q hq => ?_⟩⟩
    · obtain ⟨_, ⟨-, hcarries⟩, -⟩ := hA a ha
      exact h.contains_of_carries hcarries
    · exact relays_to_all hlawful h hwrap (hA a ha) hq

/-! ## A message that comes by way of others -/

/-- The first of three members broadcasts the note, the second relays it, and the third relays what
the second has sent to it. -/
def relayedNote : System (Node UniformBroadcast) :=
  let s := System.initial fun id => Node.fresh UniformBroadcast.ofHosts .trio {} false id
  let s := s.step 1 (.input (.command ([72, 105] : Bytes))) 0
  let s := s.step 2 (.arrival .first (noteEnvelope 1 2).encode) 0
  s.step 3 (.arrival .second (noteEnvelope 2 3).encode) 0

theorem relayedNote_reachable : relayedNote.Reachable .trio fun id =>
    .fresh UniformBroadcast.ofHosts .trio {} false id := by
  refine .step _ (.step _ (.step _ .initial ?_) ?_) ?_
  · show Hosts.trio.contains 1 = true
    rfl
  · exact ⟨rfl, .second, rfl, by decide +kernel⟩
  · exact ⟨rfl, .third, rfl, by decide +kernel⟩

/-- The third member hears from itself. -/
def ownEnvelope : Cause (Node UniformBroadcast) := .arrival .third (noteEnvelope 3 3).encode

/-- Then it delivers the note.  It has not heard of the first member, and yet two of three members
hold what that one has broadcast. -/
theorem integrity_of_deliver_relayedNote : (∀ id, (relayedNote.linksAt id).Unwrapped) ∧
    relayedNote.Permits .trio 3 ownEnvelope ∧
    ((relayedNote.members 3).stimulus ownEnvelope).deliver? (relayedNote.members 3).protocol 0 =
      some note ∧
    ∃ A : List HostId, A.Nodup ∧ 2 ≤ A.length ∧ ∀ a ∈ A, ∀ q, Hosts.trio.contains q = true →
      relayedNote.Relays .trio a q note := by
  have hwrap := unwrapped_nodes_of_linkSteps_lt (Hosts.lawful_ofList Hosts.ofList_trio)
    relayedNote_reachable (by decide +kernel)
  have hc : relayedNote.Permits .trio 3 ownEnvelope := ⟨rfl, .third, rfl, by decide +kernel⟩
  have hm : ((relayedNote.members 3).stimulus ownEnvelope).deliver?
      (relayedNote.members 3).protocol 0 = some note := by
    decide +kernel
  obtain ⟨-, -, A, hnodup, hlength, hA⟩ := integrity_of_deliver Hosts.ofList_trio
    relayedNote_reachable hwrap hc hm
  exact ⟨hwrap, hc, hm, A, hnodup, hlength, fun a ha => (hA a ha).2⟩

end System

end Groupcast
