import Groupcast.Proofs.Broadcast.Fifo
import Groupcast.Proofs.Broadcast.Integrity

/-!
# Order in a group

In a group whose nodes broadcast in order, what a member has delivered of a host is what that host
has broadcast first, one message after the other (`delivered_in_order`).

A message can reach a member by itself, in the history that some other message carries, or out of
the backlog.  It makes no difference: all that is ever carried, is kept in a history or waits in a
backlog is a message as its host has broadcast it (`Orderly`).  A carrier that a member takes in has
been broadcast by its sender, to the byte, and that sender could only fill it with what it had
broadcast or taken in itself (`Bears`).

The length of a message stands in front of it in a carrier, in a word.  No payload is refused for
being too long for that, but then the carrier is far too long for a datagram, and nobody ever gets
to see it (`exists_bears_of_deliver`).
-/

namespace Groupcast

namespace FifoBroadcast

/-! ## What a carrier holds -/

/-- A carrier holds a message of its sender, and beside it nothing but what has been broadcast. -/
def Bears (texts : HostId → List Message) (carrier m : Message) : Prop :=
  m ∈ texts carrier.sender ∧ m.sender = carrier.sender ∧
    ∃ history : History, history.Of texts ∧ carrier.payload = body history m

variable {texts texts' : HostId → List Message} {carrier m m' : Message} {hosts : Hosts}

theorem Bears.mono (h : Bears texts carrier m) (hgrow : ∀ x, texts x <+: texts' x) :
    Bears texts' carrier m := by
  obtain ⟨hmem, hsender, history, hof, hpayload⟩ := h
  exact ⟨(hgrow _).subset hmem, hsender, history, hof.mono hgrow, hpayload⟩

/-- What a member broadcasts bears the message that stands for its payload. -/
theorem bears_carrier {f : FifoBroadcast} {payload : Bytes} (hof : f.history.Of texts)
    (hmem : f.text payload ∈ texts f.self) :
    Bears texts (f.uniform.stamp (f.carrier payload)) (f.text payload) :=
  ⟨hmem, rfl, f.history, hof, rfl⟩

/-- A message is shorter than what carries it. -/
theorem Bears.encodedLength_lt (h : Bears texts carrier m) :
    m.encodedLength < carrier.encodedLength := by
  obtain ⟨-, -, history, -, hpayload⟩ := h
  have hle := le_length_body history m
  show m.encodedLength < Message.headerLength + carrier.payload.length
  rw [hpayload]
  omega

/-- The message of the carrier is taken in. -/
theorem Bears.mem_offered (h : Bears texts carrier m) (hm : m.encodedLength < UInt32.size) :
    m ∈ offered hosts carrier := by
  obtain ⟨-, hsender, history, -, hpayload⟩ := h
  unfold offered
  rw [hpayload, readBody_body history hm]
  simp only [hsender, if_true]
  exact List.mem_cons_self

/-- All that is taken in has been broadcast. -/
theorem Bears.mem_texts (h : Bears texts carrier m) (hm : m.encodedLength < UInt32.size)
    (hm' : m' ∈ offered hosts carrier) : m' ∈ texts m'.sender := by
  obtain ⟨hmem, hsender, history, hof, hpayload⟩ := h
  unfold offered at hm'
  rw [hpayload, readBody_body history hm] at hm'
  simp only [hsender, if_true] at hm'
  rcases List.mem_cons.mp hm' with rfl | hblocks
  · rw [hsender]
    exact hmem
  · obtain ⟨b, hb, hm'⟩ := List.mem_flatMap.mp hblocks
    unfold offeredIn at hm'
    split at hm'
    · obtain ⟨hm', hhost⟩ := List.mem_filter.mp hm'
      obtain ⟨seq, hseq⟩ := History.mem_of_mem_select hb hm'
      rw [of_decide_eq_true hhost]
      exact (hof b.1 seq m' hseq).1
    · cases hm'

/-- Carriers bear what a host has broadcast, and nothing but such. -/
structure Carried (texts : HostId → List Message) (own carriers : List Message) : Prop where
  exists_text : ∀ carrier ∈ carriers, ∃ m, Bears texts carrier m
  exists_carrier : ∀ m ∈ own, ∃ carrier ∈ carriers, Bears texts carrier m

namespace Carried

variable {own carriers : List Message}

theorem mono (h : Carried texts own carriers) (hgrow : ∀ x, texts x <+: texts' x) :
    Carried texts' own carriers where
  exists_text carrier hcarrier := by
    obtain ⟨m, hm⟩ := h.exists_text carrier hcarrier
    exact ⟨m, hm.mono hgrow⟩
  exists_carrier m hm := by
    obtain ⟨carrier, hcarrier, hbears⟩ := h.exists_carrier m hm
    exact ⟨carrier, hcarrier, hbears.mono hgrow⟩

/-- One more message is broadcast. -/
theorem concat (h : Carried texts own carriers) (hbears : Bears texts carrier m) :
    Carried texts (own ++ [m]) (carriers ++ [carrier]) where
  exists_text := by
    refine List.forall_mem_append.mpr ⟨h.exists_text, fun carrier' hnew => ?_⟩
    rw [List.mem_singleton.mp hnew]
    exact ⟨m, hbears⟩
  exists_carrier := by
    refine List.forall_mem_append.mpr ⟨fun m' hold => ?_, fun m' hnew => ?_⟩
    · obtain ⟨carrier', hcarrier', hm'⟩ := h.exists_carrier m' hold
      exact ⟨carrier', List.mem_append_left _ hcarrier', hm'⟩
    · rw [List.mem_singleton.mp hnew]
      exact ⟨carrier, List.mem_append_right _ (List.mem_singleton_self carrier), hbears⟩

end Carried

/-! ## What a member numbers -/

/-- A member numbers its payloads by one, two, three, and so on, and has links for as many. -/
structure Numbers (f : FifoBroadcast) (issued : List (UInt32 × Bytes)) (budget : Nat) : Prop where
  nextSeq_eq : f.nextSeq = UInt32.ofNat (issued.length + 1)
  length_le : issued.length ≤ budget
  toNat_eq : ∀ (i : Nat) (issue : UInt32 × Bytes), issued[i]? = some issue →
    issue.1.toNat = i + 1

namespace Numbers

variable {f f' : FifoBroadcast} {issued : List (UInt32 × Bytes)} {budget budget' : Nat}

theorem keep (h : f.Numbers issued budget) (hnext : f'.nextSeq = f.nextSeq)
    (hbudget : budget ≤ budget') : f'.Numbers issued budget' where
  nextSeq_eq := hnext.trans h.nextSeq_eq
  length_le := Nat.le_trans h.length_le hbudget
  toNat_eq := h.toNat_eq

/-- One more payload is broadcast. -/
theorem concat (h : f.Numbers issued budget) (hnext : f'.nextSeq = f.nextSeq + 1)
    (hcost : budget < budget') (hwrap : budget' < UInt32.size) (payload : Bytes) :
    f'.Numbers (issued ++ [(f.nextSeq, payload)]) budget' := by
  have hle := h.length_le
  have hnumber : f.nextSeq.toNat = issued.length + 1 := by
    rw [h.nextSeq_eq]
    exact UInt32.toNat_ofNat_of_lt' (by omega)
  refine ⟨?_, ?_, fun i issue hi => ?_⟩
  · rw [hnext, h.nextSeq_eq, List.length_append, List.length_singleton]
    exact (UInt32.ofNat_add _ _).symm
  · rw [List.length_append, List.length_singleton]
    omega
  · rw [List.getElem?_append] at hi
    split at hi
    · exact h.toNat_eq i issue hi
    · rw [List.getElem?_singleton] at hi
      split at hi
      · cases hi
        show f.nextSeq.toNat = i + 1
        omega
      · cases hi

end Numbers

end FifoBroadcast

namespace System

open FifoBroadcast

variable {hosts : Hosts} {tuning : HostId → Tuning} {watches : HostId → Bool}
  {s : System (Node FifoBroadcast)} {c : Cause (Node FifoBroadcast)} {p q x : HostId} {now : Nat}
  {m carrier : Message}

/-- The state of a member's broadcast in order. -/
def fifoAt (s : System (Node FifoBroadcast)) (p : HostId) : FifoBroadcast := (s.members p).protocol

/-- The payloads that a member has broadcast, in order, with the numbers that it was given. -/
def issued (s : System (Node FifoBroadcast)) (p : HostId) : List (UInt32 × Bytes) :=
  s.record p fun o => (o.before.stimulus o.cause).issue? o.before.protocol o.now

/-- The messages that stand for them. -/
def texts (s : System (Node FifoBroadcast)) (p : HostId) : List Message :=
  (s.issued p).map fun issue => .ofData p issue.1 issue.2

/-- The messages that a member has delivered in order. -/
def ordered (s : System (Node FifoBroadcast)) (p : HostId) : List Message :=
  (s.record p fun o =>
    some ((o.before.stimulus o.cause).ordered o.before.protocol o.now)).flatten

theorem issued_step (x : HostId) (c : Cause (Node FifoBroadcast)) (now : Nat) (p : HostId) :
    (s.step x c now).issued p = s.issued p ++
      if x = p then (((s.members x).stimulus c).issue? (s.fifoAt x) now).toList else [] :=
  record_step

theorem ordered_step (x : HostId) (c : Cause (Node FifoBroadcast)) (now : Nat) (p : HostId) :
    (s.step x c now).ordered p = s.ordered p ++
      if x = p then ((s.members x).stimulus c).ordered (s.fifoAt x) now else [] := by
  unfold ordered
  rw [record_step, List.flatten_append]
  split <;> simp [fifoAt]

theorem broadcasts_step (x : HostId) (c : Cause (Node FifoBroadcast)) (now : Nat) (p : HostId) :
    (s.step x c now).broadcasts p = s.broadcasts p ++
      if x = p then (((s.members x).stimulus c).broadcast? (s.fifoAt x)).toList else [] :=
  record_step

theorem texts_prefix_step (x : HostId) (c : Cause (Node FifoBroadcast)) (now : Nat) (p : HostId) :
    s.texts p <+: (s.step x c now).texts p := by
  unfold texts
  rw [issued_step]
  exact (List.prefix_append _ _).map _

theorem fifoAt_step_of_ne (hp : p ≠ x) : (s.step x c now).fifoAt p = s.fifoAt p :=
  congrArg Node.protocol (step_members_of_ne hp)

theorem ordered_step_of_ne (hp : p ≠ x) : (s.step x c now).ordered p = s.ordered p := by
  rw [ordered_step, if_neg (Ne.symm hp), List.append_nil]

/-- What a step comes to for the order of messages. -/
theorem course_fifoAt (x : HostId) (c : Cause (Node FifoBroadcast)) (now : Nat) :
    ((s.members x).stimulus c).Course (s.fifoAt x) now ((s.step x c now).fifoAt x) := by
  have hcourse := ((s.members x).stimulus c).course_apply (s.members x).protocol now
  rwa [← step_protocol_self] at hcourse

/-! ## What always holds of a member -/

/-- What a member knows of others they have broadcast, and what it broadcasts itself gets its number
and is carried to the others. -/
structure Orderly (s : System (Node FifoBroadcast)) (p : HostId) : Prop where
  inOrder : (s.fifoAt p).InOrder s.texts (s.ordered p)
  numbers : (s.fifoAt p).Numbers (s.issued p) ((s.linksAt p).sentCountTo p)
  carried : Carried s.texts (s.texts p) (s.broadcasts p)

theorem numbered_texts (h : ∀ p, s.Orderly p) : Numbered s.texts := by
  intro p i m hm
  unfold texts at hm
  rw [List.getElem?_map] at hm
  obtain ⟨issue, hissue, rfl⟩ := Option.map_eq_some_iff.mp hm
  exact ⟨rfl, (h p).numbers.toNat_eq i issue hissue⟩

/-- Others do a step. -/
theorem Orderly.keep (h : s.Orderly p) (hp : p ≠ x)
    (hbudget : (s.linksAt p).sentCountTo p ≤ ((s.step x c now).linksAt p).sentCountTo p) :
    (s.step x c now).Orderly p := by
  have hgrow := texts_prefix_step (s := s) x c now
  have hissued : (s.step x c now).issued p = s.issued p := by
    rw [issued_step, if_neg (Ne.symm hp), List.append_nil]
  refine ⟨?_, ?_, ?_⟩
  · rw [fifoAt_step_of_ne hp, ordered_step_of_ne hp]
    exact h.inOrder.mono hgrow
  · rw [hissued]
    exact h.numbers.keep (congrArg FifoBroadcast.nextSeq (fifoAt_step_of_ne hp)) hbudget
  · have htexts : (s.step x c now).texts p = s.texts p := by rw [texts, hissued, texts]
    rw [htexts, broadcasts_step, if_neg (Ne.symm hp), List.append_nil]
    exact h.carried.mono hgrow

section

variable (hlawful : hosts.Lawful)
  (h : s.Reachable hosts fun id => .fresh Relaying.ofHosts hosts (tuning id) (watches id) id)

include hlawful h

/-- The member broadcasts a payload. -/
theorem Orderly.issue {payload : Bytes} (hall : ∀ p, s.Orderly p) (hc : s.Permits hosts x c)
    (hwrap : ((s.step x c now).linksAt x).Unwrapped)
    (hissue : ((s.members x).stimulus c).issue? (s.fifoAt x) now =
      some ((s.fifoAt x).nextSeq, payload))
    (hbroadcast : ((s.members x).stimulus c).broadcast? (s.fifoAt x) =
      some ((s.fifoAt x).uniform.stamp ((s.fifoAt x).carrier payload)))
    (hordered : ((s.members x).stimulus c).ordered (s.fifoAt x) now = [])
    (hstate : (s.step x c now).fifoAt x = { s.fifoAt x with
      uniform := ((s.step x c now).fifoAt x).uniform
      nextSeq := (s.fifoAt x).nextSeq + 1
      history := (s.fifoAt x).history.add (s.fifoAt x).self (s.fifoAt x).nextSeq
        ((s.fifoAt x).text payload) }) :
    (s.step x c now).Orderly x := by
  have hself : (s.fifoAt x).self = x := self_uniformAt hlawful h x
  have hgrow := texts_prefix_step (s := s) x c now
  have hissued : (s.step x c now).issued x = s.issued x ++ [((s.fifoAt x).nextSeq, payload)] := by
    rw [issued_step, if_pos rfl, hissue, Option.toList_some]
  have htexts : (s.step x c now).texts x = s.texts x ++ [(s.fifoAt x).text payload] := by
    rw [texts, hissued, List.map_append, FifoBroadcast.text, hself]
    rfl
  have hmem : (s.fifoAt x).text payload ∈ (s.step x c now).texts x := by
    rw [htexts]
    exact List.mem_append_right _ (List.mem_singleton_self _)
  refine ⟨?_, ?_, ?_⟩
  · rw [hstate, ordered_step, if_pos rfl, hordered, List.append_nil, hself]
    exact ((hall x).inOrder.mono hgrow).issue hmem rfl _ _
  · -- Its links are given one more message each, and so there is a number for it.
    have hcost : (s.linksAt x).sentCountTo x < ((s.step x c now).linksAt x).sentCountTo x :=
      sentCountTo_lt_step hlawful h hc hc.contains
        ((turn_uniformAt x c now).broadcast_eq hbroadcast).2 rfl
    rw [hissued]
    exact (hall x).numbers.concat (congrArg FifoBroadcast.nextSeq hstate) hcost
      (hwrap.sentCountTo_lt x) payload
  · rw [htexts, broadcasts_step, if_pos rfl, hbroadcast, Option.toList_some]
    refine ((hall x).carried.mono hgrow).concat (bears_carrier ?_ ?_)
    · exact (hall x).inOrder.history.mono hgrow
    · rw [hself]
      exact hmem

/-- What the broadcast of a member delivers bears a message that can be read back. -/
theorem exists_bears_of_deliver (hall : ∀ p, s.Orderly p)
    (hwrap : ∀ id, (s.linksAt id).Unwrapped) (hc : s.Permits hosts x c) (hfits : c.FitsUdp)
    (hcarrier : ((s.members x).stimulus c).deliver? (s.fifoAt x) now = some carrier) :
    ∃ m, Bears s.texts carrier m ∧ m.encodedLength < UInt32.size := by
  obtain ⟨holder, hhears⟩ := exists_hears_of_deliver hlawful h hwrap hc hcarrier
  have hknown := known_of_relays hlawful h hwrap (relays_of_hears hlawful h hc hhears)
  obtain ⟨m, hbears⟩ := (hall carrier.sender).carried.exists_text carrier hknown
  have hlength := encodedLength_lt_of_hears hlawful h hc hfits hhears
  exact ⟨m, hbears, (hbears.encodedLength_lt.trans hlength).trans (by decide)⟩

/-- All that a member takes in has been broadcast. -/
theorem mem_texts_of_offered (hall : ∀ p, s.Orderly p) (hwrap : ∀ id, (s.linksAt id).Unwrapped)
    (hc : s.Permits hosts x c) (hfits : c.FitsUdp) {hosts' : Hosts}
    (hm : m ∈ (((s.members x).stimulus c).deliver? (s.fifoAt x) now).toList.flatMap
      (offered hosts')) : m ∈ s.texts m.sender := by
  obtain ⟨carrier, hcarrier, hm⟩ := List.mem_flatMap.mp hm
  obtain ⟨m₀, hbears, hlength⟩ := exists_bears_of_deliver hlawful h hall hwrap hc hfits
    (Option.mem_toList.mp hcarrier)
  exact hbears.mem_texts hlength hm

/-- The member takes in what its broadcast delivers, if there is anything. -/
theorem Orderly.intake (hall : ∀ p, s.Orderly p) (hc : s.Permits hosts x c) (hfits : c.FitsUdp)
    (hwrap : ∀ id, ((s.step x c now).linksAt id).Unwrapped)
    (hissue : ((s.members x).stimulus c).issue? (s.fifoAt x) now = none)
    (hbroadcast : ((s.members x).stimulus c).broadcast? (s.fifoAt x) = none)
    (hintake : Intake { s.fifoAt x with uniform := ((s.step x c now).fifoAt x).uniform }
      ((((s.members x).stimulus c).deliver? (s.fifoAt x) now).toList.flatMap
        (offered ((s.step x c now).fifoAt x).uniform.group.hosts))
      (((s.members x).stimulus c).ordered (s.fifoAt x) now) ((s.step x c now).fifoAt x)) :
    (s.step x c now).Orderly x := by
  have hissued : ∀ p, (s.step x c now).issued p = s.issued p := by
    intro p
    rw [issued_step, hissue]
    simp
  have htexts : (s.step x c now).texts = s.texts := by
    funext p
    rw [texts, hissued, texts]
  refine ⟨?_, ?_, ?_⟩
  · rw [htexts, ordered_step, if_pos rfl]
    refine ((hall x).inOrder.of_uniform _).intake (numbered_texts hall) hintake fun m hm => ?_
    have hwrap₀ := unwrapped_nodes_of_step hlawful h hc hwrap
    exact mem_texts_of_offered hlawful h hall hwrap₀ hc hfits hm
  · rw [hissued]
    exact (hall x).numbers.keep hintake.rest_eq.2 (sentCountTo_le_step hlawful h hc)
  · rw [htexts, broadcasts_step, if_pos rfl, hbroadcast, Option.toList_none, List.append_nil]
    exact (hall x).carried

end

/-- **Every member is orderly at all times.** -/
theorem orderly_over_udp (hlawful : hosts.Lawful)
    (h : s.ReachableOverUdp hosts fun id =>
      .fresh Relaying.ofHosts hosts (tuning id) (watches id) id)
    (hwrap : ∀ id, (s.linksAt id).Unwrapped) (p : HostId) : s.Orderly p := by
  induction h generalizing p with
  | initial =>
    exact ⟨InOrder.ofHosts p hosts (tuning p), ⟨rfl, Nat.zero_le _, nofun⟩, ⟨nofun, nofun⟩⟩
  | @step s x c now h hc hfits ih =>
    have hall := ih (unwrapped_nodes_of_step hlawful h.reachable hc hwrap)
    by_cases hp : p = x
    · subst hp
      cases course_fifoAt (s := s) p c now with
      | issue hissue hbroadcast _ hordered hstate =>
        exact Orderly.issue hlawful h.reachable hall hc (hwrap p) hissue hbroadcast hordered hstate
      | intake hissue hbroadcast hintake =>
        exact Orderly.intake hlawful h.reachable hall hc hfits hwrap hissue hbroadcast hintake
    · exact (hall p).keep hp (sentCountTo_le_step hlawful h.reachable hc)

/-- **Messages are delivered in the order in which their host has broadcast them.**  In every run of
a group over UDP whose nodes broadcast in order, where no link is given so many messages that its
ids wrap, and whatever payloads are broadcast:

* the payloads that a host broadcasts get the numbers one, two, three, and so on;
* what a member has delivered of a host are the first of these numbers with their payloads, each
  once and one after the other. -/
theorem delivered_in_order {hs : List Host} (hhosts : Hosts.ofList hs = .ok hosts)
    (h : s.ReachableOverUdp hosts fun id =>
      .fresh FifoBroadcast.ofHosts hosts (tuning id) (watches id) id)
    (hwrap : ∀ id, (s.linksAt id).Unwrapped) (p x : HostId) :
    ((s.issued x).map fun issue => issue.1.toNat) = List.range' 1 (s.issued x).length ∧
      ((ofSender (s.ordered p) x).map fun m => (m.seq, m.payload)) <+: s.issued x := by
  have hall := orderly_over_udp (Hosts.lawful_ofList hhosts) h hwrap
  constructor
  · refine List.ext_getElem (by simp) fun i hi _ => ?_
    rw [List.length_map] at hi
    have hnumber := (hall x).numbers.toNat_eq i _ (List.getElem?_eq_getElem hi)
    rw [List.getElem_map, List.getElem_range', hnumber]
    omega
  · have hprefix := ((hall p).inOrder.starts x).map fun m => (m.seq, m.payload)
    have htexts : ((s.texts x).map fun m => (m.seq, m.payload)) = s.issued x := by
      rw [texts, List.map_map]
      exact List.map_id _
    rwa [htexts] at hprefix

/-! ## A gap that is filled from a history -/

/-- The first message of the first host. -/
def firstText : Message := .ofData 1 1 [97]

/-- Its second one. -/
def secondText : Message := .ofData 1 2 [98]

/-- What carries the first message. -/
def firstCarrier : Message := { Message.ofData 1 1 (body ∅ firstText) with id := 1 }

/-- What carries the second message, with the first one in its history. -/
def secondCarrier : Message :=
  { Message.ofData 1 2 (body (History.add ∅ 1 1 firstText) secondText) with id := 2 }

/-- The envelope in which a member relays a carrier to another one. -/
def carrierEnvelope (p q : HostId) (id : UInt32) (carrier : Message) : Message :=
  { Message.ofData p carrier.seq carrier.encode with id := id, receiver := q }

/-- The first of two members broadcasts two messages.  The second one gets to see what carries the
second message, and not what carries the first. -/
def gapRun : System (Node FifoBroadcast) :=
  let s := System.initial fun id => Node.fresh FifoBroadcast.ofHosts .pair {} false id
  let s := s.step 1 (.input (.command ([97] : Bytes))) 0
  let s := s.step 1 (.input (.command ([98] : Bytes))) 0
  let s := s.step 2 (.arrival .first (carrierEnvelope 1 2 2 secondCarrier).encode) 0
  s.step 2 (.arrival .second (carrierEnvelope 2 2 1 secondCarrier).encode) 0

theorem gapRun_reachable : gapRun.ReachableOverUdp .pair fun id =>
    .fresh FifoBroadcast.ofHosts .pair {} false id := by
  refine .arrival (.arrival (.input (.input .initial 0 _ rfl) 0 _ rfl) 0 rfl ⟨.second, rfl, ?_⟩ ?_)
    0 rfl ⟨.second, rfl, ?_⟩ ?_
  all_goals decide +kernel

/-- The second member has delivered both messages, in order. -/
theorem delivered_in_order_gapRun : (∀ id, (gapRun.linksAt id).Unwrapped) ∧
    gapRun.ordered 2 = [firstText, secondText] ∧
    ((ofSender (gapRun.ordered 2) 1).map fun m => (m.seq, m.payload)) <+: gapRun.issued 1 := by
  have hwrap := unwrapped_nodes_of_linkSteps_lt (Hosts.lawful_ofList Hosts.ofList_pair)
    gapRun_reachable.reachable (by decide +kernel)
  exact ⟨hwrap, by decide +kernel,
    (delivered_in_order Hosts.ofList_pair gapRun_reachable hwrap 2 1).2⟩

end System

end Groupcast
