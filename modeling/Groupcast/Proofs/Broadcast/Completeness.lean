import Groupcast.Proofs.Broadcast.Backlog
import Groupcast.Proofs.Broadcast.Order

/-!
# Completeness at quiescence

Once nothing is in flight between the members that are left, and enough of them are, they have all
delivered in order what any member has delivered, and all that one of them has broadcast
(`ordered_of_settled`).

A member may have delivered a message long before the carrier of that message got through to it,
out of the history in some other carrier.  So it is not message by message that the members agree,
but carrier by carrier: what one of them has delivered in order, it has taken in from carriers that
its broadcast has delivered (`TakenIn`), the broadcasts of all members that are left have delivered
these carriers as well, and then nothing keeps those members from delivering what was in them.
-/

namespace Groupcast.System

open FifoBroadcast

variable {hosts : Hosts} {tuning : HostId → Tuning} {watches : HostId → Bool}
  {s : System (Node FifoBroadcast)} {c : Cause (Node FifoBroadcast)} {p q x a : HostId} {now : Nat}
  {m : Message} {crashed : List HostId}

/-- A member has taken in a message with a carrier that its broadcast has delivered. -/
def TakenIn (hosts : Hosts) (s : System (Node FifoBroadcast)) (p : HostId) (m : Message) : Prop :=
  ∃ carrier ∈ s.deliveries p, m ∈ offered hosts carrier

theorem takenIn_step_iff : (s.step x c now).TakenIn hosts p m ↔ s.TakenIn hosts p m ∨
    x = p ∧ m ∈ (((s.members x).stimulus c).deliver? (s.fifoAt x) now).toList.flatMap
      (offered hosts) := by
  unfold TakenIn deliveries
  simp only [mem_record_step, List.mem_flatMap, Option.mem_toList]
  constructor
  · rintro ⟨carrier, hold | ⟨hx, hnew⟩, hm⟩
    · exact Or.inl ⟨carrier, hold, hm⟩
    · exact Or.inr ⟨hx, carrier, hnew, hm⟩
  · rintro (⟨carrier, hold, hm⟩ | ⟨hx, carrier, hnew, hm⟩)
    · exact ⟨carrier, Or.inl hold, hm⟩
    · exact ⟨carrier, Or.inr ⟨hx, hnew⟩, hm⟩

/-- What a member has taken in it has delivered or keeps until its turn, and there is nothing else
that it has delivered or keeps. -/
structure Attentive (hosts : Hosts) (s : System (Node FifoBroadcast)) (p : HostId) : Prop where
  calm : ∀ x, (s.fifoAt p).Calm x
  took : ∀ m, s.TakenIn hosts p m → (s.fifoAt p).Took m
  waits : (s.fifoAt p).Waits (s.TakenIn hosts p)
  takenIn : ∀ m ∈ s.ordered p, s.TakenIn hosts p m

section

variable (hlawful : hosts.Lawful)
  (h : s.ReachableOverUdp hosts fun id =>
    .fresh Relaying.ofHosts hosts (tuning id) (watches id) id)

include hlawful h

/-- A member does a step. -/
theorem Attentive.step_self (hattentive : s.Attentive hosts x) (hc : s.Permits hosts x c)
    (hfits : c.FitsUdp) (hwrap : ∀ id, (s.linksAt id).Unwrapped) :
    (s.step x c now).Attentive hosts x := by
  have hall := orderly_over_udp hlawful h hwrap
  have hcalm : ∀ y, ((s.step x c now).fifoAt x).Calm y := by
    unfold fifoAt
    rw [step_protocol_self]
    exact calm_apply _ hattentive.calm now
  have hgrow : ∀ m, s.TakenIn hosts x m → (s.step x c now).TakenIn hosts x m :=
    fun m hm => takenIn_step_iff.mpr (Or.inl hm)
  cases course_fifoAt (s := s) x c now with
  | issue _ _ hdeliver hordered hstate =>
    refine ⟨hcalm, fun m hm => ?_, ?_, fun m hm => ?_⟩
    · rw [takenIn_step_iff, hdeliver] at hm
      rw [hstate]
      exact hattentive.took m (hm.resolve_right fun h => List.not_mem_nil h.2)
    · rw [hstate]
      exact fun y k m hm => hgrow m (hattentive.waits y k m hm)
    · rw [ordered_step, if_pos rfl, hordered, List.append_nil] at hm
      exact hgrow m (hattentive.takenIn m hm)
  | intake _ _ hintake =>
    have hhosts : ((s.step x c now).fifoAt x).uniform.group.hosts = hosts :=
      hosts_uniformAt (.step now h.reachable hc) x
    rw [hhosts] at hintake
    have hms : ∀ m ∈ (((s.members x).stimulus c).deliver? (s.fifoAt x) now).toList.flatMap
        (offered hosts), (s.step x c now).TakenIn hosts x m :=
      fun m hm => takenIn_step_iff.mpr (Or.inr ⟨rfl, hm⟩)
    obtain ⟨hwaits, hout⟩ := hintake.stems
      (fun y k m hm => hgrow m (hattentive.waits y k m hm)) hms
    refine ⟨hcalm, fun m hm => ?_, hwaits, fun m hm => ?_⟩
    · refine ((hall x).inOrder.of_uniform _).took_intake (numbered_texts hall) hintake
        (fun m hm => mem_texts_of_offered hlawful h.reachable hall hwrap hc hfits hm) ?_
      exact (takenIn_step_iff.mp hm).imp (hattentive.took m) And.right
    · rw [ordered_step, if_pos rfl] at hm
      rcases List.mem_append.mp hm with hold | hnew
      · exact hgrow m (hattentive.takenIn m hold)
      · exact hout m hnew

/-- **Every member is attentive at all times.** -/
theorem attentive_over_udp (hwrap : ∀ id, (s.linksAt id).Unwrapped) (p : HostId) :
    s.Attentive hosts p := by
  induction h generalizing p with
  | initial =>
    refine ⟨calm_ofHosts p hosts (tuning p), ?_, fun x k m hm => ?_, nofun⟩
    · rintro m ⟨carrier, hcarrier, -⟩
      cases hcarrier
    · change ((History.messages ∅ x))[k]? = some m at hm
      rw [History.messages_empty, Std.ExtTreeMap.getElem?_empty] at hm
      cases hm
  | @step s x c now h hc hfits ih =>
    have hwrap₀ := unwrapped_nodes_of_step hlawful h.reachable hc hwrap
    have hattentive := ih hwrap₀ p
    by_cases hp : p = x
    · subst hp
      exact hattentive.step_self hlawful h hc hfits hwrap₀
    · have hfifo : (s.step x c now).fifoAt p = s.fifoAt p := fifoAt_step_of_ne hp
      have htaken : (s.step x c now).TakenIn hosts p = s.TakenIn hosts p := by
        funext m
        exact propext (takenIn_step_iff.trans (or_iff_left fun h => hp h.1.symm))
      have hordered : (s.step x c now).ordered p = s.ordered p := ordered_step_of_ne hp
      constructor
      · exact hfifo ▸ hattentive.calm
      · exact hfifo ▸ htaken ▸ hattentive.took
      · exact hfifo ▸ htaken ▸ hattentive.waits
      · exact hordered ▸ htaken ▸ hattentive.takenIn

variable (hwrap : ∀ id, (s.linksAt id).Unwrapped)
  (hsettled : s.Settled hosts crashed) (hq : q ∈ hosts.without crashed)

include hwrap hsettled hq

/-- All that are left have taken in what any member has taken in. -/
theorem took_of_takenIn (hm : s.TakenIn hosts p m) : (s.fifoAt q).Took m := by
  obtain ⟨carrier, hcarrier, hm⟩ := hm
  have hdelivered :=
    mem_deliveries_of_settled hlawful h.reachable hwrap hsettled hq (Or.inl ⟨p, hcarrier⟩)
  exact (attentive_over_udp hlawful h hwrap q).took m ⟨carrier, hdelivered, hm⟩

/-- All that are left have taken in what one of them has broadcast. -/
theorem took_of_text (ha : a ∈ hosts.without crashed) (hm : m ∈ s.texts a) :
    (s.fifoAt q).Took m := by
  have hall := orderly_over_udp hlawful h hwrap
  obtain ⟨carrier, hcarrier, hbears⟩ := (hall a).carried.exists_carrier m hm
  have hdelivered :=
    mem_deliveries_of_settled hlawful h.reachable hwrap hsettled hq (Or.inr ⟨a, ha, hcarrier⟩)
  have hshort := hbears.encodedLength_lt.trans
    (encodedLength_lt_of_mem_deliveries hlawful h hwrap hdelivered)
  exact (attentive_over_udp hlawful h hwrap q).took m
    ⟨carrier, hdelivered, hbears.mem_offered (hshort.trans (by decide))⟩

/-- What any member has delivered in order, all that are left have. -/
theorem ordered_of_ordered (hm : m ∈ s.ordered p) : m ∈ s.ordered q := by
  have hall := orderly_over_udp hlawful h hwrap
  have hattentive := attentive_over_udp hlawful h hwrap
  have hstarts := (hall p).inOrder.starts m.sender
  have hmem : m ∈ ofSender (s.ordered p) m.sender :=
    List.mem_filter.mpr ⟨hm, decide_eq_true rfl⟩
  have hle : (ofSender (s.ordered p) m.sender).length ≤
      (ofSender (s.ordered q) m.sender).length := by
    refine (hall q).inOrder.le_length_of_took (numbered_texts hall)
      ((hattentive q).calm m.sender) hstarts.length_le fun m' hm' => ?_
    rw [← List.prefix_iff_eq_take.mp hstarts] at hm'
    exact took_of_takenIn hlawful h hwrap hsettled hq
      ((hattentive p).takenIn m' (List.mem_filter.mp hm').1)
  have hstarts' := (hall q).inOrder.starts m.sender
  exact (List.mem_filter.mp
    ((List.prefix_of_prefix_length_le hstarts hstarts' hle).subset hmem)).1

/-- Of a member that is left, all that are left have delivered everything. -/
theorem ofSender_ordered_eq (ha : a ∈ hosts.without crashed) :
    ofSender (s.ordered q) a = s.texts a := by
  have hall := orderly_over_udp hlawful h hwrap
  refine ((hall q).inOrder.starts a).eq_of_length_le ?_
  refine (hall q).inOrder.le_length_of_took (numbered_texts hall)
    ((attentive_over_udp hlawful h hwrap q).calm a) (Nat.le_refl _) fun m hm => ?_
  exact took_of_text hlawful h hwrap hsettled hq ha (List.mem_of_mem_take hm)

end

/-- **Broadcast in order is complete.**  In every run of a group over UDP whose nodes broadcast in
order, where no link is given so many messages that its ids wrap: once a majority that has not been
stopped has nothing in flight among itself, each of its members has delivered in order

* every message that any member has delivered in order, even one that has crashed, and be it out of
  the history in some other message,
* every message that one of its own has broadcast.

If nobody has crashed, all backlogs are empty, and all members expect the same number next of every
host. -/
theorem ordered_of_settled {hs : List Host} (hhosts : Hosts.ofList hs = .ok hosts)
    (h : s.ReachableOverUdp hosts fun id =>
      .fresh FifoBroadcast.ofHosts hosts (tuning id) (watches id) id)
    (hwrap : ∀ id, (s.linksAt id).Unwrapped) (hsettled : s.Settled hosts crashed) :
    (∀ q ∈ hosts.without crashed, ∀ m,
      ((∃ p, m ∈ s.ordered p) ∨ ∃ p ∈ hosts.without crashed, m ∈ s.texts p) →
        m ∈ s.ordered q) ∧
    (crashed = [] → ∀ q ∈ hosts.ids, (s.fifoAt q).backlog = ∅ ∧
      ∀ q' ∈ hosts.ids, ∀ x, (s.fifoAt q).nextExpected x = (s.fifoAt q').nextExpected x) := by
  have hlawful := Hosts.lawful_ofList hhosts
  have hall := orderly_over_udp hlawful h hwrap
  constructor
  · rintro q hq m (⟨p, hm⟩ | ⟨p, hp, hm⟩)
    · exact ordered_of_ordered hlawful h hwrap hsettled hq hm
    · rw [← ofSender_ordered_eq hlawful h hwrap hsettled hq hp] at hm
      exact (List.mem_filter.mp hm).1
  · rintro rfl
    have hleft : ∀ q ∈ hosts.ids, q ∈ hosts.without [] :=
      fun q hq => mem_without.mpr ⟨Hosts.mem_ids_iff.mp hq, List.not_mem_nil⟩
    -- Hosts that are no members have broadcast nothing, and so nothing is missing of them either.
    have hordered : ∀ q ∈ hosts.ids, ∀ x, ofSender (s.ordered q) x = s.texts x := by
      intro q hq x
      by_cases hx : x ∈ hosts.ids
      · exact ofSender_ordered_eq hlawful h hwrap hsettled (hleft q hq) (hleft x hx)
      · have hnone : s.texts x = [] := by
          refine List.map_eq_nil_iff.mpr (List.eq_nil_iff_forall_not_mem.mpr fun issue hissue => ?_)
          obtain ⟨o, ho, rfl, -⟩ := exists_of_mem_record hissue
          exact hx (Hosts.mem_ids_iff.mpr (h.reachable.contains_of_mem_history ho))
        have hstarts := (hall q).inOrder.starts x
        rw [hnone] at hstarts ⊢
        exact List.prefix_nil.mp hstarts
    intro q hq
    refine ⟨(hall q).inOrder.backlog_eq_empty
      (attentive_over_udp hlawful h hwrap q).calm (hordered q hq), fun q' hq' x => ?_⟩
    rw [(hall q).inOrder.next_eq, (hall q').inOrder.next_eq, hordered q hq, hordered q' hq']

/-! ## A crash after a delivery -/

/-- An envelope gets through, and so does its acknowledgement. -/
def exchange (s : System (Node FifoBroadcast)) (p q : Host) (m : Message) :
    System (Node FifoBroadcast) :=
  (s.step q.id (.arrival p m.encode) 0).step p.id (.arrival q (m.ack q.id).encode) 0

/-- The first of three members broadcasts two messages.  The third one gets to see what carries the
second message, delivers both and is stopped.  The other two go on until nothing is in flight
between them. -/
def crashRun : System (Node FifoBroadcast) :=
  let s := System.initial fun id => Node.fresh FifoBroadcast.ofHosts .trio {} false id
  let s := s.step 1 (.input (.command ([97] : Bytes))) 0
  let s := s.step 1 (.input (.command ([98] : Bytes))) 0
  let s := s.step 3 (.arrival .first (carrierEnvelope 1 3 2 secondCarrier).encode) 0
  let s := s.step 3 (.arrival .third (carrierEnvelope 3 3 1 secondCarrier).encode) 0
  let s := s.step 3 (.input .stop) 0
  let s := s.exchange .first .first (carrierEnvelope 1 1 1 firstCarrier)
  let s := s.exchange .first .second (carrierEnvelope 1 2 1 firstCarrier)
  let s := s.exchange .second .first (carrierEnvelope 2 1 1 firstCarrier)
  let s := s.exchange .second .second (carrierEnvelope 2 2 1 firstCarrier)
  let s := s.exchange .first .first (carrierEnvelope 1 1 2 secondCarrier)
  let s := s.exchange .first .second (carrierEnvelope 1 2 2 secondCarrier)
  let s := s.exchange .second .first (carrierEnvelope 2 1 2 secondCarrier)
  s.exchange .second .second (carrierEnvelope 2 2 2 secondCarrier)

theorem ReachableOverUdp.exchange {make : HostId → Node FifoBroadcast}
    (h : s.ReachableOverUdp hosts make) {g g' : Host} (hg : hosts.get? g.id = some g)
    (hg' : hosts.get? g'.id = some g') (hsent : Carries hosts s.wire g.id g'.id m.encode)
    (hreply : Carries hosts (s.step g'.id (.arrival g m.encode) 0).wire g'.id g.id
      (m.ack g'.id).encode)
    (hlength : m.encode.length < UInt16.size) :
    (s.exchange g g' m).ReachableOverUdp hosts make := by
  refine (h.arrival 0 hg hsent hlength).arrival 0 hg' hreply ?_
  rw [Message.length_encode]
  exact (by decide : Message.headerLength + 4 < UInt16.size)

theorem crashRun_reachable : crashRun.ReachableOverUdp .trio fun id =>
    .fresh FifoBroadcast.ofHosts .trio {} false id := by
  have hfirst : ∀ {wire p bytes}, (⟨p, ⟨Host.first.address, bytes⟩⟩ : Flight) ∈ wire →
      Carries .trio wire p 1 bytes := fun h => ⟨.first, rfl, h⟩
  have hsecond : ∀ {wire p bytes}, (⟨p, ⟨Host.second.address, bytes⟩⟩ : Flight) ∈ wire →
      Carries .trio wire p 2 bytes := fun h => ⟨.second, rfl, h⟩
  refine .exchange (.exchange (.exchange (.exchange (.exchange (.exchange (.exchange (.exchange
    (.input (.arrival (.arrival (.input (.input .initial 0 _ rfl) 0 _ rfl)
      0 rfl ⟨.third, rfl, ?_⟩ ?_) 0 rfl ⟨.third, rfl, ?_⟩ ?_) 0 _ rfl)
    rfl rfl (hfirst ?_) (hfirst ?_) ?_) rfl rfl (hsecond ?_) (hfirst ?_) ?_)
    rfl rfl (hfirst ?_) (hsecond ?_) ?_) rfl rfl (hsecond ?_) (hsecond ?_) ?_)
    rfl rfl (hfirst ?_) (hfirst ?_) ?_) rfl rfl (hsecond ?_) (hfirst ?_) ?_)
    rfl rfl (hfirst ?_) (hsecond ?_) ?_) rfl rfl (hsecond ?_) (hsecond ?_) ?_
  all_goals decide +kernel

/-- The third member has crashed, and the other two are settled. -/
theorem settled_crashRun : crashRun.Settled .trio [3] :=
  .of_all (by decide +kernel) (by decide +kernel) (by decide +kernel)

/-- The third member has delivered the first message out of a history, and crashed; the second
member has delivered it nevertheless. -/
theorem ordered_of_settled_crashRun : (∀ id, (crashRun.linksAt id).Unwrapped) ∧
    crashRun.Settled .trio [3] ∧ firstText ∈ crashRun.ordered 3 ∧
      firstText ∈ crashRun.ordered 2 := by
  have hwrap := unwrapped_nodes_of_linkSteps_lt (Hosts.lawful_ofList Hosts.ofList_trio)
    crashRun_reachable.reachable (by decide +kernel)
  have hordered : firstText ∈ crashRun.ordered 3 := by decide +kernel
  exact ⟨hwrap, settled_crashRun, hordered,
    (ordered_of_settled Hosts.ofList_trio crashRun_reachable hwrap settled_crashRun).1 2
      (by decide +kernel) firstText (Or.inl ⟨3, hordered⟩)⟩

end Groupcast.System
