import Groupcast.Proofs.Broadcast.Group
import Groupcast.Proofs.Quorum

/-!
# Agreement at quiescence

Once nothing is in flight between the members that are left, and enough of them are, they have all
delivered what any member has delivered, and all that one of them has broadcast
(`delivered_exactly_once`).

What a member that is left has forwarded has been handled by all others (`handled_of_forwarded`), so
that they have forwarded it as well.  If one of them had not delivered it, it would know that all of
them hold it, and they are a majority (`delivered_of_forwarded`).
-/

namespace Groupcast

/-- The members of a group without those that have crashed. -/
def Hosts.without (hosts : Hosts) (crashed : List HostId) : List HostId :=
  hosts.ids.filter fun id => id ∉ crashed

namespace System

open Relaying (uniform)

/-- Some members may have crashed, but a majority has not been stopped, and nothing is in flight
between any two of its members. -/
structure Settled {π : Type} [Protocol π] [Linked π] (hosts : Hosts) (s : System (Node π))
    (crashed : List HostId) : Prop where
  quorum_le : hosts.quorum ≤ (hosts.without crashed).length
  running : ∀ p ∈ hosts.without crashed, ¬ s.Halted p
  quiet : ∀ p ∈ hosts.without crashed, ∀ q ∈ hosts.without crashed, ∀ l : PerfectLink,
    (s.linksAt p).links[q]? = some l → l.inFlight = 0

/-- Whether a run is settled can be told from its history and from its links. -/
theorem Settled.of_all {π : Type} [Protocol π] [Linked π] {hosts : Hosts} {s : System (Node π)}
    {crashed : List HostId} (hquorum : hosts.quorum ≤ (hosts.without crashed).length)
    (hstops : (s.history.all fun o =>
      match o.cause with
      | .input .stop => o.member ∈ crashed
      | _ => true) = true)
    (hquiet : ((hosts.without crashed).all fun p => (hosts.without crashed).all fun q =>
      ((s.linksAt p).links[q]?.map PerfectLink.inFlight).getD 0 = 0) = true) :
    s.Settled hosts crashed where
  quorum_le := hquorum
  running := by
    rintro p hp ⟨o, ho, rfl, hcause⟩
    have hstop := List.all_eq_true.mp hstops o ho
    rw [hcause] at hstop
    exact of_decide_eq_true (List.mem_filter.mp hp).2 (of_decide_eq_true hstop)
  quiet := by
    intro p hp q hq l hl
    have hzero := of_decide_eq_true (List.all_eq_true.mp (List.all_eq_true.mp hquiet p hp) q hq)
    rw [hl] at hzero
    exact hzero

variable {π : Type} [Protocol π] [Relaying π] {hosts : Hosts} {tuning : HostId → Tuning}
  {watches : HostId → Bool} {s : System (Node π)} {p q : HostId} {m : Message} {label : Label}
  {crashed : List HostId}

theorem mem_without : p ∈ hosts.without crashed ↔ hosts.contains p = true ∧ p ∉ crashed := by
  simp [Hosts.without]

section

variable (hlawful : hosts.Lawful)
  (h : s.Reachable hosts fun id => .fresh Relaying.ofHosts hosts (tuning id) (watches id) id)
  (hwrap : ∀ id, (s.linksAt id).Unwrapped)

include hlawful h hwrap

/-- What has been relayed over a link with nothing in flight has been handled. -/
theorem handled_of_relays (hrunning : ¬ s.Halted p) (hp : hosts.contains p = true)
    {l : PerfectLink} (hl : (s.linksAt p).links[q]? = some l) (hzero : l.inFlight = 0)
    (hm : s.Relays hosts p q m) : Label.ofMessage m ∈ (s.uniformAt q).delivered ∨
      ∃ w, (s.uniformAt q).pending[Label.ofMessage m]? = some w ∧ p ∈ w.holders := by
  have hknown := known_of_relays hlawful h hwrap hm
  obtain ⟨envelope, hsent, hpayload⟩ := hm
  obtain ⟨r, hr⟩ := (fits_nodes hlawful h q).exists_link hp
  have hdelivered := (channel_nodes hlawful h hwrap hl hr).delivered_of_not_waiting hrunning hsent
    (PerfectLink.getElem?_sent_of_inFlight hzero envelope.id)
  have hhandled : (s.uniformAt q).Handled p envelope := by
    refine handled_of_delivered (H := fun a p m => (uniform a).Handled p m) hlawful h ?_ ?_ hwrap hr
      hsent hdelivered
    · intro st a now p m hold
      exact (st.turn_apply a now).handled (st.hosts_apply a now) hold
    · intro a now m r hr hkind hnew
      rw [(Relaying.onMessage_eq a m.sender m now).1]
      exact UniformBroadcast.handled_deliver hr hkind hnew now
  refine hhandled m ?_ ?_
  · rw [hpayload, Message.decode_encode]
  · rw [hosts_uniformAt h q]
    obtain ⟨o, ho, hmember, -⟩ := exists_of_mem_record hknown
    exact hmember ▸ h.contains_of_mem_history ho

variable (hsettled : s.Settled hosts crashed) (hp : p ∈ hosts.without crashed)
  (hq : q ∈ hosts.without crashed)

include hsettled hp hq

/-- What a member that is left has forwarded has been handled by all that are left. -/
theorem handled_of_forwarded (hlabel : label ∈ (s.uniformAt p).forwarded) :
    label ∈ (s.uniformAt q).delivered ∨
      ∃ w, (s.uniformAt q).pending[label]? = some w ∧ p ∈ w.holders := by
  obtain ⟨m, rfl, hall⟩ := (account_of_reachable hlawful h hwrap p).forwards.exists_relayed _ hlabel
  rw [hosts_uniformAt h p] at hall
  have hq' := (mem_without.mp hq).1
  obtain ⟨l, hl⟩ := (fits_nodes hlawful h p).exists_link hq'
  exact handled_of_relays hlawful h hwrap (hsettled.running p hp) (mem_without.mp hp).1 hl
    (hsettled.quiet p hp q hq l hl) (hall q hq')

/-- All that are left have forwarded what one of them has. -/
theorem forwarded_of_forwarded (hlabel : label ∈ (s.uniformAt p).forwarded) :
    label ∈ (s.uniformAt q).forwarded := by
  have haccount := account_of_reachable hlawful h hwrap q
  rcases handled_of_forwarded hlawful h hwrap hsettled hp hq hlabel with hdelivered | ⟨w, hw, -⟩
  · obtain ⟨m, hm, rfl⟩ := (haccount.delivers.mem_delivered label).mp hdelivered
    exact haccount.delivers.forwarded m hm
  · exact (haccount.waits label w hw).forwarded

/-- **All that are left have delivered what one of them has forwarded.** -/
theorem delivered_of_forwarded (hlabel : label ∈ (s.uniformAt p).forwarded) :
    label ∈ (s.uniformAt q).delivered := by
  by_contra hnot
  have hwaits : ∀ a ∈ hosts.without crashed,
      ∃ w, (s.uniformAt q).pending[label]? = some w ∧ a ∈ w.holders := by
    intro a ha
    have hforwarded := forwarded_of_forwarded hlawful h hwrap hsettled hp ha hlabel
    exact (handled_of_forwarded hlawful h hwrap hsettled ha hq hforwarded).resolve_left hnot
  obtain ⟨w, hw, -⟩ := hwaits p hp
  have hall : ∀ a ∈ hosts.without crashed, a ∈ w.holders.toList := by
    intro a ha
    obtain ⟨w', hw', hmem⟩ := hwaits a ha
    rw [hw] at hw'
    cases hw'
    exact Std.ExtTreeSet.mem_toList.mpr hmem
  have hle := length_le_of_nodup (hosts.nodup_ids.filter _) hall
  have hlt := ((account_of_reachable hlawful h hwrap q).waits label w hw).size_lt
  have hquorum := hsettled.quorum_le
  unfold BestEffort.quorum at hlt
  unfold Hosts.without at hquorum
  rw [hosts_uniformAt h q] at hlt
  rw [Std.ExtTreeSet.length_toList] at hle
  omega

omit hq hp in
/-- What any member has delivered has been forwarded by a member that is left. -/
theorem exists_forwarded_of_deliveries (hm : m ∈ s.deliveries q) :
    ∃ a ∈ hosts.without crashed, Label.ofMessage m ∈ (s.uniformAt a).forwarded := by
  obtain ⟨A, hnodup, hlength, hA⟩ :=
    (account_of_reachable hlawful h hwrap q).delivers.exists_holders m hm
  have hmember : ∀ a ∈ A, a ∈ hosts.ids := by
    intro a ha
    obtain ⟨_, ⟨-, hcarries⟩, -⟩ := hA a ha
    exact Hosts.mem_ids_iff.mpr (h.contains_of_carries hcarries)
  rw [BestEffort.quorum, hosts_uniformAt h q, Hosts.quorum, ← Hosts.length_ids] at hlength
  have hquorum := hsettled.quorum_le
  rw [Hosts.quorum, ← Hosts.length_ids] at hquorum
  obtain ⟨a, haA, ha⟩ := exists_mem_of_quorum hnodup (hosts.nodup_ids.filter _) hmember
    (fun a ha => (List.mem_filter.mp ha).1) hlength hquorum
  exact ⟨a, ha, (account_of_reachable hlawful h hwrap a).forwards.of_relayed q m (hA a haA)⟩

omit hp in
/-- What any member has delivered, or one that is left has broadcast, has been delivered by all that
are left. -/
theorem mem_deliveries_of_settled
    (hm : (∃ a, m ∈ s.deliveries a) ∨ ∃ a ∈ hosts.without crashed, m ∈ s.broadcasts a) :
    m ∈ s.deliveries q := by
  have haccounts := account_of_reachable hlawful h hwrap
  obtain ⟨hknown, a, ha, hforwarded⟩ : s.Known m ∧
      ∃ a ∈ hosts.without crashed, Label.ofMessage m ∈ (s.uniformAt a).forwarded := by
    rcases hm with ⟨a, hm⟩ | ⟨a, ha, hm⟩
    · exact ⟨(haccounts a).delivers.known m hm,
        exists_forwarded_of_deliveries hlawful h hwrap hsettled hm⟩
    · have hsender := ((haccounts a).own.stamped m hm).1
      rw [self_uniformAt hlawful h a] at hsender
      refine ⟨?_, a, ha, (haccounts a).forwards.of_broadcast m hm⟩
      unfold Known
      rw [hsender]
      exact hm
  have hdelivered := delivered_of_forwarded hlawful h hwrap hsettled ha hq hforwarded
  obtain ⟨m', hm', heq⟩ := ((haccounts q).delivers.mem_delivered _).mp hdelivered
  rw [← eq_of_label_eq haccounts ((haccounts q).delivers.known m' hm') hknown heq]
  exact hm'

end

/-- **Uniform broadcast reaches agreement.**  In every run of a group whose nodes broadcast
uniformly, where no link is given so many messages that its ids wrap: once a majority that has not
been stopped has nothing in flight among itself, each of its members has delivered every message
that any member has delivered, even one that has crashed, and every message that one of its own has
broadcast, and has done so exactly once. -/
theorem delivered_exactly_once {s : System (Node UniformBroadcast)} {hs : List Host}
    (hhosts : Hosts.ofList hs = .ok hosts)
    (h : s.Reachable hosts fun id =>
      .fresh UniformBroadcast.ofHosts hosts (tuning id) (watches id) id)
    (hwrap : ∀ id, (s.linksAt id).Unwrapped) (hsettled : s.Settled hosts crashed)
    (hm : (∃ p, m ∈ s.deliveries p) ∨ ∃ p ∈ hosts.without crashed, m ∈ s.broadcasts p)
    (hq : q ∈ hosts.without crashed) :
    m ∈ s.deliveries q ∧ ((s.deliveries q).map Label.ofMessage).count (.ofMessage m) = 1 := by
  have hlawful := Hosts.lawful_ofList hhosts
  have hdelivered := mem_deliveries_of_settled hlawful h hwrap hsettled hq hm
  refine ⟨hdelivered, List.count_eq_one_of_mem ?_ (List.mem_map_of_mem hdelivered)⟩
  exact (account_of_reachable hlawful h hwrap q).delivers.nodup_label

/-! ## A crash that is survived -/

/-- A note that the first of three members broadcasts. -/
def note : Message := { Message.ofData 1 1 [72, 105] with id := 1 }

/-- The envelope in which a member relays the note to another one. -/
def noteEnvelope (p q : HostId) : Message :=
  { Message.ofData p 1 note.encode with id := 1, receiver := q }

/-- The first member broadcasts the note.  The third relays it and is stopped, and the other two go
on until nothing is in flight between them. -/
def noteRun : System (Node UniformBroadcast) :=
  let take (s : System (Node UniformBroadcast)) (p : Host) (q : HostId) (m : Message) :=
    s.step q (.arrival p m.encode) 0
  let s := System.initial fun id => Node.fresh UniformBroadcast.ofHosts .trio {} false id
  let s := s.step 1 (.input (.command ([72, 105] : Bytes))) 0
  let s := take s .first 3 (noteEnvelope 1 3)
  let s := s.step 3 (.input .stop) 0
  let s := take s .first 1 (noteEnvelope 1 1)
  let s := take s .first 1 ((noteEnvelope 1 1).ack 1)
  let s := take s .first 2 (noteEnvelope 1 2)
  let s := take s .second 1 ((noteEnvelope 1 2).ack 2)
  let s := take s .second 1 (noteEnvelope 2 1)
  let s := take s .first 2 ((noteEnvelope 2 1).ack 1)
  let s := take s .second 2 (noteEnvelope 2 2)
  take s .second 2 ((noteEnvelope 2 2).ack 2)

theorem noteRun_reachable : noteRun.Reachable .trio fun id =>
    .fresh UniformBroadcast.ofHosts .trio {} false id := by
  refine .step _ (.step _ (.step _ (.step _ (.step _ (.step _ (.step _ (.step _ (.step _ (.step _
    (.step _ .initial ?_) ?_) ?_) ?_) ?_) ?_) ?_) ?_) ?_) ?_) ?_
  · show Hosts.trio.contains 1 = true
    rfl
  · exact ⟨rfl, .third, rfl, by decide +kernel⟩
  · show Hosts.trio.contains 3 = true
    rfl
  · exact ⟨rfl, .first, rfl, by decide +kernel⟩
  · exact ⟨rfl, .first, rfl, by decide +kernel⟩
  · exact ⟨rfl, .second, rfl, by decide +kernel⟩
  · exact ⟨rfl, .first, rfl, by decide +kernel⟩
  · exact ⟨rfl, .first, rfl, by decide +kernel⟩
  · exact ⟨rfl, .second, rfl, by decide +kernel⟩
  · exact ⟨rfl, .second, rfl, by decide +kernel⟩
  · exact ⟨rfl, .second, rfl, by decide +kernel⟩

/-- The third member has crashed, and the other two are settled. -/
theorem settled_noteRun : noteRun.Settled .trio [3] :=
  .of_all (by decide +kernel) (by decide +kernel) (by decide +kernel)

theorem delivered_exactly_once_noteRun : (∀ id, (noteRun.linksAt id).Unwrapped) ∧
    noteRun.Settled .trio [3] ∧ note ∈ noteRun.broadcasts 1 ∧ note ∈ noteRun.deliveries 2 ∧
      ((noteRun.deliveries 2).map Label.ofMessage).count (.ofMessage note) = 1 := by
  have hwrap := unwrapped_nodes_of_linkSteps_lt (Hosts.lawful_ofList Hosts.ofList_trio)
    noteRun_reachable (by decide +kernel)
  have hbroadcast : note ∈ noteRun.broadcasts 1 := by decide +kernel
  exact ⟨hwrap, settled_noteRun, hbroadcast, delivered_exactly_once Hosts.ofList_trio
    noteRun_reachable hwrap settled_noteRun (Or.inr ⟨1, by decide +kernel, hbroadcast⟩)
    (by decide +kernel)⟩

end System

end Groupcast
