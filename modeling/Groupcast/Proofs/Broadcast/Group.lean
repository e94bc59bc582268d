import Groupcast.Proofs.Broadcast.Account
import Groupcast.Proofs.Node.Group

/-!
# Broadcasts in a group

In a group whose protocols sit on uniform broadcasts, the accounts of all members hold at all times
(`account_of_reachable`): what a member knows of a message is what the others have really done with
it.  No member relays a message that its sender has not broadcast (`broadcast_of_relays`), and so a
label names one message in the whole group (`eq_of_label_eq`).
-/

namespace Groupcast.System

open Relaying (uniform)

variable {π : Type} [Protocol π] [Relaying π] {hosts : Hosts} {tuning : HostId → Tuning}
  {watches : HostId → Bool} {s : System (Node π)} {c : Cause (Node π)} {p q x : HostId} {now : Nat}
  {m m' : Message}

/-- The broadcast of a member. -/
def uniformAt (s : System (Node π)) (p : HostId) : UniformBroadcast :=
  uniform (s.members p).protocol

/-- The messages that a member has broadcast, in order and as they were stamped. -/
def broadcasts (s : System (Node π)) (p : HostId) : List Message :=
  s.record p fun o => (o.before.stimulus o.cause).broadcast? o.before.protocol

/-- The messages that the broadcast of a member has delivered, in order. -/
def deliveries (s : System (Node π)) (p : HostId) : List Message :=
  s.record p fun o => (o.before.stimulus o.cause).deliver? o.before.protocol o.now

/-- A member has sent a message to another one in an envelope. -/
def Relays (hosts : Hosts) (s : System (Node π)) (p q : HostId) (m : Message) : Prop :=
  Said hosts s.wire p q m.encode

/-- A message has been broadcast by its sender. -/
def Known (s : System (Node π)) (m : Message) : Prop := m ∈ s.broadcasts m.sender

theorem known_step (h : s.Known m) : (s.step x c now).Known m := mem_record_step.mpr (Or.inl h)

theorem known_step_self (hm : ((s.members x).stimulus c).broadcast? (s.members x).protocol = some m)
    (hsender : m.sender = x) : (s.step x c now).Known m :=
  mem_record_step.mpr (Or.inr ⟨hsender.symm, hm⟩)

/-- What a step comes to for the broadcast of a member. -/
theorem turn_uniformAt (x : HostId) (c : Cause (Node π)) (now : Nat) :
    UniformBroadcast.Turn (((s.members x).stimulus c).Hears (s.members x).protocol)
      (((s.members x).stimulus c).orders (s.members x).protocol)
      (((s.members x).stimulus c).broadcast? (s.members x).protocol)
      (((s.members x).stimulus c).deliver? (s.members x).protocol now)
      (s.uniformAt x) ((s.step x c now).uniformAt x) := by
  have hturn := ((s.members x).stimulus c).turn_apply (s.members x).protocol now
  rw [← step_protocol_self] at hturn
  exact hturn

section

variable (hlawful : hosts.Lawful)
  (h : s.Reachable hosts fun id => .fresh Relaying.ofHosts hosts (tuning id) (watches id) id)

include hlawful h

/-! ## A step of the group -/

theorem self_uniformAt (p : HostId) : (s.uniformAt p).self = p := (fits_nodes hlawful h p).self_eq

omit hlawful in
theorem hosts_uniformAt (p : HostId) : (s.uniformAt p).group.hosts = hosts := by
  induction h with
  | initial =>
    show (uniform (Relaying.ofHosts p hosts (tuning p) : π)).group.hosts = hosts
    rw [Relaying.uniform_ofHosts]
    rfl
  | @step s x c now _ _ ih =>
    by_cases hp : p = x
    · subst hp
      unfold uniformAt
      rw [step_protocol_self, Node.Stimulus.hosts_apply]
      exact ih
    · unfold uniformAt
      rw [step_members_of_ne hp]
      exact ih

/-- What a member hears of has been relayed to it. -/
theorem relays_of_hears (hc : s.Permits hosts x c)
    (hhears : ((s.members x).stimulus c).Hears (s.members x).protocol p m) :
    s.Relays hosts p x m := by
  obtain ⟨envelope, hstimulus, rfl, hheard⟩ := hhears
  obtain ⟨hresult, hdecode⟩ := BestEffort.heard_eq_some.mp hheard
  unfold Relays
  rw [← Message.decode_eq_ok_iff.mp hdecode]
  exact said_of_stimulus hlawful h hc hstimulus hresult

/-- What has been relayed by the end of a step was relayed before, or is what the step sends. -/
theorem relays_step_iff (hc : s.Permits hosts x c)
    (hwrap : ∀ id, ((s.step x c now).linksAt id).Unwrapped) :
    (s.step x c now).Relays hosts p q m ↔ s.Relays hosts p q m ∨
      p = x ∧ hosts.contains q = true ∧
        (s.uniformAt x).toAll m ∈ ((s.members x).stimulus c).orders (s.members x).protocol := by
  unfold Relays
  rw [said_nodes_iff hlawful h hc hwrap]
  refine or_congr_right (and_congr_right fun hp => and_congr_right fun hq => ?_)
  constructor
  · rintro ⟨o, ho, -, -, hpayload⟩
    obtain ⟨m', rfl, -⟩ := (turn_uniformAt x c now).mem_orders ho
    rw [← Message.encode_injective hpayload]
    exact ho
  · intro ho
    exact ⟨_, ho, rfl, rfl, rfl⟩

/-- **No member relays a message that its sender has not broadcast.** -/
theorem known_of_relays (hwrap : ∀ id, (s.linksAt id).Unwrapped) (hm : s.Relays hosts p q m) :
    s.Known m := by
  induction h generalizing p q with
  | initial =>
    obtain ⟨_, ⟨-, _, -, hmem⟩, -⟩ := hm
    cases hmem
  | @step s x c now h hc ih =>
    have hold : ∀ {p q}, s.Relays hosts p q m → (s.step x c now).Known m :=
      fun hm => known_step (ih (unwrapped_nodes_of_step hlawful h hc hwrap) hm)
    rcases (relays_step_iff hlawful h hc hwrap).mp hm with hm | ⟨-, -, ho⟩
    · exact hold hm
    · obtain ⟨m', heq, hcases⟩ := (turn_uniformAt x c now).mem_orders ho
      rw [← UniformBroadcast.toAll_inj.mp heq] at hcases
      rcases hcases with ⟨hbroadcast, hsender⟩ | ⟨holder, hhears⟩
      · exact known_step_self hbroadcast (hsender.trans (self_uniformAt hlawful h x))
      · exact hold (relays_of_hears hlawful h hc hhears)

/-! ## The accounts of all members -/

/-- What always holds of the broadcast of a member. -/
def Accounted (hosts : Hosts) (s : System (Node π)) (p : HostId) : Prop :=
  (s.uniformAt p).Account (s.broadcasts p) (s.deliveries p) s.Known (s.Relays hosts p)
    (fun a m => s.Relays hosts a p m) ((s.linksAt p).sentCountTo p)

omit hlawful h in
/-- A label names one message in the whole group. -/
theorem eq_of_label_eq (haccounts : ∀ p, s.Accounted hosts p) (hm : s.Known m) (hm' : s.Known m')
    (heq : Label.ofMessage m = Label.ofMessage m') : m = m' := by
  obtain ⟨hsender, hid⟩ := Label.mk.inj heq
  refine (haccounts m.sender).eq_of_mem_broadcasts hm ?_ hid
  rw [hsender]
  exact hm'

/-- **The accounts of all members hold at all times.** -/
theorem account_of_reachable (hwrap : ∀ id, (s.linksAt id).Unwrapped) (p : HostId) :
    s.Accounted hosts p := by
  induction h generalizing p with
  | initial =>
    have huniform : (System.initial fun id => Node.fresh (Relaying.ofHosts : _ → _ → _ → π) hosts
        (tuning id) (watches id) id).uniformAt p = .ofHosts p hosts (tuning p) :=
      Relaying.uniform_ofHosts p hosts (tuning p)
    rw [Accounted, huniform]
    refine UniformBroadcast.Account.ofHosts p hosts (tuning p) ?_
    rintro q m ⟨_, ⟨-, _, -, hmem⟩, -⟩
    cases hmem
  | @step s x c now h hc ih =>
    have hwrap₀ := unwrapped_nodes_of_step hlawful h hc hwrap
    have haccounts := ih hwrap₀
    have hrelayed : ∀ p q m, (s.step x c now).Relays hosts p q m ↔ _ :=
      fun p q m => relays_step_iff hlawful h hc hwrap
    have hheld : ∀ a m, s.Relays hosts a p m → (s.step x c now).Relays hosts a p m :=
      fun a m hm => (hrelayed a p m).mpr (Or.inl hm)
    have hbudget : (s.linksAt p).sentCountTo p ≤ ((s.step x c now).linksAt p).sentCountTo p :=
      sentCountTo_le_step hlawful h hc
    by_cases hp : p = x
    · subst hp
      have hself : (s.uniformAt p).self = p := self_uniformAt hlawful h p
      have hself' : ((s.step p c now).uniformAt p).self = p :=
        self_uniformAt hlawful (.step now h hc) p
      have hhosts : (s.uniformAt p).group.hosts = hosts := hosts_uniformAt h p
      have hhosts' : ((s.step p c now).uniformAt p).group.hosts = hosts :=
        hosts_uniformAt (.step now h hc) p
      have hturn := turn_uniformAt (s := s) p c now
      unfold Accounted broadcasts deliveries
      rw [record_step, record_step, if_pos rfl, if_pos rfl]
      refine (haccounts p).turn hturn (hself'.trans hself.symm) (hhosts'.trans hhosts.symm)
        (fun m => known_step) ?_ ?_ hheld ?_ (fun m m' => eq_of_label_eq haccounts) hbudget ?_
        ((hwrap p).sentCountTo_lt p)
      · intro m hm
        exact known_step_self hm ((hturn.broadcast_eq hm).1.trans hself)
      · intro q m
        rw [hrelayed, hhosts]
        simp only [true_and]
      · intro a m hhears
        have hm := relays_of_hears hlawful h hc hhears
        exact ⟨hm, known_of_relays hlawful h hwrap₀ hm⟩
      · intro m hm
        exact sentCountTo_lt_step hlawful h hc hc.contains (hturn.broadcast_eq hm).2 rfl
    · unfold Accounted uniformAt broadcasts deliveries
      rw [step_members_of_ne hp, record_step, record_step, if_neg (Ne.symm hp),
        if_neg (Ne.symm hp), List.append_nil, List.append_nil]
      refine (haccounts p).keep (fun m => known_step) (fun q m => ?_) hheld hbudget
      rw [hrelayed]
      simp [hp]

end

end Groupcast.System
