import Groupcast.Proofs.Node.Deadline
import Groupcast.Proofs.Node.Independence

/-!
# Nodes that have been stopped

Stopping a node takes all timers away (`idle_stop`), but it does not keep the node from being given
what is still on its way.  Heartbeats and acknowledgements that land arm no timer again, nor does
data that is acknowledged and passed on.  What does arm one is data that the protocol sends in
answer: a relayed message, a reply, or a proposal.  So a stopped node stays silent exactly as long
as nothing that lands makes it send data (`silent_after_stop_iff`).  Links by themselves never do
that; the protocols that sit on them do, and then go on sending it (`not_silent_lateEnvelope`).
-/

namespace Groupcast

namespace Links

variable {g : Links}

/-- Orders to send data leave a deadline behind. -/
theorem nextDeadline?_performAll_ne_none {now : Nat} {os : List Order}
    (h : ∃ d ∈ (g.performAll now os).2, d.kind? = some .data) :
    (g.performAll now os).1.nextDeadline? ≠ none := by
  have hdriven : Driven (fun _ mv => mv = .rest ∨ ∃ m now, mv = .send m now) g
      (g.performAll now os) :=
    driven_performAll (fun _ => Or.inl rfl) fun o _ _ => Or.inr ⟨o.message, now, rfl⟩
  exact hdriven.nextDeadline?_ne_none (fun _ _ hmv => hmv) (Or.inr h)

end Links

namespace Detector

variable {d : Detector}

/-- A detector without a timer, on whose links nothing is to be sent again. -/
structure Idle (d : Detector) : Prop where
  timers : d.timers = .empty
  links : d.links.Idle

theorem idle_stop (d : Detector) : d.stop.Idle := ⟨rfl, Links.idle_stop d.links⟩

theorem Idle.nextDeadline? (h : d.Idle) : d.nextDeadline? = none := by
  rw [nextDeadline?_of_idle h.links, h.timers]
  exact Timers.nextDeadline?_empty

/-- What comes in arms no timer of a detector. -/
theorem Idle.deliver (h : d.Idle) {m : Message} (hm : (Call.deliver m.sender m).Genuine)
    (now : Nat) : (d.deliver m.sender m now).state.Idle where
  timers := by
    have hsame : (d.deliver m.sender m now).state.timers = d.timers := by
      simp only [Detector.deliver, onHeartbeat]
      repeat' split
      all_goals rfl
    rw [hsame, h.timers]
  links := idle_effect h.links hm now

end Detector

namespace Node

/-! ## Idle nodes -/

section

variable {s : Stack} {n : Node s.State} {now : Nat}

/-- A node without a timer. -/
structure Idle (n : Node s.State) : Prop where
  protocol : (Linked.links n.protocol).Idle
  detector : ∀ d, n.detector = some d → d.Idle

/-- A node that has been stopped has no timer. -/
theorem idle_stop (n : Node s.State) : n.stop.Idle := by
  constructor
  · show (Linked.links (Protocol.stop n.protocol)).Idle
    rw [Linked.links_stop]
    exact Links.idle_stop _
  · intro d hd
    obtain ⟨d₀, -, rfl⟩ := Option.map_eq_some_iff.mp hd
    exact d₀.idle_stop

theorem Idle.nextDeadline? (h : n.Idle) : n.nextDeadline? = none := by
  have hwatch : n.detector.bind Detector.nextDeadline? = none := by
    cases hd : n.detector with
    | none => rfl
    | some d => exact (h.detector d hd).nextDeadline?
  rw [Node.nextDeadline?, Stack.nextDeadline?_eq, h.protocol.nextDeadline?, hwatch]
  rfl

theorem Idle.onTimeout (h : n.Idle) (now : Nat) : n.onTimeout now = (n, .empty) := by
  refine onTimeout_of_lt (fun d hd => (h.detector d hd).links) ?_
  rw [h.nextDeadline?]
  nofun

/-- As time passes the protocol of an idle node sends nothing. -/
theorem Idle.sent_onTimeout (h : n.Idle) (now : Nat) :
    (Protocol.onTimeout n.protocol now).sent = [] := by
  have hrest : (Linked.links n.protocol).onTimeout now = ⟨Linked.links n.protocol, [], ()⟩ := by
    refine Links.onTimeout_of_lt ?_
    rw [h.protocol.nextDeadline?]
    nofun
  rw [Stack.onTimeout_of_rest hrest]

/-- A datagram that lands leaves an idle node idle if its protocol sends no data in answer. -/
theorem Idle.arrival (h : n.Idle) {source : Host} {bytes : Bytes}
    (hdata : ∀ d ∈ (n.stimulus (.arrival source bytes)).sent n.protocol now,
      d.kind? ≠ some .data) :
    (Cause.effect (.arrival source bytes) n now).1.Idle := by
  rw [effect_eq]
  constructor
  · exact h.protocol.driven (driven_apply rfl (fun m hm => isControl_of_stimulus hm) now) hdata
  · intro d hd
    replace hd : (Detector.heed n.detector (n.call? (.arrival source bytes)) now).state =
      some d := hd
    cases hd₀ : n.detector with
    | none =>
      rw [hd₀] at hd
      cases hd
    | some d₀ =>
      rw [hd₀] at hd
      cases hcall : n.call? (.arrival source bytes) with
      | none =>
        rw [hcall] at hd
        cases hd
        exact h.detector d hd₀
      | some call =>
        rw [hcall] at hd
        cases hd
        have hgenuine := genuine_of_call? hcall
        obtain ⟨m, rfl, -⟩ := deliver_of_call? hcall
        exact (h.detector d₀ hd₀).deliver hgenuine now

/-- What a protocol sends in answer to a datagram is acknowledgements and what it orders. -/
theorem sent_arrival_cases {source : Host} {bytes : Bytes} {d : Datagram}
    (hd : d ∈ (n.stimulus (.arrival source bytes)).sent n.protocol now) :
    d.kind? = some .ack ∨ ∃ (m : Message) (g : Links),
      n.stimulus (.arrival source bytes) = .message m ∧
      d ∈ (g.performAll now (Linked.messageOrders n.protocol m.sender m)).2 ∧
      Linked.links (Cause.effect (.arrival source bytes) n now).1.protocol =
        (g.performAll now (Linked.messageOrders n.protocol m.sender m)).1 := by
  rw [protocol_effect]
  rcases n.stimulus_arrival source bytes with hst | ⟨m, hst⟩
  · rw [hst] at hd
    cases hd
  · rw [hst] at hd ⊢
    obtain ⟨hlinks, hsent⟩ := Prod.mk.inj (Linked.onMessage_eq n.protocol m.sender m now)
    replace hd : d ∈ (Protocol.onMessage n.protocol m.sender m now).sent := hd
    rw [hsent] at hd
    rcases List.mem_append.mp hd with hfirst | hrest
    · exact Or.inl (Links.kind?_of_mem_sent_deliver hfirst)
    · exact Or.inr ⟨m, _, rfl, hrest, hlinks⟩

/-- A protocol orders something only in answer to data. -/
theorem kind?_of_mem_messageOrders {source : Host} {bytes : Bytes} {m : Message} {o : Order}
    (hm : n.stimulus (.arrival source bytes) = .message m)
    (ho : o ∈ Linked.messageOrders n.protocol m.sender m) :
    (⟨source.address, bytes⟩ : Datagram).kind? = some .data := by
  obtain ⟨_, _, heq, hidentify, hcontrol⟩ := arrival_of_stimulus hm
  cases heq
  have hdata := Kind.eq_data hcontrol (Stack.kind_ne_ack_of_mem_messageOrders ho)
  have hdecode : Message.decode bytes = .ok m := by
    unfold identify at hidentify
    split at hidentify
    · rename_i heq
      split at hidentify
      · cases hidentify
        exact heq
      · cases hidentify
    · cases hidentify
  simp only [Datagram.kind?, hdecode, hdata]

/-! ## What lands -/

/-- What can still happen to a node that has been stopped: datagrams land, and time passes. -/
def Lands {π : Type} [Protocol π] (c : Cause (Node π)) : Prop :=
  match c with
  | .arrival _ _ | .input .timeout => True
  | .input .start | .input .stop | .input (.command _) => False

/-- Data comes in, in whoever's name. -/
def BringsData {π : Type} [Protocol π] (c : Cause (Node π)) : Prop :=
  match c with
  | .arrival source bytes => (⟨source.address, bytes⟩ : Datagram).kind? = some .data
  | .input _ => False

variable {c : Cause (Node s.State)} {d : Datagram}

/-- What an idle node's protocol sends it sends in answer to a datagram. -/
theorem Idle.exists_arrival (h : n.Idle) (hc : Lands c)
    (hd : d ∈ (n.stimulus c).sent n.protocol now) :
    ∃ source bytes, c = .arrival source bytes := by
  cases c with
  | input i =>
    cases i with
    | timeout =>
      replace hd : d ∈ (Protocol.onTimeout n.protocol now).sent := hd
      rw [h.sent_onTimeout] at hd
      cases hd
    | start | stop | command _ => exact hc.elim
  | arrival source bytes => exact ⟨source, bytes, rfl⟩

/-- An idle node stays idle if its protocol sends no data. -/
theorem Idle.effect (h : n.Idle) (hc : Lands c)
    (hdata : ∀ d ∈ (n.stimulus c).sent n.protocol now, d.kind? ≠ some .data) :
    (c.effect n now).1.Idle := by
  cases c with
  | input i =>
    cases i with
    | timeout =>
      show (n.onTimeout now).1.Idle
      rw [h.onTimeout]
      exact h
    | start | stop | command _ => exact hc.elim
  | arrival source bytes => exact h.arrival hdata

/-- If it sends data it has a deadline from then on. -/
theorem Idle.nextDeadline?_ne_none (h : n.Idle) (hc : Lands c)
    (hd : d ∈ (n.stimulus c).sent n.protocol now) (hkind : d.kind? = some .data) :
    (c.effect n now).1.nextDeadline? ≠ none := by
  obtain ⟨source, bytes, rfl⟩ := h.exists_arrival hc hd
  rcases sent_arrival_cases hd with hack | ⟨m, g, -, hmem, hlinks⟩
  · rw [hack] at hkind
    cases hkind
  · have hprotocol := Links.nextDeadline?_performAll_ne_none ⟨d, hmem, hkind⟩
    rw [← hlinks, ← Stack.nextDeadline?_eq] at hprotocol
    obtain ⟨deadline, hdeadline⟩ := Option.ne_none_iff_exists'.mp hprotocol
    rw [Node.nextDeadline?, hdeadline]
    cases (Cause.effect (.arrival source bytes) n now).1.detector.bind Detector.nextDeadline? <;>
      exact Option.some_ne_none _

/-- Links by themselves send no data in answer to what lands, and no protocol does if what lands is
no data. -/
theorem Idle.sent_of_quiet (hquiet : s = .links ∨ ¬ BringsData c) (h : n.Idle) (hc : Lands c)
    (hd : d ∈ (n.stimulus c).sent n.protocol now) : d.kind? ≠ some .data := by
  obtain ⟨source, bytes, rfl⟩ := h.exists_arrival hc hd
  rcases sent_arrival_cases hd with hack | ⟨m, g, hm, hmem, -⟩
  · rw [hack]
    nofun
  · have hnone : Linked.messageOrders n.protocol m.sender m = [] := by
      rcases hquiet with rfl | hquiet
      · rfl
      · exact List.eq_nil_iff_forall_not_mem.mpr fun o ho =>
          hquiet (kind?_of_mem_messageOrders hm ho)
    rw [hnone] at hmem
    cases hmem

end

/-! ## After the stop -/

/-- A node never has a deadline, and never sends anything as time passes. -/
def Silent {π : Type} [Protocol π] (n : Node π) : List (Cause (Node π) × Nat) → Prop
  | [] => n.nextDeadline? = none
  | (c, now) :: landing =>
    n.nextDeadline? = none ∧ (c = .input .timeout → (n.onTimeout now).2.sent = []) ∧
      (c.effect n now).1.Silent landing

theorem Silent.nextDeadline? {π : Type} [Protocol π] {n : Node π}
    {landing : List (Cause (Node π) × Nat)} (h : n.Silent landing) : n.nextDeadline? = none := by
  cases landing with
  | nil => exact h
  | cons c landing => exact h.1

section

variable {s : Stack} {n : Node s.State} {landing : List (Cause (Node s.State) × Nat)}

theorem spoken_cons (n : Node s.State) (c : Cause (Node s.State) × Nat) :
    n.spoken (c :: landing) =
      (n.stimulus c.1).sent n.protocol c.2 ++ (c.1.effect n c.2).1.spoken landing := rfl

/-- **A node without a timer stays silent exactly as long as its protocol sends no data.** -/
theorem Idle.silent_iff (h : n.Idle) (hlands : ∀ c ∈ landing, Lands c.1) :
    n.Silent landing ↔ ∀ d ∈ n.spoken landing, d.kind? ≠ some .data := by
  induction landing generalizing n with
  | nil =>
    constructor
    · intro _ d hd
      cases hd
    · intro _
      exact h.nextDeadline?
  | cons c landing ih =>
    obtain ⟨hc, hrest⟩ := List.forall_mem_cons.mp hlands
    rw [spoken_cons, List.forall_mem_append]
    by_cases hdata : ∀ d ∈ (n.stimulus c.1).sent n.protocol c.2, d.kind? ≠ some .data
    · have hnext := ih (h.effect hc hdata) hrest
      constructor
      · intro hsilent
        exact ⟨hdata, hnext.mp hsilent.2.2⟩
      · intro hboth
        refine ⟨h.nextDeadline?, fun _ => ?_, hnext.mpr hboth.2⟩
        rw [h.onTimeout]
        rfl
    · refine iff_of_false (fun hsilent => hdata fun d hd hkind => ?_) fun hboth => hdata hboth.1
      exact h.nextDeadline?_ne_none hc hd hkind hsilent.2.2.nextDeadline?

theorem Idle.spoken_of_quiet (hquiet : s = .links ∨ ∀ c ∈ landing, ¬ BringsData c.1) (h : n.Idle)
    (hlands : ∀ c ∈ landing, Lands c.1) : ∀ d ∈ n.spoken landing, d.kind? ≠ some .data := by
  induction landing generalizing n with
  | nil =>
    intro d hd
    cases hd
  | cons c landing ih =>
    obtain ⟨hc, hrest⟩ := List.forall_mem_cons.mp hlands
    have hfirst := hquiet.imp_right fun hq => hq c List.mem_cons_self
    have hdata : ∀ d ∈ (n.stimulus c.1).sent n.protocol c.2, d.kind? ≠ some .data :=
      fun d hd => h.sent_of_quiet hfirst hc hd
    rw [spoken_cons, List.forall_mem_append]
    exact ⟨hdata, ih (hquiet.imp_right fun hq c' hc' => hq c' (List.mem_cons_of_mem c hc'))
      (h.effect hc hdata) hrest⟩

end

end Node

namespace Stack

variable {s : Stack} {self : HostId} {hosts : Hosts} {hs : List Host} {tuning : Tuning}
  {watching : Option Tuning} {n : Node s.State}

/-- **After it has been stopped a node stays silent exactly as long as nothing that lands makes it
send data.**  With links by themselves this is always so, and with any protocol as long as no data
lands. -/
theorem silent_after_stop_iff (hhosts : Hosts.ofList hs = .ok hosts)
    (hnode : s.node self hosts tuning watching = some n) (run : List (Cause (Node s.State) × Nat))
    {landing : List (Cause (Node s.State) × Nat)} (hlands : ∀ c ∈ landing, Node.Lands c.1) :
    ((n.after run).stop.Silent landing ↔
      ∀ d ∈ (n.after run).stop.emitted landing, d.kind? ≠ some .data) ∧
    (s = .links ∨ (∀ c ∈ landing, ¬ Node.BringsData c.1) →
      (n.after run).stop.Silent landing) := by
  have hlawful := Hosts.lawful_ofList hhosts
  have hidle := (n.after run).idle_stop
  have hiff := hidle.silent_iff hlands
  have hwatched : ∀ o ∈ (n.after run).stop.steps landing, ∀ d ∈ o.watch.sent,
      d.kind? ≠ some .data := by
    intro o ho d hd hkind
    have hsteps : o ∈ n.steps (run ++ (.input .stop, 0) :: landing) := by
      rw [Node.steps_append]
      exact List.mem_append_right _ (List.mem_cons_of_mem _ ho)
    have hcontrol := (separate_of_run hlawful hnode _ o hsteps).watched d hd
    rw [Datagram.isControl?, hkind] at hcontrol
    cases hcontrol
  constructor
  · rw [hiff]
    constructor
    · intro hdata d hd
      rcases Node.mem_emitted_iff.mp hd with hspoken | ⟨o, ho, hmem⟩
      · exact hdata d hspoken
      · exact hwatched o ho d hmem
    · intro hdata d hd
      exact hdata d (Node.mem_emitted_iff.mpr (Or.inl hd))
  · intro hquiet
    exact hiff.mpr (hidle.spoken_of_quiet hquiet hlands)

/-- What lands at a node that has been stopped: an acknowledgement and a heartbeat.  Then time
passes. -/
def quietLanding : List (Cause (Node (State .uniform)) × Nat) :=
  [ (.arrival .second (Message.encode ⟨.ack, 2, 1, 1, 1, Bytes.ofWord 1⟩), 210),
    (.arrival .second (Message.encode ⟨.heartbeat, 2, 1, 2, 0, []⟩), 211),
    (.input .timeout, 900) ]

/-- The heartbeat is answered, and that is all. -/
theorem silent_after_stop_iff_quietLanding :
    (Hosts.ofList [.first, .second] = .ok .pair ∧
      node .uniform 1 .pair {} (some {}) = some mixedNode ∧
      (∀ c ∈ quietLanding, Node.Lands c.1) ∧
      ((mixedNode.after busyRun).stop.emitted quietLanding).map Datagram.kind? =
        [some .heartbeatAck]) ∧
    (mixedNode.after busyRun).stop.Silent quietLanding := by
  have hnode : node .uniform 1 .pair {} (some {}) = some mixedNode := rfl
  have hlands : ∀ c ∈ quietLanding, Node.Lands c.1 := by simp [quietLanding, Node.Lands]
  have hsilent := (silent_after_stop_iff Hosts.ofList_pair hnode busyRun hlands).1
  exact ⟨⟨Hosts.ofList_pair, hnode, hlands, by decide +kernel⟩, hsilent.mpr (by decide +kernel)⟩

/-- What lands at a node that has been stopped before it has heard of a broadcast of the second
host: that host's envelope.  Then time passes. -/
def lateEnvelope : List (Cause (Node (State .uniform)) × Nat) :=
  [ (.arrival .second
      (Message.encode ⟨.data, 2, 1, 1, 1, Message.encode ⟨.data, 2, 0, 1, 1, [8]⟩⟩), 1),
    (.input .timeout, 101) ]

/-- The node relays the message in the envelope, and goes on sending it. -/
theorem not_silent_lateEnvelope :
    (Hosts.ofList [.first, .second] = .ok .pair ∧
      node .uniform 1 .pair {} none = some plainNode ∧
      ∀ c ∈ lateEnvelope, Node.Lands c.1) ∧
    ((((plainNode.after [(.input .start, 0)]).stop.after (lateEnvelope.take 1)).onTimeout
      101).2.sent.map Datagram.kind? = [some .data, some .data]) ∧
    ¬ (plainNode.after [(.input .start, 0)]).stop.Silent lateEnvelope := by
  have hsent : (((plainNode.after [(.input .start, 0)]).stop.after (lateEnvelope.take 1)).onTimeout
      101).2.sent.map Datagram.kind? = [some .data, some .data] := by decide +kernel
  refine ⟨⟨Hosts.ofList_pair, rfl, by simp [lateEnvelope, Node.Lands]⟩, hsent, ?_⟩
  rintro ⟨-, -, -, hmute, -⟩
  rw [show (((plainNode.after [(.input .start, 0)]).stop.after (lateEnvelope.take 1)).onTimeout
    101).2.sent = [] from hmute rfl] at hsent
  cases hsent

end Stack

end Groupcast
