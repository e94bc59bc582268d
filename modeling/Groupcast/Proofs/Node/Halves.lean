import Groupcast.Proofs.Detector.Traffic
import Groupcast.Proofs.Node.Stack

/-!
# The two halves of a node

A node is a protocol and, if wanted, a failure detector.  They share its inputs and its wire and
nothing else: a step of the node is a stimulus of the protocol (`Node.stimulus`) beside a call of
the detector (`Node.call?`), and what the node becomes and gives out is put together from what they
become and give out (`effect_eq`, `Occurrence.output_eq`).

In a run the detector therefore does what it would do by itself, given the calls that the run makes
(`detector_after`).  Either half uses its own links in the node's own name, the protocol for data
and acknowledgements and the detector for control traffic (`driven_protocol`,
`Detector.driven_after`).
-/

namespace Groupcast

open PerfectLink (Move)

namespace Detector

/-- Does what it is called for, if there is a detector and if it is called at all. -/
def heed (d : Option Detector) (c : Option Call) (now : Nat) :
    Step (Option Detector) (List Suspicion) :=
  match d, c with
  | some d, some c =>
    ⟨some (d.effect c now).state, (d.effect c now).sent, (d.effect c now).result⟩
  | d, _ => ⟨d, [], []⟩

end Detector

namespace Node

variable {π : Type} [Protocol π]

/-! ## A step of a node -/

/-- What a protocol emits. -/
def Stimulus.sent (st : Stimulus π) (p : π) (now : Nat) : List Datagram :=
  match st with
  | none | stop => []
  | timeout => (Protocol.onTimeout p now).sent
  | command c =>
    match Protocol.onCommand p c now with
    | .ok step => step.sent
    | .error _ => []
  | message m => (Protocol.onMessage p m.sender m now).sent

/-- What a step of a node comes to for its detector: commands, and what is no control traffic of the
member at its source, do not reach it. -/
def call? (n : Node π) (c : Cause (Node π)) : Option Detector.Call :=
  match c with
  | .input .start => some .start
  | .input .stop => some .stop
  | .input .timeout => some .timeout
  | .input (.command _) => none
  | .arrival source bytes =>
    match n.identify source.address bytes with
    | none => none
    | some m => if m.kind.isControl then some (.deliver m.sender m) else none

variable {n : Node π}

/-- What comes in can only be taken in, as a message in its sender's name. -/
theorem deliver_of_call? {source : Host} {bytes : Bytes} {call : Detector.Call}
    (h : n.call? (.arrival source bytes) = some call) :
    ∃ m : Message, call = .deliver m.sender m ∧ m.kind.isControl = true := by
  simp only [call?] at h
  split at h
  · cases h
  · rename_i m _
    split at h
    · rename_i hcontrol
      cases h
      exact ⟨m, rfl, hcontrol⟩
    · cases h

/-- A node takes in only messages in their senders' names. -/
theorem genuine_of_call? {c : Cause (Node π)} {call : Detector.Call} (h : n.call? c = some call) :
    call.Genuine := by
  rintro sender m rfl
  cases c with
  | input i => cases i <;> cases h
  | arrival source bytes =>
    obtain ⟨m', heq, hcontrol⟩ := deliver_of_call? h
    cases heq
    exact ⟨hcontrol, rfl⟩

/-- Of what comes in a protocol takes in messages, and nothing else. -/
theorem stimulus_arrival (n : Node π) (source : Host) (bytes : Bytes) :
    n.stimulus (.arrival source bytes) = .none ∨
      ∃ m, n.stimulus (.arrival source bytes) = .message m := by
  simp only [stimulus]
  split
  · exact Or.inl rfl
  · rename_i m _
    split
    · exact Or.inl rfl
    · exact Or.inr ⟨m, rfl⟩

/-- What a protocol takes in is no control traffic. -/
theorem isControl_of_stimulus {c : Cause (Node π)} {m : Message} (h : n.stimulus c = .message m) :
    m.kind.isControl = false := by
  obtain ⟨-, -, -, -, hcontrol⟩ := arrival_of_stimulus h
  exact hcontrol

end Node

namespace Occurrence

variable {π : Type} [Protocol π]

/-- The node after a step. -/
def after (o : Occurrence (Node π)) : Node π := (o.cause.effect o.before o.now).1

/-- What the protocol emits in a step. -/
def spoken (o : Occurrence (Node π)) : List Datagram :=
  (o.before.stimulus o.cause).sent o.before.protocol o.now

/-- What the detector does in a step. -/
def watch (o : Occurrence (Node π)) : Step (Option Detector) (List Suspicion) :=
  Detector.heed o.before.detector (o.before.call? o.cause) o.now

/-- Why a node refuses a command, if it does. -/
def refusal (o : Occurrence (Node π)) : Option CommandError :=
  match o.cause with
  | .input (.command c) =>
    match o.before.onCommand c o.now with
    | .ok _ => none
    | .error e => some e
  | .input .start | .input .stop | .input .timeout | .arrival _ _ => none

/-- **A step of a node is a step of its protocol and one of its detector, side by side.** -/
theorem after_output_eq (o : Occurrence (Node π)) :
    o.after = { o.before with
        protocol := ((o.before.stimulus o.cause).apply o.before.protocol o.now).1
        detector := o.watch.state } ∧
      o.output = ⟨o.spoken ++ o.watch.sent,
        ((o.before.stimulus o.cause).apply o.before.protocol o.now).2, o.watch.result⟩ := by
  obtain ⟨member, ⟨host, hosts, p, d⟩, c, now⟩ := o
  cases c with
  | input i =>
    cases i with
    | start | stop => cases d <;> exact ⟨rfl, rfl⟩
    | timeout =>
      cases d with
      | none => exact ⟨rfl, congrArg (Output.mk · [] []) (List.append_nil _).symm⟩
      | some d => exact ⟨rfl, rfl⟩
    | command c =>
      simp only [after, output, spoken, watch, Cause.effect, Member.act, Node.act, Node.onCommand,
        Node.stimulus, Node.Stimulus.apply, Node.Stimulus.sent, Node.call?]
      cases Protocol.onCommand p c now <;> simp [Detector.heed, Output.empty]
  | arrival source bytes =>
    simp only [after, output, spoken, watch, Cause.effect, Member.receive, Node.onDatagram,
      Node.stimulus, Node.call?]
    cases Node.identify ⟨host, hosts, p, d⟩ source.address bytes with
    | none =>
      simp [Detector.heed, Output.empty, Node.Stimulus.apply, Node.Stimulus.sent]
    | some m =>
      by_cases hcontrol : m.kind.isControl = true
      · simp only [Node.onMessage, if_pos hcontrol]
        cases d with
        | none => exact ⟨rfl, rfl⟩
        | some d => exact ⟨rfl, rfl⟩
      · simp only [Node.onMessage, if_neg hcontrol]
        simp [Detector.heed, Node.Stimulus.apply, Node.Stimulus.sent]

theorem output_eq (o : Occurrence (Node π)) :
    o.output = ⟨o.spoken ++ o.watch.sent,
      ((o.before.stimulus o.cause).apply o.before.protocol o.now).2, o.watch.result⟩ :=
  o.after_output_eq.2

end Occurrence

namespace Node

/-! ## Runs of a node -/

section

variable {π : Type} [Protocol π] {n : Node π}

/-- The node after a run of steps, each with its time.  Of the host that a datagram comes from only
the address counts, so that datagrams can come from anywhere. -/
def after (n : Node π) : List (Cause (Node π) × Nat) → Node π
  | [] => n
  | (c, now) :: run => (c.effect n now).1.after run

/-- The steps of a run. -/
def steps (n : Node π) : List (Cause (Node π) × Nat) → List (Occurrence (Node π))
  | [] => []
  | (c, now) :: run => ⟨n.host.id, n, c, now⟩ :: (c.effect n now).1.steps run

/-- All that a node emits in a run. -/
def emitted (n : Node π) (run : List (Cause (Node π) × Nat)) : List Datagram :=
  (n.steps run).flatMap fun o => o.output.sent

/-- All that the protocol of a node emits in a run. -/
def spoken (n : Node π) (run : List (Cause (Node π) × Nat)) : List Datagram :=
  (n.steps run).flatMap Occurrence.spoken

/-- What a run of a node comes to for its detector. -/
def calls (n : Node π) (run : List (Cause (Node π) × Nat)) : List (Detector.Call × Nat) :=
  run.filterMap fun c => (n.call? c.1).map (·, c.2)

theorem effect_eq (n : Node π) (c : Cause (Node π)) (now : Nat) :
    (c.effect n now).1 = { n with
      protocol := ((n.stimulus c).apply n.protocol now).1
      detector := (Detector.heed n.detector (n.call? c) now).state } :=
  (Occurrence.after_output_eq ⟨n.host.id, n, c, now⟩).1

@[simp] theorem hosts_effect (n : Node π) (c : Cause (Node π)) (now : Nat) :
    (c.effect n now).1.hosts = n.hosts := by
  rw [effect_eq]

theorem steps_append (n : Node π) (run run' : List (Cause (Node π) × Nat)) :
    n.steps (run ++ run') = n.steps run ++ (n.after run).steps run' := by
  induction run generalizing n with
  | nil => rfl
  | cons c run ih => exact congrArg (_ :: ·) (ih _)

omit [Protocol π] in
/-- Who is heard depends on the host table alone. -/
theorem identify_congr {π' : Type} {n' : Node π'} (h : n'.hosts = n.hosts) (source : Address)
    (bytes : Bytes) : n'.identify source bytes = n.identify source bytes := by
  unfold identify
  rw [h]

theorem call?_congr {n' : Node π} (h : n'.hosts = n.hosts) (c : Cause (Node π)) :
    n'.call? c = n.call? c := by
  unfold call?
  simp only [identify_congr h]

theorem stimulus_congr {n' : Node π} (h : n'.hosts = n.hosts) (c : Cause (Node π)) :
    n'.stimulus c = n.stimulus c := by
  unfold stimulus
  simp only [identify_congr h]

theorem calls_congr {n' : Node π} (h : n'.hosts = n.hosts) (run : List (Cause (Node π) × Nat)) :
    n'.calls run = n.calls run := by
  unfold calls
  simp only [call?_congr h]

theorem calls_cons (n : Node π) (c : Cause (Node π) × Nat) (run : List (Cause (Node π) × Nat)) :
    n.calls (c :: run) = ((n.call? c.1).map (·, c.2)).toList ++ n.calls run := by
  unfold calls
  cases h : n.call? c.1 <;> simp [h]

/-- **In a run the detector of a node does what it would do by itself.** -/
theorem detector_after {d : Detector} (hd : n.detector = some d)
    (run : List (Cause (Node π) × Nat)) :
    (n.after run).detector = some (d.after (n.calls run)) ∧
      ((n.steps run).flatMap fun o => o.watch.sent) = d.emitted (n.calls run) ∧
      ((n.steps run).flatMap fun o => o.watch.result) = d.reports (n.calls run) := by
  induction run generalizing n d with
  | nil => exact ⟨hd, rfl, rfl⟩
  | cons c run ih =>
    rw [calls_cons, ← calls_congr (hosts_effect n c.1 c.2)]
    simp only [after, steps, List.flatMap_cons, Occurrence.watch, hd]
    have hnext : (c.1.effect n c.2).1.detector =
        (Detector.heed (some d) (n.call? c.1) c.2).state := by
      rw [effect_eq, hd]
    cases hcall : n.call? c.1 with
    | none =>
      rw [hcall] at hnext
      exact ih hnext
    | some call =>
      rw [hcall] at hnext
      obtain ⟨hafter, hsent, hresult⟩ := ih hnext
      exact ⟨hafter, congrArg (_ ++ ·) hsent, congrArg (_ ++ ·) hresult⟩

/-- A node without a detector stays without one. -/
theorem detector_after_none (hd : n.detector = none) (run : List (Cause (Node π) × Nat)) :
    (n.after run).detector = none ∧ ∀ o ∈ n.steps run, o.watch.sent = [] := by
  induction run generalizing n with
  | nil => exact ⟨hd, nofun⟩
  | cons c run ih =>
    have hnext : (c.1.effect n c.2).1.detector = none := by
      rw [effect_eq, hd]
      rfl
    obtain ⟨hafter, hsent⟩ := ih hnext
    refine ⟨hafter, List.forall_mem_cons.mpr ⟨?_, hsent⟩⟩
    simp only [Occurrence.watch, hd]
    rfl

theorem genuine_calls (n : Node π) (run : List (Cause (Node π) × Nat)) :
    ∀ c ∈ n.calls run, c.1.Genuine := by
  intro c hc
  obtain ⟨c', -, h⟩ := List.mem_filterMap.mp hc
  obtain ⟨call, hcall, rfl⟩ := Option.map_eq_some_iff.mp h
  exact genuine_of_call? hcall

theorem mem_emitted_iff {d : Datagram} {run : List (Cause (Node π) × Nat)} :
    d ∈ n.emitted run ↔ d ∈ n.spoken run ∨ ∃ o ∈ n.steps run, d ∈ o.watch.sent := by
  simp only [emitted, spoken, List.mem_flatMap, Occurrence.output_eq, List.mem_append]
  constructor
  · rintro ⟨o, ho, hd | hd⟩
    · exact Or.inl ⟨o, ho, hd⟩
    · exact Or.inr ⟨o, ho, hd⟩
  · rintro (⟨o, ho, hd⟩ | ⟨o, ho, hd⟩)
    · exact ⟨o, ho, Or.inl hd⟩
    · exact ⟨o, ho, Or.inr hd⟩

end

section

variable {s : Stack} {n : Node s.State} {owner : HostId} {now : Nat}

/-- A protocol uses its links for data and acknowledgements in its owner's name. -/
theorem driven_apply {p : s.State} (hself : (Linked.links p).self = owner)
    {st : Stimulus s.State} (hst : ∀ m, st = .message m → m.kind.isControl = false) (now : Nat) :
    Links.Driven (fun id mv => mv.InName false owner id) (Linked.links p)
      (Linked.links (st.apply p now).1, st.sent p now) := by
  have horders : ∀ {g : Links} {os : List Order}, (∀ o ∈ os, o.Own (Linked.links p).self) →
      Links.Driven (fun id mv => mv.InName false owner id) g (g.performAll now os) := by
    intro g os hos
    refine Links.driven_performAll (fun _ => trivial) fun o ho id => ?_
    obtain ⟨hkind, hsender⟩ := hos o ho
    exact ⟨by rw [hkind]; rfl, hsender.trans hself⟩
  cases st with
  | none => exact .nil _
  | stop =>
    show Links.Driven _ _ (Linked.links (Protocol.stop p), [])
    rw [Linked.links_stop]
    exact Links.driven_stop fun _ => trivial
  | timeout =>
    show Links.Driven _ _
      (Linked.links (Protocol.onTimeout p now).state, (Protocol.onTimeout p now).sent)
    rw [Linked.onTimeout_eq]
    exact Links.driven_onTimeout fun _ => trivial
  | command c =>
    simp only [Stimulus.apply, Stimulus.sent]
    cases hstep : Protocol.onCommand p c now with
    | error e => exact .nil _
    | ok step =>
      show Links.Driven _ _ (Linked.links step.state, step.sent)
      rw [Linked.onCommand_ok hstep]
      exact horders fun o ho => Stack.own_commandOrders ho
  | message m =>
    show Links.Driven _ _ (Linked.links (Protocol.onMessage p m.sender m now).state,
      (Protocol.onMessage p m.sender m now).sent)
    rw [Linked.onMessage_eq]
    exact .trans (Links.driven_deliver (fun _ => trivial) ⟨hst m rfl, rfl⟩)
      (horders fun o ho => Stack.own_messageOrders ho)

/-- **In a run the protocol of a node uses its links for data and acknowledgements in the node's
own name.** -/
theorem driven_protocol (hself : (Linked.links n.protocol).self = owner)
    (run : List (Cause (Node s.State) × Nat)) :
    Links.Driven (fun id mv => mv.InName false owner id) (Linked.links n.protocol)
      (Linked.links (n.after run).protocol, n.spoken run) := by
  induction run generalizing n with
  | nil => exact .nil _
  | cons c run ih =>
    have hstep := driven_apply hself (fun m hm => isControl_of_stimulus (n := n) (c := c.1) hm) c.2
    have hself' : (Linked.links (c.1.effect n c.2).1.protocol).self = owner := by
      rw [protocol_effect]
      exact hstep.self_eq.trans hself
    have hrest := ih hself'
    rw [protocol_effect] at hrest
    exact hstep.trans hrest

end

end Node

/-! ## Runs from the start -/

namespace Stack

variable {s : Stack} {self : HostId} {hosts : Hosts} {tuning : Tuning} {watching : Option Tuning}
  {n : Node s.State}

/-- What the node of a member is at the start. -/
theorem of_node (h : s.node self hosts tuning watching = some n) :
    hosts.get? self = some n.host ∧ n.hosts = hosts ∧
      n.protocol = s.ofHosts self hosts tuning ∧
      n.detector = watching.map (.ofHosts self hosts) := by
  obtain ⟨host, hget, rfl⟩ := Option.map_eq_some_iff.mp h
  exact ⟨hget, rfl, rfl, rfl⟩

/-- What the links of a protocol go through from the start. -/
theorem driven_spoken (h : s.node self hosts tuning watching = some n)
    (run : List (Cause (Node s.State) × Nat)) :
    Links.Driven (fun id mv => mv.InName false self id) (.ofHosts self hosts tuning)
      (Linked.links (n.after run).protocol, n.spoken run) := by
  have hlinks : Linked.links n.protocol = .ofHosts self hosts tuning := by
    rw [(of_node h).2.2.1, links_ofHosts]
  rw [← hlinks]
  refine Node.driven_protocol ?_ run
  rw [hlinks]
  rfl

/-- What the links of a detector go through from the start. -/
theorem driven_emitted (n : Node s.State) (run : List (Cause (Node s.State) × Nat)) (t : Tuning) :
    Links.Driven (fun id mv => mv.InName true self id) (Detector.ofHosts self hosts t).links
      (((Detector.ofHosts self hosts t).after (n.calls run)).links,
        (Detector.ofHosts self hosts t).emitted (n.calls run)) :=
  Detector.driven_after (d := .ofHosts self hosts t) rfl (n.genuine_calls run)

/-- **Whatever happens to a node, all that it emits is in its own name**: data and acknowledgements
if its protocol emits it, and control traffic if its detector does. -/
theorem inName_of_run (hlawful : hosts.Lawful) (h : s.node self hosts tuning watching = some n)
    (run : List (Cause (Node s.State) × Nat)) {o : Occurrence (Node s.State)}
    (ho : o ∈ n.steps run) :
    (∀ d ∈ o.spoken, d.InName false self hosts) ∧
      ∀ d ∈ o.watch.sent, d.InName true self hosts := by
  obtain ⟨-, -, -, hdetector⟩ := of_node h
  constructor
  · intro d hd
    have hspeaks : (Links.ofHosts self hosts tuning).Speaks false self hosts :=
      Links.speaks_toPeers hlawful (List.Sublist.refl hosts.toList) tuning
    exact (hspeaks.driven hlawful (driven_spoken h run)).2 d (List.mem_flatMap.mpr ⟨o, ho, hd⟩)
  · intro d hd
    cases watching with
    | none =>
      rw [(Node.detector_after_none hdetector run).2 o ho] at hd
      cases hd
    | some t =>
      have hspeaks : (Detector.ofHosts self hosts t).links.Speaks true self hosts :=
        Links.speaks_toPeers hlawful List.filter_sublist t
      refine (hspeaks.driven hlawful (driven_emitted n run t)).2 d ?_
      rw [← (Node.detector_after hdetector run).2.1]
      exact List.mem_flatMap.mpr ⟨o, ho, hd⟩

end Stack

end Groupcast
