import Groupcast.Node
import Groupcast.Proofs.Detector
import Groupcast.Proofs.Link.Batch

/-!
# Nodes as members

A node does four things from within: it starts, stops, meets a command, or does what is due.  Its
protocol sits on links (`Linked`): whatever happens to the protocol, its links are given orders to
send, and before that may take in a message.  Seen from its links, a step of a node is therefore a
short list of steps of the links (`Node.causes`), and this is all there is to it apart from control
traffic (`links_effect`, `mem_effect_iff`).
-/

namespace Groupcast

/-- Carries out orders one after the other. -/
def Links.performAll (g : Links) (now : Nat) (os : List Order) : Links × List Datagram :=
  g.run now (os.map fun o => .input (.order o))

theorem Links.performAll_singleton (g : Links) (now : Nat) (o : Order) :
    g.performAll now [o] = g.perform o now :=
  Prod.ext rfl (List.append_nil _)

theorem Links.mem_map_order {os : List Order} {o : Order} :
    (.input (.order o) : Cause Links) ∈ (os.map fun o => .input (.order o)) ↔ o ∈ os := by
  rw [List.mem_map]
  constructor
  · rintro ⟨o', ho', heq⟩
    cases heq
    exact ho'
  · intro ho
    exact ⟨o, ho, rfl⟩

/-- A protocol that does all its sending over links. -/
class Linked (π : Type) [Protocol π] where
  /-- The protocol of a member, before anything has happened. -/
  ofHosts : HostId → Hosts → Tuning → π
  links : π → Links
  /-- What the links are to send when a command is met. -/
  commandOrders : (p : π) → Protocol.Command π → List Order
  /-- What the links are to send in answer to a message of a member. -/
  messageOrders : (p : π) → HostId → Message → List Order
  links_ofHosts : ∀ id hosts tuning, links (ofHosts id hosts tuning) = .ofHosts id hosts tuning
  onCommand_ok : ∀ {p : π} {c : Protocol.Command π} {now : Nat} {step : Step π (List Event)},
    Protocol.onCommand p c now = .ok step →
      (links step.state, step.sent) = (links p).performAll now (commandOrders p c)
  onCommand_error : ∀ {p : π} {c : Protocol.Command π} {now : Nat} {e : CommandError},
    Protocol.onCommand p c now = .error e → commandOrders p c = []
  onMessage_eq : ∀ (p : π) (sender : HostId) (m : Message) (now : Nat),
    (links (Protocol.onMessage p sender m now).state, (Protocol.onMessage p sender m now).sent) =
      ((((links p).deliver sender m).state.performAll now (messageOrders p sender m)).1,
        ((links p).deliver sender m).sent ++
          (((links p).deliver sender m).state.performAll now (messageOrders p sender m)).2)
  onTimeout_eq : ∀ (p : π) (now : Nat),
    (links (Protocol.onTimeout p now).state, (Protocol.onTimeout p now).sent) =
      (((links p).onTimeout now).state, ((links p).onTimeout now).sent)
  links_stop : ∀ p : π, links (Protocol.stop p) = (links p).stop

namespace Node

variable {π : Type}

/-! ## Nodes at the start -/

/-- The node of a member before anything has happened, with a failure detector or without.  What
stands for the node of a host outside the group is immaterial (`System.Alike`). -/
def fresh (make : HostId → Hosts → Tuning → π) (hosts : Hosts) (tuning : Tuning) (watches : Bool)
    (id : HostId) : Node π where
  host := (hosts.get? id).getD ⟨id, ⟨.v4 ⟨0, 0, 0, 0⟩, 0⟩⟩
  hosts := hosts
  protocol := make id hosts tuning
  detector := if watches then some (.ofHosts id hosts tuning) else none

variable {make : HostId → Hosts → Tuning → π} {hosts : Hosts} {tuning : Tuning} {watches : Bool}
  {id : HostId}

/-- For a member, this is the node that its host table makes. -/
theorem ofHosts_eq_fresh (h : hosts.contains id = true) :
    ofHosts id hosts (make id hosts tuning)
      (if watches then some (.ofHosts id hosts tuning) else none) =
        some (fresh make hosts tuning watches id) := by
  obtain ⟨host, hget⟩ := Hosts.get?_of_contains h
  rw [ofHosts, hget, fresh, hget]
  rfl

/-- What always holds of a node: it knows the group, and its detector keeps to control traffic. -/
structure Tidy (n : Node π) (hosts : Hosts) : Prop where
  hosts_eq : n.hosts = hosts
  quiet : ∀ d, n.detector = some d → d.links.Quiet

theorem tidy_fresh : (fresh make hosts tuning watches id).Tidy hosts where
  hosts_eq := rfl
  quiet d hd := by
    simp only [fresh] at hd
    split at hd
    · cases hd
      exact Detector.quiet_ofHosts id hosts tuning
    · cases hd

/-- A node takes in a datagram of a member only under that member's own number. -/
theorem Tidy.identify {n : Node π} (h : n.Tidy hosts) (hlawful : hosts.Lawful) {source : Host}
    (hsource : hosts.get? source.id = some source) {bytes : Bytes} {m : Message}
    (hm : n.identify source.address bytes = some m) : bytes = m.encode ∧ m.sender = source.id := by
  simp only [Node.identify, Hosts.identify, h.hosts_eq, hlawful.at?_address hsource] at hm
  split at hm
  · rename_i m' hdecode
    split at hm
    · rename_i hsome
      cases hm
      refine ⟨Message.decode_eq_ok_iff.mp hdecode, ?_⟩
      obtain ⟨host, hhost⟩ := Option.isSome_iff_exists.mp hsome
      obtain ⟨heq, hid⟩ := Option.filter_eq_some_iff.mp hhost
      cases heq
      exact (of_decide_eq_true hid).symm
    · cases hm
  · cases hm

/-! ## Steps of a node -/

variable [Protocol π]

/-- What a node can be asked to do from within. -/
inductive Input (π : Type) [Protocol π] where
  | start
  | stop
  | command (c : Protocol.Command π)
  | timeout

/-- Does what it is asked.  A command that cannot be met changes nothing. -/
def act (n : Node π) (i : Input π) (now : Nat) : Node π × Output :=
  match i with
  | .start => (n.start now, .empty)
  | .stop => (n.stop, .empty)
  | .command c =>
    match n.onCommand c now with
    | .ok r => r
    | .error _ => (n, .empty)
  | .timeout => n.onTimeout now

instance : Member (Node π) where
  Input := Input π
  act n i now := ((n.act i now).1, (n.act i now).2.sent)
  receive n source bytes now :=
    ((n.onDatagram source.address bytes now).1, (n.onDatagram source.address bytes now).2.sent)

/-- What a step of a node comes to for its protocol. -/
inductive Stimulus (π : Type) [Protocol π] where
  | none
  | stop
  | timeout
  | command (c : Protocol.Command π)
  /-- A message of a member, which its header names. -/
  | message (m : Message)

/-- What a step of a node comes to for its protocol: control traffic, and what is no message of the
member at its source, does not reach it. -/
def stimulus (n : Node π) (c : Cause (Node π)) : Stimulus π :=
  match c with
  | .input .start => .none
  | .input .stop => .stop
  | .input (.command c) => .command c
  | .input .timeout => .timeout
  | .arrival source bytes =>
    match n.identify source.address bytes with
    | Option.none => .none
    | some m => if m.kind.isControl then .none else .message m

/-- What a protocol becomes, and what it reports. -/
def Stimulus.apply (st : Stimulus π) (p : π) (now : Nat) : π × List Event :=
  match st with
  | none => (p, [])
  | stop => (Protocol.stop p, [])
  | timeout => ((Protocol.onTimeout p now).state, [])
  | command c =>
    match Protocol.onCommand p c now with
    | .ok step => (step.state, step.result)
    | .error _ => (p, [])
  | message m =>
    ((Protocol.onMessage p m.sender m now).state, (Protocol.onMessage p m.sender m now).result)

variable {n : Node π}

/-- What reaches the protocol of a node is what comes in, is a message of the member at its source,
and is no control traffic. -/
theorem arrival_of_stimulus {c : Cause (Node π)} {m : Message} (h : n.stimulus c = .message m) :
    ∃ source bytes, c = .arrival source bytes ∧ n.identify source.address bytes = some m ∧
      m.kind.isControl = false := by
  cases c with
  | input i => cases i <;> cases h
  | arrival source bytes =>
    simp only [stimulus] at h
    split at h
    · cases h
    · rename_i hidentify
      split at h
      · cases h
      · rename_i hcontrol
        cases h
        exact ⟨source, bytes, rfl, hidentify, Bool.eq_false_iff.mpr hcontrol⟩

/-- A message that reaches the protocol of a node has been put on the wire by its sender. -/
theorem stimulus_eq_message (h : n.Tidy hosts) (hlawful : hosts.Lawful) {c : Cause (Node π)}
    (hc : ∀ source bytes, c = .arrival source bytes → hosts.get? source.id = some source)
    {m : Message} (hm : n.stimulus c = .message m) : m.kind.isControl = false ∧
      ∃ source, c = .arrival source m.encode ∧ m.sender = source.id := by
  obtain ⟨source, bytes, rfl, hidentify, hcontrol⟩ := arrival_of_stimulus hm
  obtain ⟨rfl, hsender⟩ := h.identify hlawful (hc source bytes rfl) hidentify
  exact ⟨hcontrol, source, rfl, hsender⟩

theorem protocol_effect (n : Node π) (c : Cause (Node π)) (now : Nat) :
    (c.effect n now).1.protocol = ((n.stimulus c).apply n.protocol now).1 := by
  cases c with
  | input i =>
    cases i with
    | start | stop => rfl
    | command c =>
      show (n.act (.command c) now).1.protocol = _
      simp only [act, onCommand, stimulus, Stimulus.apply]
      cases Protocol.onCommand n.protocol c now <;> rfl
    | timeout =>
      show (n.onTimeout now).1.protocol = _
      simp only [onTimeout]
      cases n.detector <;> rfl
  | arrival source bytes =>
    show (n.onDatagram source.address bytes now).1.protocol = _
    simp only [onDatagram, stimulus]
    cases n.identify source.address bytes with
    | none => rfl
    | some m =>
      by_cases hcontrol : m.kind.isControl = true
      · simp only [onMessage, hcontrol, if_true]
        cases n.detector <;> rfl
      · simp only [onMessage, hcontrol]
        rfl

variable [Linked π]

/-- What a protocol orders its links to send. -/
def Stimulus.orders (st : Stimulus π) (p : π) : List Order :=
  match st with
  | none | stop | timeout => []
  | command c => Linked.commandOrders p c
  | message m => Linked.messageOrders p m.sender m

/-- What a step of a node makes its links do. -/
def causes (n : Node π) (c : Cause (Node π)) : List (Cause Links) :=
  match c with
  | .input .start => []
  | .input .stop => [.input .stop]
  | .input (.command c) => (Linked.commandOrders n.protocol c).map fun o => .input (.order o)
  | .input .timeout => [.input .timeout]
  | .arrival source bytes =>
    match n.identify source.address bytes with
    | none => []
    | some m =>
      if m.kind.isControl then []
      else
        .arrival source bytes ::
          (Linked.messageOrders n.protocol m.sender m).map fun o => .input (.order o)

/-- A node has done what `g` says of its links, and has sent nothing else but control traffic. -/
structure Mirrors (hosts : Hosts) (r : Node π × List Datagram) (g : Links × List Datagram) :
    Prop where
  tidy : r.1.Tidy hosts
  links_eq : Linked.links r.1.protocol = g.1
  mem_iff : ∀ a (m : Message), m.kind.isControl = false →
    (⟨a, m.encode⟩ ∈ r.2 ↔ ⟨a, m.encode⟩ ∈ g.2)

theorem Mirrors.of_append {n' : Node π} {g : Links × List Datagram} {ds es : List Datagram}
    (htidy : n'.Tidy hosts) (hlinks : (Linked.links n'.protocol, ds) = g) (hes : IsControl es) :
    Mirrors hosts (n', ds ++ es) g where
  tidy := htidy
  links_eq := congrArg Prod.fst hlinks
  mem_iff a m hm := by
    rw [← hlinks, List.mem_append]
    refine or_iff_left fun hmem => ?_
    obtain ⟨m', hm', heq⟩ := hes _ hmem
    rw [Message.encode_injective heq, hm'] at hm
    cases hm

theorem Mirrors.of_eq {n' : Node π} {g : Links × List Datagram} {ds : List Datagram}
    (htidy : n'.Tidy hosts) (hlinks : (Linked.links n'.protocol, ds) = g) :
    Mirrors hosts (n', ds) g := by
  have h := Mirrors.of_append htidy hlinks isControl_nil
  rwa [List.append_nil] at h

theorem order_mem_causes_iff {c : Cause (Node π)} {o : Order} :
    .input (.order o) ∈ n.causes c ↔ o ∈ (n.stimulus c).orders n.protocol := by
  cases c with
  | input i =>
    cases i with
    | command c => exact Links.mem_map_order
    | start | stop | timeout => simp [causes, stimulus, Stimulus.orders]
  | arrival source bytes =>
    simp only [causes, stimulus]
    cases n.identify source.address bytes with
    | none => simp [Stimulus.orders]
    | some m =>
      by_cases hcontrol : m.kind.isControl = true
      · simp [Stimulus.orders, hcontrol]
      · simp only [Stimulus.orders, hcontrol, if_false, Bool.false_eq_true, List.mem_cons,
          reduceCtorEq, false_or]
        exact Links.mem_map_order

/-- The links take in only what reaches the protocol. -/
theorem stimulus_of_arrival_mem_causes {c : Cause (Node π)} {source : Host} {bytes : Bytes}
    (h : .arrival source bytes ∈ n.causes c) :
    c = .arrival source bytes ∧ ∃ m, n.stimulus c = .message m := by
  cases c with
  | input i => cases i <;> simp [causes] at h
  | arrival source' bytes' =>
    simp only [causes] at h
    cases hm : n.identify source'.address bytes' with
    | none => simp [hm] at h
    | some m =>
      by_cases hcontrol : m.kind.isControl = true
      · simp [hm, hcontrol] at h
      · simp only [hm, if_neg hcontrol, List.mem_cons, Cause.arrival.injEq, List.mem_map,
          reduceCtorEq, and_false, exists_false, or_false] at h
        obtain ⟨rfl, rfl⟩ := h
        exact ⟨rfl, m, by simp only [stimulus, hm, if_neg hcontrol]⟩

theorem mirrors_start (h : n.Tidy hosts) (now : Nat) :
    Mirrors hosts (n.start now, []) (Linked.links n.protocol, []) := by
  refine .of_eq ⟨h.hosts_eq, fun d hd => ?_⟩ rfl
  obtain ⟨d₀, hd₀, rfl⟩ := Option.map_eq_some_iff.mp hd
  exact h.quiet d₀ hd₀

theorem mirrors_stop (h : n.Tidy hosts) :
    Mirrors hosts (n.stop, []) ((Linked.links n.protocol).stop, []) := by
  refine .of_eq ⟨h.hosts_eq, fun d hd => ?_⟩ (congrArg (·, []) (Linked.links_stop n.protocol))
  obtain ⟨d₀, hd₀, rfl⟩ := Option.map_eq_some_iff.mp hd
  exact (h.quiet d₀ hd₀).stop

theorem mirrors_command (h : n.Tidy hosts) (c : Protocol.Command π) (now : Nat) :
    Mirrors hosts ((n.act (.command c) now).1, (n.act (.command c) now).2.sent)
      ((Linked.links n.protocol).performAll now (Linked.commandOrders n.protocol c)) := by
  simp only [act, onCommand]
  cases hstep : Protocol.onCommand n.protocol c now with
  | ok step => exact .of_eq ⟨h.hosts_eq, h.quiet⟩ (Linked.onCommand_ok hstep)
  | error e =>
    rw [Linked.onCommand_error hstep]
    exact .of_eq h rfl

theorem mirrors_timeout (h : n.Tidy hosts) (now : Nat) :
    Mirrors hosts ((n.onTimeout now).1, (n.onTimeout now).2.sent)
      (((Linked.links n.protocol).onTimeout now).state,
        ((Linked.links n.protocol).onTimeout now).sent) := by
  have hlinks := Linked.onTimeout_eq n.protocol now
  simp only [onTimeout]
  cases hd : n.detector with
  | none =>
    refine .of_eq ⟨h.hosts_eq, fun d hd' => ?_⟩ hlinks
    cases hd'
  | some d =>
    obtain ⟨hquiet, hsent⟩ := Detector.quiet_onTimeout (h.quiet d hd) now
    refine .of_append ⟨h.hosts_eq, fun d' hd' => ?_⟩ hlinks hsent
    cases hd'
    exact hquiet

/-- Heartbeats and their answers do not reach the protocol. -/
theorem mirrors_control (h : n.Tidy hosts) {m : Message} (hm : m.kind.isControl = true)
    (now : Nat) : Mirrors hosts ((n.onMessage m now).1, (n.onMessage m now).2.sent)
      (Linked.links n.protocol, []) := by
  simp only [onMessage, hm, if_true]
  cases hd : n.detector with
  | none => exact .of_eq h rfl
  | some d =>
    obtain ⟨hquiet, hsent⟩ := Detector.quiet_deliver (h.quiet d hd) m.sender hm now
    have htidy : Tidy { n with detector := some (d.deliver m.sender m now).state } hosts := by
      refine ⟨h.hosts_eq, fun d' hd' => ?_⟩
      cases hd'
      exact hquiet
    exact .of_append htidy (congrArg (Linked.links n.protocol, ·) (List.nil_append [])) hsent

/-- All else does. -/
theorem mirrors_message (h : n.Tidy hosts) {source : Host} {m : Message}
    (hm : m.kind.isControl = false) (hsender : m.sender = source.id) (now : Nat) :
    Mirrors hosts ((n.onMessage m now).1, (n.onMessage m now).2.sent)
      ((Linked.links n.protocol).run now (.arrival source m.encode ::
        (Linked.messageOrders n.protocol m.sender m).map fun o => .input (.order o))) := by
  simp only [onMessage, hm, Bool.false_eq_true, if_false]
  refine .of_eq ⟨h.hosts_eq, h.quiet⟩ ?_
  show (Linked.links (Protocol.onMessage n.protocol m.sender m now).state, _) = _
  rw [Linked.onMessage_eq, Links.run]
  simp only [Cause.effect, Member.receive, Message.decode_encode, hsender]
  rfl

/-- **Seen from its links, a step of a node is what `Node.causes` says.** -/
theorem mirrors_effect (h : n.Tidy hosts) (hlawful : hosts.Lawful) (c : Cause (Node π)) (now : Nat)
    (hc : ∀ source bytes, c = .arrival source bytes → hosts.get? source.id = some source) :
    Mirrors hosts (c.effect n now) ((Linked.links n.protocol).run now (n.causes c)) := by
  cases c with
  | input i =>
    cases i with
    | start => exact mirrors_start h now
    | stop => exact mirrors_stop h
    | command c => exact mirrors_command h c now
    | timeout =>
      have hrun : (Linked.links n.protocol).run now (n.causes (.input .timeout)) =
          (((Linked.links n.protocol).onTimeout now).state,
            ((Linked.links n.protocol).onTimeout now).sent) := by
        simp [causes, Links.run, Cause.effect, Member.act]
      rw [hrun]
      exact mirrors_timeout h now
  | arrival source bytes =>
    show Mirrors hosts ((n.onDatagram source.address bytes now).1,
      (n.onDatagram source.address bytes now).2.sent) _
    cases hm : n.identify source.address bytes with
    | none =>
      simp only [causes, onDatagram, hm]
      exact .of_eq h rfl
    | some m =>
      obtain ⟨rfl, hsender⟩ := h.identify hlawful (hc source bytes rfl) hm
      simp only [causes, onDatagram, hm]
      by_cases hcontrol : m.kind.isControl = true
      · rw [if_pos hcontrol]
        exact mirrors_control h hcontrol now
      · rw [if_neg hcontrol]
        exact mirrors_message h (by simpa using hcontrol) hsender now

end Node

/-- All that a node gives out in a step. -/
def Occurrence.output {π : Type} [Protocol π] (o : Occurrence (Node π)) : Output :=
  match o.cause with
  | .input i => (o.before.act i o.now).2
  | .arrival source bytes => (o.before.onDatagram source.address bytes o.now).2

/-- A node reports what its protocol does. -/
theorem Occurrence.events_output {π : Type} [Protocol π] (o : Occurrence (Node π)) :
    o.output.events = ((o.before.stimulus o.cause).apply o.before.protocol o.now).2 := by
  obtain ⟨member, n, c, now⟩ := o
  cases c with
  | input i =>
    cases i with
    | start | stop => rfl
    | command c =>
      simp only [output, Node.act, Node.onCommand, Node.stimulus, Node.Stimulus.apply]
      cases Protocol.onCommand n.protocol c now <;> rfl
    | timeout =>
      simp only [output, Node.act, Node.onTimeout]
      cases n.detector <;> rfl
  | arrival source bytes =>
    simp only [output, Node.onDatagram, Node.stimulus]
    cases n.identify source.address bytes with
    | none => rfl
    | some m =>
      by_cases hcontrol : m.kind.isControl = true
      · simp only [Node.onMessage, hcontrol, if_true]
        cases n.detector <;> rfl
      · simp only [Node.onMessage, hcontrol]
        rfl

end Groupcast
