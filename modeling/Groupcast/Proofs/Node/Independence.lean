import Groupcast.Proofs.Node.Attribution

/-!
# Neither half of a node influences the other

Two runs are compared.  If the same happens to a node with a failure detector and to one without,
their protocols do the same in every step (`map_performance_congr`).  And two nodes that run
different protocols have detectors that do the same if the same happens to both but for commands and
datagrams that carry no heartbeats (`Node.signals`).

What a node emits in a step is what its protocol emits followed by what its detector emits.  Neither
ever emits anything of the other's kinds, so what either emits can be told from the wire alone.
-/

namespace Groupcast

/-- Whether a datagram is control traffic, if it carries a message. -/
def Datagram.isControl? (d : Datagram) : Option Bool := d.kind?.map Kind.isControl

theorem Datagram.InName.isControl?_eq {control : Bool} {owner : HostId} {hosts : Hosts}
    {d : Datagram} (h : d.InName control owner hosts) : d.isControl? = some control := by
  obtain ⟨m, receiver, -, -, hcontrol, rfl⟩ := h
  rw [isControl?, kind?_encode, Option.map_some, hcontrol]

/-- What a step of a node shows of its protocol. -/
structure Performance (π : Type) where
  /-- The protocol after the step. -/
  state : π
  events : List Event
  refusal : Option CommandError
  /-- The data and acknowledgements that are emitted. -/
  sent : List Datagram

namespace Occurrence

variable {π : Type} [Protocol π]

/-- What a step shows of the protocol, and of nothing else. -/
def performance (o : Occurrence (Node π)) : Performance π where
  state := o.after.protocol
  events := o.output.events
  refusal := o.refusal
  sent := o.output.sent.filter fun d => d.isControl? = some false

/-- The control traffic that is emitted in a step. -/
def beats (o : Occurrence (Node π)) : List Datagram :=
  o.output.sent.filter fun d => d.isControl? = some true

/-- Neither half emits what belongs to the other. -/
structure Separate (o : Occurrence (Node π)) : Prop where
  spoken : ∀ d ∈ o.spoken, d.isControl? = some false
  watched : ∀ d ∈ o.watch.sent, d.isControl? = some true

variable {o o' : Occurrence (Node π)}

theorem Separate.filter_spoken (h : o.Separate) :
    (o.output.sent.filter fun d => d.isControl? = some false) = o.spoken := by
  have hmine : (o.spoken.filter fun d => d.isControl? = some false) = o.spoken :=
    List.filter_eq_self.mpr fun d hd => decide_eq_true (h.spoken d hd)
  have hother : (o.watch.sent.filter fun d => d.isControl? = some false) = [] := by
    refine List.filter_eq_nil_iff.mpr fun d hd => ?_
    simp [h.watched d hd]
  rw [output_eq, List.filter_append, hmine, hother, List.append_nil]

theorem Separate.beats_eq (h : o.Separate) : o.beats = o.watch.sent := by
  have hmine : (o.watch.sent.filter fun d => d.isControl? = some true) = o.watch.sent :=
    List.filter_eq_self.mpr fun d hd => decide_eq_true (h.watched d hd)
  have hother : (o.spoken.filter fun d => d.isControl? = some true) = [] := by
    refine List.filter_eq_nil_iff.mpr fun d hd => ?_
    simp [h.spoken d hd]
  rw [beats, output_eq, List.filter_append, hmine, hother, List.nil_append]

/-- What a step shows of the protocol depends on the protocol and the host table alone. -/
theorem performance_congr (h : o.Separate) (h' : o'.Separate)
    (hhosts : o'.before.hosts = o.before.hosts) (hprotocol : o'.before.protocol = o.before.protocol)
    (hcause : o'.cause = o.cause) (hnow : o'.now = o.now) : o'.performance = o.performance := by
  have hstimulus : o'.before.stimulus o'.cause = o.before.stimulus o.cause := by
    rw [hcause, Node.stimulus_congr hhosts]
  have hrefusal : o'.refusal = o.refusal := by
    unfold refusal Node.onCommand
    rw [hcause, hnow, hprotocol]
    split
    · rename_i command _
      cases Protocol.onCommand o.before.protocol command o.now <;> rfl
    · rfl
    · rfl
    · rfl
    · rfl
  unfold performance
  rw [h.filter_spoken, h'.filter_spoken, hrefusal, output_eq, output_eq, o.after_output_eq.1,
    o'.after_output_eq.1]
  simp only [spoken, hstimulus, hprotocol, hnow]

end Occurrence

namespace Node

variable {π : Type} [Protocol π]

/-- **In each step the protocols of two nodes do the same if the same happens to both nodes**, with
whatever detectors. -/
theorem map_performance_congr {n n' : Node π} (hhosts : n'.hosts = n.hosts)
    (hprotocol : n'.protocol = n.protocol) (run : List (Cause (Node π) × Nat))
    (h : ∀ o ∈ n.steps run, o.Separate) (h' : ∀ o ∈ n'.steps run, o.Separate) :
    (n'.steps run).map Occurrence.performance = (n.steps run).map Occurrence.performance := by
  induction run generalizing n n' with
  | nil => rfl
  | cons c run ih =>
    simp only [steps, List.map_cons, List.forall_mem_cons] at h h' ⊢
    have hnext : (c.1.effect n' c.2).1.protocol = (c.1.effect n c.2).1.protocol := by
      rw [protocol_effect, protocol_effect, stimulus_congr hhosts, hprotocol]
    rw [Occurrence.performance_congr h.1 h'.1 hhosts hprotocol rfl rfl,
      ih (by rw [hosts_effect, hosts_effect, hhosts]) hnext h.2 h'.2]

/-! ## What may concern a detector -/

/-- What can happen to a node, whatever protocol it runs. -/
inductive Signal where
  | start
  | stop
  | timeout
  /-- Control traffic comes in, in whoever's name. -/
  | datagram (source : Address) (bytes : Bytes)
  deriving DecidableEq

/-- What is left of what happens to a node once commands and all datagrams are left out that carry
no heartbeat and no answer to one. -/
def signal? (c : Cause (Node π)) : Option Signal :=
  match c with
  | .input .start => some .start
  | .input .stop => some .stop
  | .input .timeout => some .timeout
  | .input (.command _) => none
  | .arrival source bytes =>
    if (⟨source.address, bytes⟩ : Datagram).isControl? = some true then
      some (.datagram source.address bytes)
    else none

/-- What is left of a run. -/
def signals (run : List (Cause (Node π) × Nat)) : List (Signal × Nat) :=
  run.filterMap fun c => (signal? c.1).map (·, c.2)

/-- What a signal comes to for a detector: an impostor's heartbeat does not reach it. -/
def Signal.call? (hosts : Hosts) (x : Signal) : Option Detector.Call :=
  match x with
  | start => some .start
  | stop => some .stop
  | timeout => some .timeout
  | datagram source bytes =>
    match Message.decode bytes with
    | .ok m => if (hosts.identify source m.sender).isSome then some (.deliver m.sender m) else none
    | .error _ => none

theorem call?_eq (n : Node π) (c : Cause (Node π)) :
    n.call? c = (signal? c).bind (Signal.call? n.hosts) := by
  cases c with
  | input i => cases i <;> rfl
  | arrival source bytes =>
    unfold call? identify signal? Datagram.isControl? Datagram.kind?
    cases hdecode : Message.decode bytes with
    | error e => simp [hdecode]
    | ok m =>
      cases hcontrol : m.kind.isControl <;>
        cases hidentify : (n.hosts.identify source.address m.sender).isSome <;>
          simp [Signal.call?, hdecode, hcontrol, hidentify]

/-- Only signals make calls of a detector. -/
theorem calls_eq (n : Node π) (run : List (Cause (Node π) × Nat)) :
    n.calls run = (signals run).filterMap fun x => (x.1.call? n.hosts).map (·, x.2) := by
  unfold calls signals
  rw [List.filterMap_filterMap]
  refine List.filterMap_congr fun c _ => ?_
  rw [call?_eq]
  cases signal? c.1 <;> rfl

end Node

namespace Stack

variable {s s' : Stack} {self : HostId} {hosts : Hosts} {hs : List Host}
  {tuning tuning' t : Tuning}

theorem separate_of_run {watching : Option Tuning} {n : Node s.State} (hlawful : hosts.Lawful)
    (h : s.node self hosts tuning watching = some n) (run : List (Cause (Node s.State) × Nat)) :
    ∀ o ∈ n.steps run, o.Separate := by
  intro o ho
  obtain ⟨hspoken, hwatched⟩ := inName_of_run hlawful h run ho
  exact ⟨fun d hd => (hspoken d hd).isControl?_eq, fun d hd => (hwatched d hd).isControl?_eq⟩

/-- What the detector of a node does in a run is what it does by itself. -/
theorem watched_of_run {n : Node s.State} (hlawful : hosts.Lawful)
    (h : s.node self hosts tuning (some t) = some n) (run : List (Cause (Node s.State) × Nat)) :
    (n.after run).detector = some ((Detector.ofHosts self hosts t).after (n.calls run)) ∧
      (n.steps run).flatMap Occurrence.beats =
        (Detector.ofHosts self hosts t).emitted (n.calls run) ∧
      ((n.steps run).flatMap fun o => o.output.suspicions) =
        (Detector.ofHosts self hosts t).reports (n.calls run) := by
  obtain ⟨hstate, hsent, hresult⟩ := Node.detector_after (of_node h).2.2.2 run
  refine ⟨hstate, ?_, ?_⟩
  · rw [← hsent]
    refine List.flatMap_congr fun o ho => ?_
    exact (separate_of_run hlawful h run o ho).beats_eq
  · rw [← hresult]
    refine List.flatMap_congr fun o _ => ?_
    rw [o.output_eq]

/-- **The failure detector never influences the protocol, nor the protocol the detector.**  Whatever
happens to a node with a detector, its protocol does in every step what it does on a node without
one.  And its detector does what it does on a node with any other protocol to which the same
happens but for commands and datagrams that carry no heartbeats. -/
theorem halves_independent (hhosts : Hosts.ofList hs = .ok hosts) {watched plain : Node s.State}
    {other : Node s'.State} (hwatched : s.node self hosts tuning (some t) = some watched)
    (hplain : s.node self hosts tuning none = some plain)
    (hother : s'.node self hosts tuning' (some t) = some other) :
    (∀ run, (watched.steps run).map Occurrence.performance =
      (plain.steps run).map Occurrence.performance) ∧
    ∀ run run', Node.signals run = Node.signals run' →
      (watched.after run).detector = (other.after run').detector ∧
        ((watched.steps run).flatMap fun o => o.output.suspicions) =
          ((other.steps run').flatMap fun o => o.output.suspicions) ∧
        (watched.steps run).flatMap Occurrence.beats =
          (other.steps run').flatMap Occurrence.beats := by
  have hlawful := Hosts.lawful_ofList hhosts
  obtain ⟨-, hhosts₁, hprotocol₁, -⟩ := of_node hwatched
  obtain ⟨-, hhosts₂, hprotocol₂, -⟩ := of_node hplain
  constructor
  · intro run
    exact Node.map_performance_congr (hhosts₁.trans hhosts₂.symm)
      (hprotocol₁.trans hprotocol₂.symm) run (separate_of_run hlawful hplain run)
      (separate_of_run hlawful hwatched run)
  · intro run run' hsignals
    have hcalls : watched.calls run = other.calls run' := by
      rw [Node.calls_eq, Node.calls_eq, hsignals, hhosts₁, (of_node hother).2.1]
    obtain ⟨hstate, hsent, hresult⟩ := watched_of_run hlawful hwatched run
    obtain ⟨hstate', hsent', hresult'⟩ := watched_of_run hlawful hother run'
    rw [hstate, hsent, hresult, hstate', hsent', hresult', hcalls]
    exact ⟨rfl, rfl, rfl⟩

/-- The first of two hosts again, without a detector. -/
def plainNode : Node (State .uniform) := { mixedNode with detector := none }

/-- The first of two hosts, with agreement and the same detector. -/
def agreeingNode : Node (State .lattice) where
  host := .first
  hosts := .pair
  protocol := .ofHosts 1 .pair { retransmit := 70 }
  detector := some (.ofHosts 1 .pair {})

/-- A run of that node in which the same heartbeat comes in as in the mixed run. -/
def agreeingRun : List (Cause (Node (State .lattice)) × Nat) :=
  [ (.input .start, 0),
    (.arrival .second (Message.encode ⟨.heartbeat, 2, 1, 1, 0, []⟩), 3),
    (.input (.command ⟨1, ValueSet.ofList [5]⟩), 100),
    (.input .timeout, 200),
    (.input .stop, 201) ]

/-- The detectors of the two nodes send a heartbeat and an answer in these runs. -/
theorem halves_independent_mixedRun :
    (Hosts.ofList [.first, .second] = .ok .pair ∧
      node .uniform 1 .pair {} (some {}) = some mixedNode ∧
      node .uniform 1 .pair {} none = some plainNode ∧
      node .lattice 1 .pair { retransmit := 70 } (some {}) = some agreeingNode ∧
      Node.signals mixedRun = Node.signals agreeingRun ∧
      ((mixedNode.steps mixedRun).flatMap Occurrence.beats).map Datagram.kind? =
        [some .heartbeatAck, some .heartbeat]) ∧
    (mixedNode.steps mixedRun).map Occurrence.performance =
      (plainNode.steps mixedRun).map Occurrence.performance ∧
    (mixedNode.after mixedRun).detector = (agreeingNode.after agreeingRun).detector ∧
    (mixedNode.steps mixedRun).flatMap Occurrence.beats =
      (agreeingNode.steps agreeingRun).flatMap Occurrence.beats := by
  have hwatched : node .uniform 1 .pair {} (some {}) = some mixedNode := rfl
  have hplain : node .uniform 1 .pair {} none = some plainNode := rfl
  have hother : node .lattice 1 .pair { retransmit := 70 } (some {}) = some agreeingNode := rfl
  have hsignals : Node.signals mixedRun = Node.signals agreeingRun := by decide +kernel
  obtain ⟨hprotocol, hdetector⟩ :=
    halves_independent Hosts.ofList_pair hwatched hplain hother
  obtain ⟨hstate, -, hbeats⟩ := hdetector mixedRun agreeingRun hsignals
  exact ⟨⟨Hosts.ofList_pair, hwatched, hplain, hother, hsignals, by decide +kernel⟩,
    hprotocol mixedRun, hstate, hbeats⟩

end Stack

end Groupcast
