import Groupcast.Proofs.Detector.Regular
import Groupcast.Proofs.Node.Attribution

/-!
# Deadlines of a node are exact

A driver waits for the next deadline of a node, passes the time in, and waits again.  This wastes no
wake-up and misses none (`deadline_exact`): before the deadline there is nothing to do; after what
was due has been done, however late, the next deadline lies in the future; and the protocol has a
deadline exactly if messages wait, one of which is then sent again.

Everything here is put together from what links and detectors do by themselves (`Links.Regular`,
`Links.Scheduled`, `Detector.Regular`).
-/

namespace Groupcast

/-- The earlier of two deadlines lies in the future if both do. -/
theorem forall_mem_earlier?_iff {now : Nat} {a b : Option Nat} :
    (∀ deadline ∈ earlier? a b, now < deadline) ↔
      (∀ deadline ∈ a, now < deadline) ∧ ∀ deadline ∈ b, now < deadline := by
  cases a with
  | none => simp [earlier?]
  | some a =>
    cases b with
    | none => simp [earlier?]
    | some b => simp only [earlier?, Option.mem_def, Option.some.injEq, forall_eq', Nat.lt_min]

namespace Node

variable {s : Stack} {n : Node s.State} {now : Nat}

/-- Neither half of a node has a timer with the period zero, and the detector sends nothing
again. -/
structure Regular (n : Node s.State) : Prop where
  protocol : (Linked.links n.protocol).Regular
  detector : ∀ d, n.detector = some d → d.Regular ∧ d.links.Idle

theorem lt_nextDeadline?_iff : (∀ deadline ∈ n.nextDeadline?, now < deadline) ↔
    (∀ deadline ∈ (Linked.links n.protocol).nextDeadline?, now < deadline) ∧
      ∀ d, n.detector = some d → ∀ deadline ∈ d.nextDeadline?, now < deadline := by
  rw [nextDeadline?, forall_mem_earlier?_iff, Stack.nextDeadline?_eq]
  refine and_congr_right fun _ => ?_
  cases n.detector <;> simp

/-- Before the next deadline a node has nothing to do. -/
theorem onTimeout_of_lt (hidle : ∀ d, n.detector = some d → d.links.Idle)
    (hlt : ∀ deadline ∈ n.nextDeadline?, now < deadline) : n.onTimeout now = (n, .empty) := by
  obtain ⟨hprotocol, hdetector⟩ := lt_nextDeadline?_iff.mp hlt
  have hrest := Stack.onTimeout_of_rest (Links.onTimeout_of_lt hprotocol)
  obtain ⟨host, hosts, p, d⟩ := n
  unfold onTimeout
  cases d with
  | none =>
    simp only [hrest]
    rfl
  | some d =>
    have hwatch := Detector.onTimeout_of_lt (hidle d rfl) (hdetector d rfl)
    simp only [hrest, hwatch]
    rfl

/-- When a node has done what was due, its next deadline lies in the future. -/
theorem Regular.lt_nextDeadline? (h : n.Regular) (now : Nat) :
    ∀ deadline ∈ (n.onTimeout now).1.nextDeadline?, now < deadline := by
  have hlinks : Linked.links (n.onTimeout now).1.protocol =
      ((Linked.links n.protocol).onTimeout now).state := by
    have hprotocol : (n.onTimeout now).1.protocol = (Protocol.onTimeout n.protocol now).state := by
      unfold onTimeout
      cases n.detector <;> rfl
    rw [hprotocol]
    exact congrArg Prod.fst (Linked.onTimeout_eq n.protocol now)
  refine lt_nextDeadline?_iff.mpr ⟨?_, ?_⟩
  · rw [hlinks]
    exact h.protocol.lt_nextDeadline? now
  · intro d hd
    unfold onTimeout at hd
    cases hd₀ : n.detector with
    | none =>
      rw [hd₀] at hd
      cases hd
    | some d₀ =>
      rw [hd₀] at hd
      cases hd
      obtain ⟨hregular, hidle⟩ := h.detector d₀ hd₀
      exact hregular.lt_nextDeadline? hidle now

end Node

namespace Stack

variable {s : Stack} {self : HostId} {hosts : Hosts} {tuning : Tuning} {watching : Option Tuning}
  {n : Node s.State}

/-- With positive periods all nodes are regular at all times. -/
theorem regular_of_run (hnode : s.node self hosts tuning watching = some n)
    (hretransmit : 0 < tuning.retransmit) (hheartbeat : ∀ t ∈ watching, 0 < t.heartbeat)
    (run : List (Cause (Node s.State) × Nat)) : (n.after run).Regular where
  protocol := by
    have hstart : (Links.ofHosts self hosts tuning).Regular :=
      Links.forall_link_toPeers fun peer => PerfectLink.regular_ofPeer self peer hretransmit
    exact hstart.driven (driven_spoken hnode run)
  detector d hd := by
    have hdetector := (of_node hnode).2.2.2
    cases watching with
    | none =>
      rw [(Node.detector_after_none hdetector run).1] at hd
      cases hd
    | some t =>
      rw [(Node.detector_after hdetector run).1] at hd
      cases hd
      have hstart := Detector.regular_ofHosts self hosts (hheartbeat t rfl)
      exact ⟨hstart.after _,
        Detector.idle_after (Detector.idle_ofHosts self hosts t) (n.genuine_calls run)⟩

/-- Links whose ids have not wrapped have a timer for each message that waits. -/
theorem scheduled_of_run (hnode : s.node self hosts tuning watching = some n)
    (run : List (Cause (Node s.State) × Nat))
    (hwrap : (Linked.links (n.after run).protocol).Unwrapped) :
    (Linked.links (n.after run).protocol).Scheduled := by
  have hstart : (Links.ofHosts self hosts tuning).Scheduled :=
    Links.forall_link_toPeers fun peer => PerfectLink.scheduled_ofPeer self peer tuning.retransmit
  exact hstart.driven (driven_spoken hnode run) hwrap

/-- What waits on the links of a protocol has been sent. -/
theorem waitingIn_of_run (hnode : s.node self hosts tuning watching = some n)
    (run : List (Cause (Node s.State) × Nat)) :
    (Linked.links (n.after run).protocol).WaitingIn (n.spoken run) := by
  have hstart : (Links.ofHosts self hosts tuning).WaitingIn [] :=
    Links.forall_link_toPeers fun peer =>
      PerfectLink.allWaiting_ofPeer self peer tuning.retransmit
  exact hstart.driven (driven_spoken hnode run)

/-- **The deadlines of a node are exact, and its driver cannot spin**: before the next deadline
there is nothing to do, and once what is due has been done the next one lies in the future.  The
protocol has a deadline exactly if messages wait for an acknowledgement, and at its deadline sends
one of them again. -/
theorem deadline_exact (hnode : s.node self hosts tuning watching = some n)
    (hretransmit : 0 < tuning.retransmit) (hheartbeat : ∀ t ∈ watching, 0 < t.heartbeat)
    (run : List (Cause (Node s.State) × Nat))
    (hwrap : (Linked.links (n.after run).protocol).Unwrapped) (now : Nat) :
    ((∀ deadline ∈ (n.after run).nextDeadline?, now < deadline) →
      (n.after run).onTimeout now = (n.after run, .empty)) ∧
    (∀ deadline ∈ ((n.after run).onTimeout now).1.nextDeadline?, now < deadline) ∧
    (Protocol.nextDeadline? (n.after run).protocol = none ↔
      s.inFlight (n.after run).protocol = 0) ∧
    ∀ deadline ∈ Protocol.nextDeadline? (n.after run).protocol, deadline ≤ now →
      ∃ d ∈ (Protocol.onTimeout (n.after run).protocol now).sent, d ∈ n.emitted run := by
  have hregular := regular_of_run hnode hretransmit hheartbeat run
  have hscheduled := scheduled_of_run hnode run hwrap
  refine ⟨Node.onTimeout_of_lt fun d hd => (hregular.detector d hd).2,
    hregular.lt_nextDeadline? now, ?_, ?_⟩
  · rw [nextDeadline?_eq, inFlight_eq]
    exact hscheduled.nextDeadline?_eq_none_iff
  · intro deadline hnext hle
    rw [nextDeadline?_eq] at hnext
    obtain ⟨d, hd, hsent⟩ := hscheduled.exists_mem_sent (waitingIn_of_run hnode run) hnext hle
    refine ⟨d, ?_, Node.mem_emitted_iff.mpr (Or.inl hsent)⟩
    rw [show (Protocol.onTimeout (n.after run).protocol now).sent =
      ((Linked.links (n.after run).protocol).onTimeout now).sent from
        congrArg Prod.snd (Linked.onTimeout_eq _ now)]
    exact hd

/-- The mixed run up to the point where the node would be stopped. -/
def busyRun : List (Cause (Node (State .uniform)) × Nat) := mixedRun.take 6

/-- Four messages wait after it, and the node is called late. -/
theorem deadline_exact_busyRun :
    (node .uniform 1 .pair {} (some {}) = some mixedNode ∧ 0 < ({} : Tuning).retransmit ∧
      (∀ t ∈ some ({} : Tuning), 0 < t.heartbeat) ∧
      (Linked.links (mixedNode.after busyRun).protocol).Unwrapped ∧
      inFlight .uniform (mixedNode.after busyRun).protocol = 4) ∧
    ((∀ deadline ∈ (mixedNode.after busyRun).nextDeadline?, 350 < deadline) →
      (mixedNode.after busyRun).onTimeout 350 = (mixedNode.after busyRun, .empty)) ∧
    (∀ deadline ∈ ((mixedNode.after busyRun).onTimeout 350).1.nextDeadline?, 350 < deadline) ∧
    (Protocol.nextDeadline? (mixedNode.after busyRun).protocol = none ↔
      inFlight .uniform (mixedNode.after busyRun).protocol = 0) ∧
    ∀ deadline ∈ Protocol.nextDeadline? (mixedNode.after busyRun).protocol, deadline ≤ 350 →
      ∃ d ∈ (Protocol.onTimeout (mixedNode.after busyRun).protocol 350).sent,
        d ∈ mixedNode.emitted busyRun := by
  have hnode : node .uniform 1 .pair {} (some {}) = some mixedNode := rfl
  have hheartbeat : ∀ t ∈ some ({} : Tuning), 0 < t.heartbeat := by
    rintro t ⟨⟩
    decide
  have hwrap : (Linked.links (mixedNode.after busyRun).protocol).Unwrapped := by decide +kernel
  exact ⟨⟨hnode, by decide, hheartbeat, hwrap, by decide +kernel⟩,
    deadline_exact hnode (by decide) hheartbeat busyRun hwrap 350⟩

end Stack

end Groupcast
