import Groupcast.Proofs.Detector.Orders
import Groupcast.Proofs.Link.Size

/-!
# How long the datagrams of nodes are

What a node emits is emitted by the links of its protocol or by those of its failure detector.  The
detector sends heartbeats, which are headers and nothing else, and answers to them, which are no
longer than acknowledgements.  So a node emits nothing longer than what its protocol orders, and
than acknowledgements are (`Node.short_effect`).
-/

namespace Groupcast

theorem Links.Short.performAll {n : Nat} {g : Links} (hack : Message.ackLength ≤ n)
    (h : g.Short n) (now : Nat) {os : List Order} (hos : ∀ o ∈ os, o.message.encodedLength ≤ n) :
    (g.performAll now os).1.Short n ∧ Groupcast.Short n (g.performAll now os).2 :=
  h.run hack now fun o ho => hos o (Links.mem_map_order.mp ho)

namespace Detector

variable {n : Nat} {d : Detector}

theorem short_ofHosts (self : HostId) (hosts : Hosts) (tuning : Tuning) :
    (ofHosts self hosts tuning).links.Short n := Links.short_toPeers _ _ _

/-- Doing what is due, a detector emits nothing longer than an acknowledgement. -/
theorem short_onTimeout (hack : Message.ackLength ≤ n) (h : d.links.Short n) (now : Nat) :
    (d.onTimeout now).state.links.Short n ∧ Short n (d.onTimeout now).sent := by
  obtain ⟨hlinks, hsent⟩ := h.effect hack (.input .timeout) now nofun
  have horders : ∀ o ∈ d.beatOrders (d.timers.due now), o.message.encodedLength ≤ n := by
    intro o ho
    rw [message_of_mem_beatOrders ho, Message.encodedLength_ofHeartbeat]
    exact Nat.le_trans (Nat.le_add_right _ 4) hack
  obtain ⟨hlinks', hsent'⟩ := hlinks.performAll hack now horders
  obtain ⟨hstate, hout⟩ := Prod.mk.inj (links_onTimeout (d := d) now)
  rw [hstate, hout]
  exact ⟨hlinks', hsent.append hsent'⟩

/-- Taking in a message, a detector emits nothing longer than an acknowledgement. -/
theorem short_deliver (hack : Message.ackLength ≤ n) (h : d.links.Short n) (sender : HostId)
    (m : Message) (now : Nat) :
    (d.deliver sender m now).state.links.Short n ∧ Short n (d.deliver sender m now).sent := by
  obtain ⟨hlinks, hsent⟩ := h.deliver hack sender m
  obtain ⟨os, hos, heq⟩ := links_deliver (d := d) sender m now
  have horders : ∀ o ∈ os, o.message.encodedLength ≤ n := by
    intro o ho
    rw [hos o ho, Message.encodedLength_heartbeatAck]
    exact hack
  obtain ⟨hlinks', hsent'⟩ := hlinks.performAll hack now horders
  obtain ⟨hstate, hout⟩ := Prod.mk.inj heq
  rw [hstate, hout]
  exact ⟨hlinks', hsent.append hsent'⟩

end Detector

namespace Node

variable {π : Type} [Protocol π] [Linked π] {n : Nat} {node : Node π}

/-- No message waits that is longer than `n`, neither of the protocol nor of the detector. -/
structure Short (n : Nat) (node : Node π) : Prop where
  protocol : (Linked.links node.protocol).Short n
  detector : ∀ d, node.detector = some d → d.links.Short n

theorem short_fresh (hosts : Hosts) (tuning : Tuning) (watches : Bool) (id : HostId) :
    (fresh (Linked.ofHosts : _ → _ → _ → π) hosts tuning watches id).Short n where
  protocol := by
    rw [fresh, Linked.links_ofHosts]
    exact Links.short_toPeers _ _ _
  detector d hd := by
    simp only [fresh] at hd
    split at hd
    · cases hd
      exact Detector.short_ofHosts id hosts tuning
    · cases hd

theorem Short.onCommand (hack : Message.ackLength ≤ n) (h : node.Short n)
    (c : Protocol.Command π) (now : Nat)
    (horders : ∀ o ∈ Linked.commandOrders node.protocol c, o.message.encodedLength ≤ n) :
    (node.act (.command c) now).1.Short n ∧
      Groupcast.Short n (node.act (.command c) now).2.sent := by
  simp only [act, Node.onCommand]
  cases hstep : Protocol.onCommand node.protocol c now with
  | ok step =>
    have hrun := h.protocol.performAll hack now horders
    rw [← Linked.onCommand_ok hstep] at hrun
    exact ⟨⟨hrun.1, h.detector⟩, hrun.2⟩
  | error e => exact ⟨h, short_nil⟩

theorem Short.onTimeout (hack : Message.ackLength ≤ n) (h : node.Short n) (now : Nat) :
    (node.onTimeout now).1.Short n ∧ Groupcast.Short n (node.onTimeout now).2.sent := by
  have hrun := h.protocol.effect hack (.input .timeout) now nofun
  obtain ⟨hstate, hsent⟩ := Prod.mk.inj (Linked.onTimeout_eq node.protocol now)
  simp only [Node.onTimeout]
  cases hd : node.detector with
  | none =>
    refine ⟨⟨?_, fun d hd' => ?_⟩, ?_⟩
    · show (Linked.links (Protocol.onTimeout node.protocol now).state).Short n
      rw [hstate]
      exact hrun.1
    · cases hd'
    · show Groupcast.Short n (Protocol.onTimeout node.protocol now).sent
      rw [hsent]
      exact hrun.2
  | some d =>
    obtain ⟨hlinks, hout⟩ := Detector.short_onTimeout hack (h.detector d hd) now
    refine ⟨⟨?_, fun d' hd' => ?_⟩, Groupcast.Short.append ?_ hout⟩
    · show (Linked.links (Protocol.onTimeout node.protocol now).state).Short n
      rw [hstate]
      exact hrun.1
    · cases hd'
      exact hlinks
    · rw [hsent]
      exact hrun.2

theorem Short.onMessage (hack : Message.ackLength ≤ n) (h : node.Short n) (m : Message)
    (now : Nat) (horders : m.kind.isControl = false →
      ∀ o ∈ Linked.messageOrders node.protocol m.sender m, o.message.encodedLength ≤ n) :
    (node.onMessage m now).1.Short n ∧ Groupcast.Short n (node.onMessage m now).2.sent := by
  rw [Node.onMessage]
  split
  · cases hd : node.detector with
    | none => exact ⟨h, short_nil⟩
    | some d =>
      obtain ⟨hlinks, hout⟩ := Detector.short_deliver hack (h.detector d hd) m.sender m now
      refine ⟨⟨h.protocol, fun d' hd' => ?_⟩, hout⟩
      cases hd'
      exact hlinks
  · rename_i hcontrol
    obtain ⟨hlinks, hout⟩ := h.protocol.deliver hack m.sender m
    obtain ⟨hlinks', hout'⟩ := hlinks.performAll hack now (horders (by simpa using hcontrol))
    obtain ⟨hstate, hsent⟩ := Prod.mk.inj (Linked.onMessage_eq node.protocol m.sender m now)
    refine ⟨⟨?_, h.detector⟩, ?_⟩
    · show (Linked.links (Protocol.onMessage node.protocol m.sender m now).state).Short n
      rw [hstate]
      exact hlinks'
    · show Groupcast.Short n (Protocol.onMessage node.protocol m.sender m now).sent
      rw [hsent]
      exact hout.append hout'

/-- **A node emits nothing longer than what its protocol orders and than acknowledgements are.** -/
theorem short_effect (hack : Message.ackLength ≤ n) (h : node.Short n) (c : Cause (Node π))
    (now : Nat)
    (horders : ∀ o ∈ (node.stimulus c).orders node.protocol, o.message.encodedLength ≤ n) :
    (c.effect node now).1.Short n ∧ Groupcast.Short n (c.effect node now).2 := by
  cases c with
  | input i =>
    cases i with
    | start =>
      refine ⟨⟨h.protocol, fun d hd => ?_⟩, short_nil⟩
      obtain ⟨d₀, hd₀, rfl⟩ := Option.map_eq_some_iff.mp hd
      exact h.detector d₀ hd₀
    | stop =>
      have hstop : ∀ {g : Links}, g.Short n → g.stop.Short n :=
        fun hg => (hg.effect hack (.input .stop) now nofun).1
      refine ⟨⟨?_, fun d hd => ?_⟩, short_nil⟩
      · show (Linked.links (Protocol.stop node.protocol)).Short n
        rw [Linked.links_stop]
        exact hstop h.protocol
      · obtain ⟨d₀, hd₀, rfl⟩ := Option.map_eq_some_iff.mp hd
        exact hstop (h.detector d₀ hd₀)
    | command c => exact h.onCommand hack c now horders
    | timeout => exact h.onTimeout hack now
  | arrival source bytes =>
    show (node.onDatagram source.address bytes now).1.Short n ∧
      Groupcast.Short n (node.onDatagram source.address bytes now).2.sent
    rw [onDatagram]
    split
    · rename_i m hm
      refine h.onMessage hack m now fun hcontrol o ho => horders o ?_
      simp only [stimulus, hm, hcontrol]
      exact ho
    · exact ⟨h, short_nil⟩

end Node

end Groupcast
