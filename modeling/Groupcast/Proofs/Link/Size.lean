import Groupcast.Proofs.Link.Driven

/-!
# How long the datagrams of links are

A link never makes a message longer: what it emits is a message that it is given to send, one that
waits to be sent again, or an acknowledgement, whose length is always the same.  So if no message
waits that is longer than `n` (`Links.Short`), and none is given to send, then no datagram is longer
either, and this goes on (`Links.short_run`).
-/

namespace Groupcast

/-- No datagram is longer than `n` bytes. -/
def Short (n : Nat) (ds : List Datagram) : Prop := ∀ d ∈ ds, d.bytes.length ≤ n

section

variable {n : Nat} {ds es : List Datagram}

theorem short_nil : Short n [] := fun _ hd => absurd hd List.not_mem_nil

theorem Short.append (hds : Short n ds) (hes : Short n es) : Short n (ds ++ es) := by
  intro d hd
  rcases List.mem_append.mp hd with h | h
  · exact hds d h
  · exact hes d h

end

/-- The length of everything that acknowledges a message: a header and one word. -/
def Message.ackLength : Nat := headerLength + 4

theorem Message.encodedLength_heartbeatAck (m : Message) (self : HostId) :
    (m.heartbeatAck self).encodedLength = ackLength := rfl

theorem Message.encodedLength_ofHeartbeat (self : HostId) :
    (ofHeartbeat self).encodedLength = headerLength := rfl

namespace PerfectLink

variable {n : Nat} {l : PerfectLink}

/-- The link is not given a message to send that is longer than `n`. -/
def Move.Short (n : Nat) : Move → Prop
  | .send m _ => m.encodedLength ≤ n
  | .rest | .deliver _ | .timeout _ | .stop => True

/-- No message waits that is longer than `n`. -/
def Short (n : Nat) (l : PerfectLink) : Prop :=
  ∀ (i : UInt32) (m : Message), l.link.sent[i]? = some m → m.encodedLength ≤ n

theorem short_ofPeer (self : HostId) (peer : Host) (interval : Nat) :
    (ofPeer self peer interval).Short n := allWaiting_ofPeer self peer interval

theorem Short.allWaiting (h : l.Short n) : l.AllWaiting (·.encodedLength ≤ n) := h

/-- A message that comes to wait is one that the link is given to send. -/
theorem short_state_move (h : l.Short n) {mv : Move} (hmv : mv.Short n) :
    (l.move mv).state.Short n := by
  refine h.allWaiting.move fun m now hsend _ => ?_
  rw [hsend] at hmv
  exact hmv

theorem short_sent_move (hack : Message.ackLength ≤ n) (h : l.Short n) {mv : Move}
    (hmv : mv.Short n) : Groupcast.Short n (l.move mv).sent := by
  intro d hd
  obtain ⟨m, hm, rfl⟩ := h.allWaiting.exists_of_mem_sent
    (fun m now hsend => by
      rw [hsend] at hmv
      exact hmv)
    (fun m _ _ => hack) hd
  exact Nat.le_trans (Nat.le_of_eq (Message.length_encode m)) hm

end PerfectLink

namespace Links

variable {n : Nat} {g : Links}

/-- On no link a message waits that is longer than `n`. -/
def Short (n : Nat) (g : Links) : Prop :=
  ∀ (id : HostId) (l : PerfectLink), g.links[id]? = some l → l.Short n

theorem short_toPeers (self : HostId) (peers : List Host) (tuning : Tuning) :
    (toPeers self peers tuning).Short n :=
  forall_link_toPeers fun peer => PerfectLink.short_ofPeer self peer tuning.retransmit

theorem Short.moved (hack : Message.ackLength ≤ n) (h : g.Short n)
    {move : HostId → PerfectLink.Move} {r : Links × List Datagram} (hmoved : g.Moved move r)
    (hmove : ∀ id, (move id).Short n) : r.1.Short n ∧ Groupcast.Short n r.2 := by
  constructor
  · intro id l hl
    rw [hmoved.getElem?_links] at hl
    obtain ⟨l₀, hl₀, rfl⟩ := Option.map_eq_some_iff.mp hl
    exact PerfectLink.short_state_move (h id l₀ hl₀) (hmove id)
  · intro d hd
    obtain ⟨id, l, hl, hd⟩ := (hmoved.mem_sent d).mp hd
    exact PerfectLink.short_sent_move hack (h id l hl) (hmove id) d hd

theorem Short.deliver (hack : Message.ackLength ≤ n) (h : g.Short n) (sender : HostId)
    (m : Message) :
    (g.deliver sender m).state.Short n ∧ Groupcast.Short n (g.deliver sender m).sent := by
  refine h.moved hack (moved_deliver sender m) fun id => ?_
  split <;> trivial

/-- Links emit nothing long if they are not given anything long to send. -/
theorem Short.effect (hack : Message.ackLength ≤ n) (h : g.Short n) (c : Cause Links) (now : Nat)
    (hc : ∀ o : Order, c = .input (.order o) → o.message.encodedLength ≤ n) :
    (c.effect g now).1.Short n ∧ Groupcast.Short n (c.effect g now).2 := by
  refine h.moved hack (moved_effect c now) fun id => ?_
  have hprompts := prompts_moveOf c now id
  generalize moveOf c now id = mv at hprompts
  cases hprompts with
  | order _ => exact hc _ rfl
  | rest | timeout | stop | arrival _ => trivial

/-- **Links emit nothing long as long as they are not given anything long to send.** -/
theorem Short.run (hack : Message.ackLength ≤ n) (h : g.Short n) (now : Nat)
    {cs : List (Cause Links)}
    (hcs : ∀ o : Order, .input (.order o) ∈ cs → o.message.encodedLength ≤ n) :
    (g.run now cs).1.Short n ∧ Groupcast.Short n (g.run now cs).2 := by
  induction cs generalizing g with
  | nil => exact ⟨h, short_nil⟩
  | cons c cs ih =>
    obtain ⟨hfirst, hsent⟩ := h.effect hack c now fun o ho => hcs o (ho ▸ List.mem_cons_self)
    obtain ⟨hrest, hsent'⟩ := ih hfirst fun o ho => hcs o (List.mem_cons_of_mem c ho)
    exact ⟨hrest, hsent.append hsent'⟩

end Links

end Groupcast
