import Groupcast.Link.Perfect
import Groupcast.Proofs.Link.Window
import Groupcast.Proofs.Message

/-!
# What a link can be made to do

Whatever happens to a member, each of its links is made to do one of five things (`Move`).  A link
has two halves that hardly meet: what it sends is governed by the stubborn link, and what it passes
on by the window of delivered ids.  The lemmas of this file say what each move does to either half
and which datagrams it emits; all of them go to the peer.
-/

namespace Groupcast

namespace StubbornLink

variable {l : StubbornLink}

@[simp] theorem acknowledge_peer (id : UInt32) : (l.acknowledge id).peer = l.peer := by
  rw [acknowledge]
  split <;> rfl

@[simp] theorem acknowledge_self (id : UInt32) : (l.acknowledge id).self = l.self := by
  rw [acknowledge]
  split <;> rfl

@[simp] theorem acknowledge_lastId (id : UInt32) : (l.acknowledge id).lastId = l.lastId := by
  rw [acknowledge]
  split <;> rfl

/-- Acknowledging an id takes it, and no other, off the messages that wait. -/
theorem getElem?_sent_acknowledge (id i : UInt32) :
    (l.acknowledge id).sent[i]? = if id = i then none else l.sent[i]? := by
  rw [acknowledge]
  split
  · simp [Std.ExtTreeMap.getElem?_erase]
  · rename_i hnone
    by_cases hi : id = i
    · subst hi
      rw [if_pos rfl]
      exact Std.ExtTreeMap.getElem?_eq_none (by simpa using hnone)
    · rw [if_neg hi]

/-- What is sent again is a message that waits. -/
theorem mem_sent_onTimeout {now : Nat} {d : Datagram} (h : d ∈ (l.onTimeout now).sent) :
    ∃ (id : UInt32) (m : Message), l.sent[id]? = some m ∧ d = l.datagram m := by
  simp only [onTimeout, List.mem_filterMap] at h
  obtain ⟨id, -, hm⟩ := h
  obtain ⟨m, hget, hd⟩ := Option.map_eq_some_iff.mp hm
  exact ⟨id, m, hget, hd.symm⟩

@[simp] theorem stamp_id (m : Message) : (l.stamp m).id = l.lastId + 1 := rfl

/-- Datagrams of one link carry one message only if they are one datagram. -/
theorem datagram_inj {m m' : Message} : l.datagram m = l.datagram m' ↔ m = m' := by
  simp [datagram]

end StubbornLink

namespace PerfectLink

/-- What a link can be made to do. -/
inductive Move where
  /-- Nothing. -/
  | rest
  /-- To send a message. -/
  | send (m : Message) (now : Nat)
  /-- To take in a message of the peer. -/
  | deliver (m : Message)
  /-- To do what is due. -/
  | timeout (now : Nat)
  /-- To give up on all messages that wait. -/
  | stop

/-- Makes a link do something, and returns the message that it passes on. -/
def move (l : PerfectLink) : Move → Step PerfectLink (Option Message)
  | .rest => ⟨l, [], none⟩
  | .send m now => ⟨(l.send m now).state, (l.send m now).sent, none⟩
  | .deliver m => l.deliver m
  | .timeout now => ⟨(l.onTimeout now).state, (l.onTimeout now).sent, none⟩
  | .stop => ⟨l.stop, [], none⟩

variable {l : PerfectLink}

/-! ## Taking in a message -/

theorem deliver_of_ack {m : Message} (hkind : m.kind = .ack) :
    (l.deliver m).sent = [] ∧ (l.deliver m).result = none ∧
      (l.deliver m).state =
        { l with link := match m.ackedId with
            | .ok id => l.link.acknowledge id
            | .error _ => l.link } := by
  simp only [deliver, StubbornLink.deliver, hkind]
  cases m.ackedId <;> simp

/-- A data message is acknowledged, and passed on unless its id has been delivered. -/
theorem deliver_of_data {m : Message} (hkind : m.kind = .data) :
    (l.deliver m).sent = [l.link.datagram (m.ack l.link.self)] ∧
      (l.deliver m).result = (if l.delivered.contains m.id then none else some m) ∧
      (l.deliver m).state = { l with delivered := l.delivered.insert m.id } := by
  simp only [deliver, StubbornLink.deliver, hkind]
  by_cases hold : l.delivered.contains m.id = true
  · have hsame : l.delivered.insert m.id = l.delivered := by rw [Window.insert, if_pos hold]
    simp [hold, hsame]
  · simp [hold]

theorem deliver_of_isControl {m : Message} (hkind : m.kind.isControl = true) :
    l.deliver m = ⟨l, [], some m⟩ := by
  cases hk : m.kind <;> rw [hk] at hkind
  · cases hkind
  · cases hkind
  · simp [deliver, StubbornLink.deliver, hk]
  · simp [deliver, StubbornLink.deliver, hk]

/-- A link passes on only what it takes in. -/
theorem eq_of_deliver_result {m m' : Message} (h : (l.deliver m).result = some m') : m' = m := by
  cases hkind : m.kind with
  | ack =>
    rw [(deliver_of_ack hkind).2.1] at h
    cases h
  | data =>
    rw [(deliver_of_data hkind).2.1] at h
    split at h
    · cases h
    · cases h
      rfl
  | heartbeat | heartbeatAck =>
    rw [deliver_of_isControl (by rw [hkind]; rfl)] at h
    cases h
    rfl

/-- A link passes on data exactly if it has not delivered its id before. -/
theorem deliver_result_data_iff {m m' : Message} :
    (l.deliver m).result = some m' ∧ m'.kind = .data ↔
      m' = m ∧ m.kind = .data ∧ l.delivered.contains m.id = false := by
  constructor
  · rintro ⟨hresult, hkind⟩
    have heq := eq_of_deliver_result hresult
    subst heq
    rw [(deliver_of_data hkind).2.1] at hresult
    split at hresult
    · cases hresult
    · rename_i hnew
      exact ⟨rfl, hkind, by simpa using hnew⟩
  · rintro ⟨rfl, hkind, hnew⟩
    rw [(deliver_of_data hkind).2.1, hnew]
    exact ⟨rfl, hkind⟩

/-! ## What no move changes -/

/-- A link keeps its two ends. -/
theorem move_ends (mv : Move) : (l.move mv).state.link.self = l.link.self ∧
    (l.move mv).state.link.peer = l.link.peer := by
  cases mv with
  | deliver m =>
    cases hkind : m.kind with
    | ack =>
      rw [move, (deliver_of_ack hkind).2.2]
      split <;> simp
    | data =>
      rw [move, (deliver_of_data hkind).2.2]
      exact ⟨rfl, rfl⟩
    | heartbeat | heartbeatAck =>
      rw [move, deliver_of_isControl (by rw [hkind]; rfl)]
      exact ⟨rfl, rfl⟩
  | send m now =>
    simp only [move, send, StubbornLink.send]
    split <;> exact ⟨rfl, rfl⟩
  | rest | timeout now | stop => exact ⟨rfl, rfl⟩

@[simp] theorem move_self (mv : Move) : (l.move mv).state.link.self = l.link.self :=
  (move_ends mv).1

@[simp] theorem move_peer (mv : Move) : (l.move mv).state.link.peer = l.link.peer :=
  (move_ends mv).2

/-! ## What a move emits -/

/-- The data that a link emits is what it is given to send, or waits for an acknowledgement. -/
theorem data_of_mem_sent_move {mv : Move} {m : Message} (hkind : m.kind = .data)
    (h : l.link.datagram m ∈ (l.move mv).sent) :
    (∃ m₀ now, mv = .send m₀ now ∧ m₀.kind = .data ∧ m = l.link.stamp m₀) ∨
      ∃ i : UInt32, l.link.sent[i]? = some m := by
  cases mv with
  | send m₀ now =>
    have heq : m = l.link.stamp m₀ :=
      StubbornLink.datagram_inj.mp (List.mem_singleton.mp h)
    subst heq
    exact Or.inl ⟨m₀, now, rfl, hkind, rfl⟩
  | timeout now =>
    obtain ⟨i, m', hget, heq⟩ := StubbornLink.mem_sent_onTimeout h
    rw [StubbornLink.datagram_inj.mp heq]
    exact Or.inr ⟨i, hget⟩
  | deliver m₀ =>
    cases hkind₀ : m₀.kind with
    | ack =>
      rw [move, (deliver_of_ack hkind₀).1] at h
      cases h
    | data =>
      rw [move, (deliver_of_data hkind₀).1, List.mem_singleton, StubbornLink.datagram_inj] at h
      rw [h, Message.kind_ack] at hkind
      cases hkind
    | heartbeat | heartbeatAck =>
      rw [move, deliver_of_isControl (by rw [hkind₀]; rfl)] at h
      cases h
  | rest | stop => cases h

/-- A link acknowledges only data that it takes in, as long as it is not given acknowledgements to
send. -/
theorem ack_of_mem_sent_move {mv : Move} {m : Message} (hkind : m.kind = .ack)
    (hsend : ∀ m₀ now, mv = .send m₀ now → m₀.kind ≠ .ack)
    (hwaiting : ∀ (i : UInt32) m₀, l.link.sent[i]? = some m₀ → m₀.kind = .data)
    (h : l.link.datagram m ∈ (l.move mv).sent) :
    ∃ m₀, mv = .deliver m₀ ∧ m₀.kind = .data ∧ m = m₀.ack l.link.self := by
  cases mv with
  | send m₀ now =>
    have heq : m = l.link.stamp m₀ :=
      StubbornLink.datagram_inj.mp (List.mem_singleton.mp h)
    subst heq
    exact absurd hkind (hsend m₀ now rfl)
  | timeout now =>
    obtain ⟨i, m', hget, heq⟩ := StubbornLink.mem_sent_onTimeout h
    rw [StubbornLink.datagram_inj.mp heq, hwaiting i m' hget] at hkind
    cases hkind
  | deliver m₀ =>
    cases hkind₀ : m₀.kind with
    | ack =>
      rw [move, (deliver_of_ack hkind₀).1] at h
      cases h
    | data =>
      rw [move, (deliver_of_data hkind₀).1, List.mem_singleton, StubbornLink.datagram_inj] at h
      exact ⟨m₀, rfl, hkind₀, h⟩
    | heartbeat | heartbeatAck =>
      rw [move, deliver_of_isControl (by rw [hkind₀]; rfl)] at h
      cases h
  | rest | stop => cases h

/-- All that a link emits is for its peer. -/
theorem target_of_mem_sent_move {mv : Move} {d : Datagram} (h : d ∈ (l.move mv).sent) :
    d.target = l.link.peer.address := by
  cases mv with
  | send m₀ now => rw [List.mem_singleton.mp h]; rfl
  | timeout now =>
    obtain ⟨i, m', -, heq⟩ := StubbornLink.mem_sent_onTimeout h
    rw [heq]
    rfl
  | deliver m₀ =>
    cases hkind₀ : m₀.kind with
    | ack =>
      rw [move, (deliver_of_ack hkind₀).1] at h
      cases h
    | data =>
      rw [move, (deliver_of_data hkind₀).1, List.mem_singleton] at h
      rw [h]
      rfl
    | heartbeat | heartbeatAck =>
      rw [move, deliver_of_isControl (by rw [hkind₀]; rfl)] at h
      cases h
  | rest | stop => cases h

/-- With nothing in flight no message waits. -/
theorem getElem?_sent_of_inFlight (h : l.inFlight = 0) (i : UInt32) : l.link.sent[i]? = none := by
  have hempty : l.link.sent.isEmpty = true := by
    rw [Std.ExtTreeMap.isEmpty_eq_size_beq_zero]
    exact beq_iff_eq.mpr h
  rw [Std.ExtTreeMap.isEmpty_iff.mp hempty]
  exact Std.ExtTreeMap.getElem?_empty

/-! ## What a move changes -/

/-- The number of messages that a move gives a link to send. -/
def Move.sends : Move → Nat
  | .send _ _ => 1
  | .rest | .deliver _ | .timeout _ | .stop => 0

theorem Move.sends_le_one (mv : Move) : mv.sends ≤ 1 := by
  cases mv with
  | send m now => exact Nat.le_refl 1
  | rest | deliver m | timeout now | stop => exact Nat.zero_le 1

@[simp] theorem move_sentCount (mv : Move) :
    (l.move mv).state.sentCount = l.sentCount + mv.sends := by
  cases mv with
  | deliver m =>
    cases hkind : m.kind with
    | ack =>
      rw [move, (deliver_of_ack hkind).2.2]
      rfl
    | data =>
      rw [move, (deliver_of_data hkind).2.2]
      rfl
    | heartbeat | heartbeatAck =>
      rw [move, deliver_of_isControl (by rw [hkind]; rfl)]
      rfl
  | send m now | rest | timeout now | stop => rfl

/-- The window of delivered ids changes only when data is taken in. -/
theorem contains_delivered_move (hsound : l.delivered.Sound) (mv : Move) (i : UInt32) :
    (l.move mv).state.delivered.contains i = true ↔
      l.delivered.contains i = true ∨ ∃ m, mv = .deliver m ∧ m.kind = .data ∧ m.id = i := by
  cases mv with
  | deliver m =>
    cases hkind : m.kind with
    | ack =>
      rw [move, (deliver_of_ack hkind).2.2]
      simp [hkind]
    | data =>
      rw [move, (deliver_of_data hkind).2.2, Window.contains_insert hsound]
      constructor
      · rintro (rfl | hold)
        · exact Or.inr ⟨m, rfl, hkind, rfl⟩
        · exact Or.inl hold
      · rintro (hold | ⟨m', heq, -, hid⟩)
        · exact Or.inr hold
        · cases heq
          exact Or.inl hid.symm
    | heartbeat | heartbeatAck =>
      rw [move, deliver_of_isControl (by rw [hkind]; rfl)]
      simp [hkind]
  | send m now | rest | timeout now | stop => simp [move, send, onTimeout, stop]

theorem sound_delivered_move (hsound : l.delivered.Sound) (mv : Move) :
    (l.move mv).state.delivered.Sound := by
  cases mv with
  | deliver m =>
    cases hkind : m.kind with
    | ack =>
      rw [move, (deliver_of_ack hkind).2.2]
      exact hsound
    | data =>
      rw [move, (deliver_of_data hkind).2.2]
      exact Window.sound_insert hsound m.id
    | heartbeat | heartbeatAck =>
      rw [move, deliver_of_isControl (by rw [hkind]; rfl)]
      exact hsound
  | send m now | rest | timeout now | stop => exact hsound

end PerfectLink

end Groupcast
