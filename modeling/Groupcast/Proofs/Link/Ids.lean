import Groupcast.Proofs.Link.Driven

/-!
# Control messages have ids of their own

Whatever links are made to do, a control message is emitted once, when it is given to a link, and
with the next id of that link.  So of all control messages that have been emitted for a host no two
have the same id, as long as the ids of the link do not wrap (`Links.Stamped.driven`).
-/

namespace Groupcast

open PerfectLink (Move)

/-- A control message for a host is among datagrams. -/
structure Message.ControlIn (m : Message) (p : HostId) (ds : List Datagram) : Prop where
  isControl : m.kind.isControl = true
  receiver_eq : m.receiver = p
  mem : ∃ d ∈ ds, d.bytes = m.encode

theorem Message.controlIn_append {m : Message} {p : HostId} {ds ds' : List Datagram} :
    m.ControlIn p (ds ++ ds') ↔ m.ControlIn p ds ∨ m.ControlIn p ds' := by
  constructor
  · rintro ⟨hkind, hreceiver, d, hd, hbytes⟩
    rcases List.mem_append.mp hd with hd | hd
    · exact Or.inl ⟨hkind, hreceiver, d, hd, hbytes⟩
    · exact Or.inr ⟨hkind, hreceiver, d, hd, hbytes⟩
  · rintro (⟨hkind, hreceiver, d, hd, hbytes⟩ | ⟨hkind, hreceiver, d, hd, hbytes⟩)
    · exact ⟨hkind, hreceiver, d, List.mem_append_left _ hd, hbytes⟩
    · exact ⟨hkind, hreceiver, d, List.mem_append_right _ hd, hbytes⟩

namespace PerfectLink

variable {l : PerfectLink}

/-- The ids of a link count what it has been given to send. -/
theorem lastId_move (mv : Move) :
    (l.move mv).state.link.lastId = l.link.lastId + UInt32.ofNat mv.sends := by
  cases mv with
  | send m now =>
    simp only [move, send, StubbornLink.send]
    split <;> rfl
  | deliver m =>
    cases hkind : m.kind with
    | ack =>
      rw [move, (deliver_of_ack hkind).2.2]
      split <;> simp [Move.sends]
    | data =>
      rw [move, (deliver_of_data hkind).2.2]
      simp [Move.sends]
    | heartbeat | heartbeatAck =>
      rw [move, deliver_of_isControl (by rw [hkind]; rfl)]
      simp [Move.sends]
  | rest | timeout now | stop => simp [move, onTimeout, StubbornLink.onTimeout, stop,
      StubbornLink.stop, Move.sends]

/-- A link to a host that has been given some number of messages. -/
structure Counts (l : PerfectLink) (id : HostId) (count : Nat) : Prop where
  peer_eq : l.link.peer.id = id
  lastId_eq : l.link.lastId = UInt32.ofNat count
  sentCount_eq : l.sentCount = count

theorem Counts.move {id : HostId} {count : Nat} (h : l.Counts id count) (mv : Move) :
    (l.move mv).state.Counts id (count + mv.sends) where
  peer_eq := by rw [move_peer, h.peer_eq]
  lastId_eq := by rw [lastId_move, h.lastId_eq, UInt32.ofNat_add]
  sentCount_eq := by rw [move_sentCount, h.sentCount_eq]

/-- The id of the next message is one more than their number. -/
theorem Counts.lastId_add_one {id : HostId} {count : Nat} (h : l.Counts id count) :
    l.link.lastId + 1 = UInt32.ofNat (count + 1) := by
  rw [h.lastId_eq, UInt32.ofNat_add]
  rfl

/-- A link emits a control message only when it is given one to send. -/
theorem control_of_mem_sent_move {mv : Move} {m : Message} (hkind : m.kind.isControl = true)
    (hwaiting : l.AllWaiting fun m => m.kind = .data) {d : Datagram}
    (h : d ∈ (l.move mv).sent) (hbytes : d.bytes = m.encode) :
    ∃ m₀ now, mv = .send m₀ now ∧ m = l.link.stamp m₀ := by
  -- What waits is data, and what comes in is acknowledged: neither is control traffic.
  have hall : l.AllWaiting fun m' => m'.kind.isControl = true →
      ∃ m₀ now, mv = .send m₀ now ∧ m' = l.link.stamp m₀ := by
    refine hwaiting.mono fun m' hdata hcontrol => ?_
    rw [hdata] at hcontrol
    cases hcontrol
  obtain ⟨m', hsent, rfl⟩ := hall.exists_of_mem_sent
    (fun m₀ now hsend _ => ⟨m₀, now, hsend, rfl⟩) (fun _ _ _ hcontrol => by cases hcontrol) h
  obtain rfl : m' = m := Message.encode_injective hbytes
  exact hsent hkind

end PerfectLink

namespace Links

/-- Links count the messages that they are given, and the control messages that have been emitted
for a host are told apart by their ids, which go up to that count. -/
structure Stamped (g : Links) (p : HostId) (ds : List Datagram) : Prop where
  counts : ∀ (id : HostId) (l : PerfectLink), g.links[id]? = some l → l.Counts id l.sentCount
  waiting : ∀ (id : HostId) (l : PerfectLink), g.links[id]? = some l →
    l.AllWaiting fun m => m.kind = .data
  id_le : ∀ l, g.links[p]? = some l → ∀ m : Message, m.ControlIn p ds → m.id.toNat ≤ l.sentCount
  eq_of_id_eq : ∀ m m' : Message, m.ControlIn p ds → m'.ControlIn p ds → m.id = m'.id → m = m'

variable {g : Links} {r : Links × List Datagram} {allowed : HostId → Move → Prop} {p : HostId}
  {ds : List Datagram} {move : HostId → Move}

/-- A control message for a host is emitted by the link to that host, with its next id. -/
theorem Stamped.exists_send (h : g.Stamped p ds) (hmoved : g.Moved move r) {m : Message}
    (hm : m.ControlIn p r.2) : ∃ l m₀ now, g.links[p]? = some l ∧ move p = .send m₀ now ∧
      m = l.link.stamp m₀ := by
  obtain ⟨hkind, hreceiver, d, hd, hbytes⟩ := hm
  obtain ⟨id, l, hl, hd⟩ := (hmoved.mem_sent d).mp hd
  obtain ⟨m₀, now, hsend, rfl⟩ :=
    PerfectLink.control_of_mem_sent_move hkind (h.waiting id l hl) hd hbytes
  obtain rfl : id = p := (h.counts id l hl).peer_eq.symm.trans hreceiver
  exact ⟨l, m₀, now, hl, hsend, rfl⟩

/-- The id of a control message that is emitted now is one more than the count was. -/
theorem Stamped.toNat_id (h : g.Stamped p ds) (hmoved : g.Moved move r) (hwrap : r.1.Unwrapped)
    {l : PerfectLink} (hl : g.links[p]? = some l) {m : Message} (hm : m.ControlIn p r.2) :
    m.id.toNat = l.sentCount + 1 ∧ (l.move (move p)).state.sentCount = l.sentCount + 1 := by
  obtain ⟨l', m₀, now, hl', hsend, rfl⟩ := h.exists_send hmoved hm
  obtain rfl : l' = l := Option.some.inj (hl'.symm.trans hl)
  have hcount := hwrap p (l'.move (move p)).state (by rw [hmoved.getElem?_links, hl]; rfl)
  rw [PerfectLink.move_sentCount, hsend] at hcount ⊢
  refine ⟨?_, rfl⟩
  rw [StubbornLink.stamp_id, (h.counts p l' hl).lastId_add_one]
  exact UInt32.toNat_ofNat_of_lt hcount

theorem Stamped.moved (h : g.Stamped p ds) (hmoved : g.Moved move r) (hwrap : r.1.Unwrapped) :
    r.1.Stamped p (ds ++ r.2) := by
  constructor
  · intro id l hl
    rw [hmoved.getElem?_links] at hl
    obtain ⟨l₀, hl₀, rfl⟩ := Option.map_eq_some_iff.mp hl
    rw [PerfectLink.move_sentCount]
    exact (h.counts id l₀ hl₀).move (move id)
  · intro id l hl
    rw [hmoved.getElem?_links] at hl
    obtain ⟨l₀, hl₀, rfl⟩ := Option.map_eq_some_iff.mp hl
    exact (h.waiting id l₀ hl₀).move fun m now _ hkind => hkind
  · intro l hl m hm
    rw [hmoved.getElem?_links] at hl
    obtain ⟨l₀, hl₀, rfl⟩ := Option.map_eq_some_iff.mp hl
    rcases Message.controlIn_append.mp hm with hold | hm
    · have hle := h.id_le l₀ hl₀ m hold
      rw [PerfectLink.move_sentCount]
      omega
    · obtain ⟨hid, hcount⟩ := h.toNat_id hmoved hwrap hl₀ hm
      rw [hid, hcount]
  · intro m m' hm hm' hid
    rcases Message.controlIn_append.mp hm with hold | hm <;>
      rcases Message.controlIn_append.mp hm' with hold' | hm'
    · exact h.eq_of_id_eq m m' hold hold' hid
    · obtain ⟨l, -, -, hl, -, -⟩ := h.exists_send hmoved hm'
      have hle := h.id_le l hl m hold
      rw [hid, (h.toNat_id hmoved hwrap hl hm').1] at hle
      omega
    · obtain ⟨l, -, -, hl, -, -⟩ := h.exists_send hmoved hm
      have hle := h.id_le l hl m' hold'
      rw [← hid, (h.toNat_id hmoved hwrap hl hm).1] at hle
      omega
    · obtain ⟨l, m₀, now, hl, hsend, rfl⟩ := h.exists_send hmoved hm
      obtain ⟨l', m₀', now', hl', hsend', rfl⟩ := h.exists_send hmoved hm'
      rw [hl] at hl'
      rw [hsend] at hsend'
      cases hl'
      cases hsend'
      rfl

/-- Links that are new have been given nothing. -/
theorem stamped_toPeers {owner : HostId} {hosts : Hosts} (hlawful : hosts.Lawful)
    {peers : List Host} (hpeers : peers.Sublist hosts.toList) (tuning : Tuning) (p : HostId) :
    (toPeers owner peers tuning).Stamped p [] := by
  have hnone : ∀ m : Message, ¬ m.ControlIn p [] := by
    rintro m ⟨-, -, d, hd, -⟩
    cases hd
  refine ⟨fun id l hl => ?_, fun id l hl => ?_, fun l _ m hm => absurd hm (hnone m),
    fun m _ hm => absurd hm (hnone m)⟩
  · have hnew := forall_link_toPeers (P := fun l => l.link.lastId = 0 ∧ l.sentCount = 0)
      (fun _ => ⟨rfl, rfl⟩) id l hl
    have hends : (toPeers owner peers tuning).Speaks true owner hosts :=
      speaks_toPeers hlawful hpeers tuning
    have hend := hends.ends id l hl
    exact ⟨hlawful.id_eq hend.2, by rw [hnew.1, hnew.2]; rfl, rfl⟩
  · exact forall_link_toPeers (fun peer => PerfectLink.allWaiting_ofPeer owner peer _) id l hl

/-- **Control messages for a host have ids of their own**, whatever links go through, as long as
their ids do not wrap. -/
theorem Stamped.driven (h : g.Stamped p ds) (hdriven : Driven allowed g r)
    (hwrap : r.1.Unwrapped) : r.1.Stamped p (ds ++ r.2) := by
  induction hdriven generalizing ds with
  | nil =>
    rw [List.append_nil]
    exact h
  | cons hmoved _ hrest ih =>
    rw [← List.append_assoc]
    exact ih (h.moved hmoved (hrest.unwrapped hwrap)) hwrap

end Links

end Groupcast
