import Groupcast.Proofs.Link.Batch

/-!
# What links go through

From the moves of links nothing can be seen of the time or of the layer above.  So it does not
matter how many steps or whose orders they come from: what links go through is a chain of moves of
all of them (`Links.Driven`), and what holds of every chain whose moves are of a certain kind holds
of every run that makes such moves.

Two facts are of this form.  If a member gives its links only messages in its own name, and what it
hands to the link to a host is in that host's name, then every datagram that its links emit carries
a message in the member's own name that is meant for the host at the datagram's target
(`Speaks.driven`).  And on the links of a member only such messages wait as have been emitted
(`WaitingIn.driven`).
-/

namespace Groupcast

namespace PerfectLink

variable {l : PerfectLink} {P : Message → Prop}

/-! ## What waits -/

/-- All messages that wait have a property. -/
def AllWaiting (P : Message → Prop) (l : PerfectLink) : Prop :=
  ∀ (i : UInt32) (m : Message), l.link.sent[i]? = some m → P m

theorem allWaiting_ofPeer (self : HostId) (peer : Host) (interval : Nat) :
    (ofPeer self peer interval).AllWaiting P := by
  intro i m hget
  simp [ofPeer, StubbornLink.ofPeer] at hget

theorem AllWaiting.mono {Q : Message → Prop} (h : l.AllWaiting P) (hPQ : ∀ m, P m → Q m) :
    l.AllWaiting Q := fun i m hget => hPQ m (h i m hget)

/-- A message that comes to wait is one that the link is given to send. -/
theorem AllWaiting.move (h : l.AllWaiting P) {mv : Move}
    (hsend : ∀ m now, mv = .send m now → m.kind = .data → P (l.link.stamp m)) :
    (l.move mv).state.AllWaiting P := by
  intro i m hget
  cases mv with
  | rest => exact h i m hget
  | send m₀ now =>
    simp only [PerfectLink.move, send, StubbornLink.send] at hget
    split at hget
    · rename_i hkind
      rw [Std.ExtTreeMap.getElem?_insert] at hget
      split at hget
      · cases hget
        exact hsend m₀ now rfl hkind
      · exact h i m hget
    · exact h i m hget
  | deliver m₀ =>
    cases hkind : m₀.kind with
    | ack =>
      rw [PerfectLink.move, (deliver_of_ack hkind).2.2] at hget
      split at hget
      · rw [StubbornLink.getElem?_sent_acknowledge] at hget
        split at hget
        · cases hget
        · exact h i m hget
      · exact h i m hget
    | data =>
      rw [PerfectLink.move, (deliver_of_data hkind).2.2] at hget
      exact h i m hget
    | heartbeat | heartbeatAck =>
      rw [PerfectLink.move, deliver_of_isControl (by rw [hkind]; rfl)] at hget
      exact h i m hget
  | timeout now => exact h i m hget
  | stop =>
    simp only [PerfectLink.move, stop, StubbornLink.stop] at hget
    simp at hget

/-- What a link emits is what it is given to send, what waits, or acknowledges what it takes in. -/
theorem AllWaiting.exists_of_mem_sent (h : l.AllWaiting P) {mv : Move}
    (hsend : ∀ m now, mv = .send m now → P (l.link.stamp m))
    (hack : ∀ m, mv = .deliver m → m.kind = .data → P (m.ack l.link.self)) {d : Datagram}
    (hd : d ∈ (l.move mv).sent) : ∃ m, P m ∧ d = l.link.datagram m := by
  cases mv with
  | send m₀ now => exact ⟨_, hsend m₀ now rfl, List.mem_singleton.mp hd⟩
  | timeout now =>
    obtain ⟨i, m, hget, heq⟩ := StubbornLink.mem_sent_onTimeout hd
    exact ⟨m, h i m hget, heq⟩
  | deliver m₀ =>
    cases hkind : m₀.kind with
    | ack =>
      rw [PerfectLink.move, (deliver_of_ack hkind).1] at hd
      cases hd
    | data =>
      rw [PerfectLink.move, (deliver_of_data hkind).1, List.mem_singleton] at hd
      exact ⟨_, hack m₀ rfl hkind, hd⟩
    | heartbeat | heartbeatAck =>
      rw [PerfectLink.move, deliver_of_isControl (by rw [hkind]; rfl)] at hd
      cases hd
  | rest | stop => cases hd

/-- A move in which the link of `owner` to a host is given nothing to send that is in another name
than its owner's, and nothing to take in that is in another name than that host's.  `control` says
whether all this is control traffic or whether nothing of it is. -/
def Move.InName (control : Bool) (owner peer : HostId) : Move → Prop
  | .send m _ => m.kind.isControl = control ∧ m.sender = owner
  | .deliver m => m.kind.isControl = control ∧ m.sender = peer
  | .rest | .timeout _ | .stop => True

end PerfectLink

open PerfectLink (Move)

namespace Links

variable {g : Links} {r r' : Links × List Datagram} {allowed : HostId → Move → Prop}
  {now : Nat}

/-! ## Chains of moves -/

/-- Links become `r.1` and emit `r.2` in moves all of which are allowed. -/
inductive Driven (allowed : HostId → Move → Prop) : Links → Links × List Datagram → Prop where
  | nil (g : Links) : Driven allowed g (g, [])
  | cons {g : Links} {move : HostId → Move} {r r' : Links × List Datagram} (hmoved : g.Moved move r)
      (hallowed : ∀ id, allowed id (move id)) (hrest : Driven allowed r.1 r') :
      Driven allowed g (r'.1, r.2 ++ r'.2)

theorem Driven.of_moved {move : HostId → Move} (hmoved : g.Moved move r)
    (hallowed : ∀ id, allowed id (move id)) : Driven allowed g r := by
  have h := Driven.cons hmoved hallowed (.nil r.1)
  rwa [List.append_nil] at h

theorem Driven.trans (h : Driven allowed g r) (h' : Driven allowed r.1 r') :
    Driven allowed g (r'.1, r.2 ++ r'.2) := by
  induction h with
  | nil => exact h'
  | cons hmoved hallowed _ ih =>
    have hcons := Driven.cons hmoved hallowed (ih h')
    rwa [← List.append_assoc] at hcons

theorem Driven.self_eq (h : Driven allowed g r) : r.1.self = g.self := by
  induction h with
  | nil => rfl
  | cons hmoved _ _ ih => exact ih.trans hmoved.self_eq

theorem driven_deliver {sender : HostId} {m : Message} (hrest : ∀ id, allowed id .rest)
    (hm : allowed sender (.deliver m)) :
    Driven allowed g ((g.deliver sender m).state, (g.deliver sender m).sent) := by
  refine .of_moved (moved_deliver sender m) fun id => ?_
  split
  · rename_i hid
    exact hid ▸ hm
  · exact hrest id

theorem moved_onTimeout (now : Nat) :
    g.Moved (fun _ => .timeout now) ((g.onTimeout now).state, (g.onTimeout now).sent) :=
  moved_effect (.input .timeout) now

theorem driven_onTimeout (hallowed : ∀ id, allowed id (.timeout now)) :
    Driven allowed g ((g.onTimeout now).state, (g.onTimeout now).sent) :=
  .of_moved (moved_onTimeout now) hallowed

theorem driven_stop (hallowed : ∀ id, allowed id .stop) : Driven allowed g (g.stop, []) :=
  .of_moved (moved_effect (.input .stop) 0) hallowed

theorem driven_run {cs : List (Cause Links)}
    (hcs : ∀ c ∈ cs, ∀ id, allowed id (moveOf c now id)) : Driven allowed g (g.run now cs) := by
  induction cs generalizing g with
  | nil => exact .nil g
  | cons c cs ih =>
    exact .cons (moved_effect c now) (hcs c List.mem_cons_self)
      (ih fun c' hc' => hcs c' (List.mem_cons_of_mem c hc'))

/-- Links never forget that they have sent. -/
theorem Driven.unwrapped (h : Driven allowed g r) (hwrap : r.1.Unwrapped) : g.Unwrapped := by
  induction h with
  | nil => exact hwrap
  | @cons _ move _ _ hmoved _ _ ih =>
    intro id l hl
    have hlt := ih hwrap id (l.move (move id)).state (by rw [hmoved.getElem?_links, hl]; rfl)
    rw [PerfectLink.move_sentCount] at hlt
    omega

/-- What holds of links at first, and of each link after an allowed move, holds of them in the
end. -/
theorem Driven.forall_link {P : HostId → PerfectLink → Prop} (h : Driven allowed g r)
    (hstart : ∀ (id : HostId) (l : PerfectLink), g.links[id]? = some l → P id l)
    (hmove : ∀ id l mv, P id l → allowed id mv → P id (l.move mv).state) :
    ∀ (id : HostId) (l : PerfectLink), r.1.links[id]? = some l → P id l := by
  induction h with
  | nil => exact hstart
  | @cons _ move _ _ hmoved hallowed _ ih =>
    refine ih fun id l hl => ?_
    rw [hmoved.getElem?_links] at hl
    obtain ⟨l₀, hl₀, rfl⟩ := Option.map_eq_some_iff.mp hl
    exact hmove id l₀ (move id) (hstart id l₀ hl₀) (hallowed id)

/-- The links of a member still go to all members of the group. -/
theorem Fits.driven {owner : HostId} {hosts : Hosts} (h : g.Fits owner hosts)
    (hdriven : Driven allowed g r) : r.1.Fits owner hosts := by
  induction hdriven with
  | nil => exact h
  | cons hmoved _ _ ih => exact ih (h.moved hmoved)

/-! ## Whose messages links carry -/

end Links

/-- The kind of the message in a datagram. -/
def Datagram.kind? (d : Datagram) : Option Kind :=
  match Message.decode d.bytes with
  | .ok m => some m.kind
  | .error _ => none

/-- A datagram carries a message of `owner` that is meant for the member at the datagram's target.
`control` says whether it is control traffic. -/
def Datagram.InName (control : Bool) (owner : HostId) (hosts : Hosts) (d : Datagram) : Prop :=
  ∃ (m : Message) (receiver : Host), hosts.get? m.receiver = some receiver ∧ m.sender = owner ∧
    m.kind.isControl = control ∧ d = ⟨receiver.address, m.encode⟩

theorem Datagram.kind?_encode (a : Address) (m : Message) :
    (⟨a, m.encode⟩ : Datagram).kind? = some m.kind := by
  rw [kind?, Message.decode_encode]

namespace Links

variable {g : Links} {r : Links × List Datagram} {allowed : HostId → Move → Prop}
  {control : Bool} {owner : HostId} {hosts : Hosts}

/-- All that links emit of their own accord when a message comes in is an acknowledgement. -/
theorem kind?_of_mem_sent_deliver {sender : HostId} {m : Message} {d : Datagram}
    (hd : d ∈ (g.deliver sender m).sent) : d.kind? = some .ack := by
  obtain ⟨id, l, -, hmem⟩ := ((moved_deliver sender m).mem_sent d).mp hd
  split at hmem
  · cases hkind : m.kind with
    | ack =>
      rw [PerfectLink.move, (PerfectLink.deliver_of_ack hkind).1] at hmem
      cases hmem
    | data =>
      rw [PerfectLink.move, (PerfectLink.deliver_of_data hkind).1, List.mem_singleton] at hmem
      rw [hmem, StubbornLink.datagram, Datagram.kind?_encode, Message.kind_ack]
    | heartbeat | heartbeatAck =>
      rw [PerfectLink.move, PerfectLink.deliver_of_isControl (by rw [hkind]; rfl)] at hmem
      cases hmem
  · cases hmem

/-- The links of a member go to members of the group, and on each of them only messages wait that
are in the member's own name and meant for the host at its other end. -/
structure Speaks (control : Bool) (owner : HostId) (hosts : Hosts) (g : Links) : Prop where
  ends : ∀ (id : HostId) (l : PerfectLink), g.links[id]? = some l →
    l.link.self = owner ∧ hosts.get? id = some l.link.peer
  waiting : ∀ (id : HostId) (l : PerfectLink), g.links[id]? = some l →
    l.AllWaiting fun m => m.kind.isControl = control ∧ m.sender = owner ∧ m.receiver = id

/-- A link that is new speaks in its owner's name. -/
theorem speaks_toPeers (hlawful : hosts.Lawful) {peers : List Host}
    (hpeers : peers.Sublist hosts.toList) (tuning : Tuning) :
    (toPeers owner peers tuning).Speaks control owner hosts := by
  have hnodup : (peers.map Host.id).Nodup := (hpeers.map Host.id).nodup hlawful.nodup_map_id
  have hlink : ∀ (id : HostId) (l : PerfectLink), (toPeers owner peers tuning).links[id]? = some l →
      ∃ h, hosts.get? id = some h ∧ .ofPeer owner h tuning.retransmit = l := by
    intro id l hl
    rw [toPeers, Tables.getElem?_foldl_insert Host.id _ _ _ hnodup, Std.ExtTreeMap.getElem?_empty,
      Option.or_none] at hl
    obtain ⟨h, hfind, rfl⟩ := Option.map_eq_some_iff.mp hl
    obtain ⟨id', hget⟩ :=
      Hosts.mem_toList_iff.mp (hpeers.subset (List.mem_of_find?_eq_some hfind))
    have hid : h.id = id := by simpa using List.find?_some hfind
    rw [← hlawful.id_eq hget, hid] at hget
    exact ⟨h, hget, rfl⟩
  constructor
  · intro id l hl
    obtain ⟨h, hget, rfl⟩ := hlink id l hl
    exact ⟨rfl, hget⟩
  · intro id l hl
    obtain ⟨h, -, rfl⟩ := hlink id l hl
    exact PerfectLink.allWaiting_ofPeer owner h tuning.retransmit

theorem Speaks.moved (h : g.Speaks control owner hosts) (hlawful : hosts.Lawful)
    {move : HostId → Move} (hmoved : g.Moved move r)
    (hmove : ∀ id, (move id).InName control owner id) :
    r.1.Speaks control owner hosts ∧ ∀ d ∈ r.2, d.InName control owner hosts := by
  have hstamp : ∀ (id : HostId) (l : PerfectLink) m now, g.links[id]? = some l →
      move id = .send m now → (l.link.stamp m).kind.isControl = control ∧
        (l.link.stamp m).sender = owner ∧ (l.link.stamp m).receiver = id := by
    intro id l m now hl hsend
    have hm := hmove id
    rw [hsend] at hm
    exact ⟨hm.1, hm.2, hlawful.id_eq (h.ends id l hl).2⟩
  refine ⟨⟨fun id l hl => ?_, fun id l hl => ?_⟩, fun d hd => ?_⟩
  · rw [hmoved.getElem?_links] at hl
    obtain ⟨l₀, hl₀, rfl⟩ := Option.map_eq_some_iff.mp hl
    rw [PerfectLink.move_self, PerfectLink.move_peer]
    exact h.ends id l₀ hl₀
  · rw [hmoved.getElem?_links] at hl
    obtain ⟨l₀, hl₀, rfl⟩ := Option.map_eq_some_iff.mp hl
    exact (h.waiting id l₀ hl₀).move fun m now hsend _ => hstamp id l₀ m now hl₀ hsend
  · obtain ⟨id, l, hl, hmem⟩ := (hmoved.mem_sent d).mp hd
    obtain ⟨hself, hpeer⟩ := h.ends id l hl
    obtain ⟨m, ⟨hkind, hsender, hreceiver⟩, rfl⟩ := (h.waiting id l hl).exists_of_mem_sent
      (fun m now hsend => hstamp id l m now hl hsend)
      (fun m hdeliver hdata => by
        have hm := hmove id
        rw [hdeliver] at hm
        obtain ⟨hcontrol, hsender⟩ := hm
        rw [hdata] at hcontrol
        exact ⟨hcontrol, hself, hsender⟩) hmem
    exact ⟨m, l.link.peer, hreceiver ▸ hpeer, hsender, hkind, rfl⟩

/-- **Links that are used in their owner's name emit only what is in that name and meant for the
host at the target.** -/
theorem Speaks.driven (h : g.Speaks control owner hosts) (hlawful : hosts.Lawful)
    (hdriven : Driven (fun id mv => mv.InName control owner id) g r) :
    r.1.Speaks control owner hosts ∧ ∀ d ∈ r.2, d.InName control owner hosts := by
  induction hdriven with
  | nil => exact ⟨h, nofun⟩
  | cons hmoved hmove _ ih =>
    obtain ⟨hfirst, hsent⟩ := h.moved hlawful hmoved hmove
    obtain ⟨hrest, hsent'⟩ := ih hfirst
    exact ⟨hrest, fun d hd => (List.mem_append.mp hd).elim (hsent d) (hsent' d)⟩

/-! ## What waits has been sent -/

/-- All messages that wait on the links are among the datagrams of a list. -/
def WaitingIn (ds : List Datagram) (g : Links) : Prop :=
  ∀ (id : HostId) (l : PerfectLink), g.links[id]? = some l →
    l.AllWaiting fun m => l.link.datagram m ∈ ds

/-- What comes to wait has been sent. -/
theorem WaitingIn.driven {ds : List Datagram} (h : g.WaitingIn ds) (hdriven : Driven allowed g r) :
    r.1.WaitingIn (ds ++ r.2) := by
  induction hdriven generalizing ds with
  | nil =>
    rw [List.append_nil]
    exact h
  | @cons _ move r _ hmoved _ _ ih =>
    rw [← List.append_assoc]
    refine ih fun id l hl => ?_
    rw [hmoved.getElem?_links] at hl
    obtain ⟨l₀, hl₀, rfl⟩ := Option.map_eq_some_iff.mp hl
    have hsame : ∀ m, (l₀.move (move id)).state.link.datagram m = l₀.link.datagram m := by
      intro m
      rw [StubbornLink.datagram, StubbornLink.datagram, PerfectLink.move_peer]
    simp only [hsame]
    refine ((h id l₀ hl₀).mono fun m hm => List.mem_append_left _ hm).move ?_
    intro m now hsend _
    refine List.mem_append_right _ ((hmoved.mem_sent _).mpr ⟨id, l₀, hl₀, ?_⟩)
    rw [hsend]
    exact List.mem_singleton.mpr rfl

end Links

end Groupcast
