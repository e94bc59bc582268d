import Groupcast.Proofs.Link.Move
import Groupcast.Proofs.System

/-!
# Groups of links as members

The links of a member are a state machine of their own, driven by four things: orders of the layer
above to send a message, to one host or to all; the passing of time; the end of it all; and the
datagrams that arrive.  Whatever drives it, each link is made to do one move (`Links.moveOf`), and
what the links have become and emitted is what those moves say (`links_effect`, `mem_effect`).

From the start on a member has exactly one link to each member of the group, itself included
(`Links.Fits`).
-/

namespace Groupcast

/-- What a layer above the links can ask them to send.  Acknowledgements are the links' own affair,
and no layer above ever asks for one. -/
inductive Order where
  | one (receiver : HostId) (m : Message) (notAck : m.kind ≠ .ack)
  | all (m : Message) (notAck : m.kind ≠ .ack)

namespace Order

/-- The message to send. -/
def message : Order → Message
  | one _ m _ | all m _ => m

theorem kind_ne_ack : ∀ o : Order, o.message.kind ≠ .ack
  | one _ _ h | all _ h => h

/-- Whether a host is meant. -/
def reaches (o : Order) (id : HostId) : Bool :=
  match o with
  | one receiver _ _ => id = receiver
  | all _ _ => true

end Order

namespace Links

/-- Does what is ordered.  An order to send to a host without a link is dropped. -/
def perform (g : Links) (o : Order) (now : Nat) : Links × List Datagram :=
  match o with
  | .one receiver m _ =>
    match g.send receiver m now with
    | .ok step => (step.state, step.sent)
    | .error _ => (g, [])
  | .all m _ => ((g.sendAll m now).state, (g.sendAll m now).sent)

/-- What the links of a member can be asked to do from within. -/
inductive Input where
  | order (o : Order)
  | timeout
  | stop

instance : Member Links where
  Input := Input
  act g i now :=
    match i with
    | .order o => g.perform o now
    | .timeout => ((g.onTimeout now).state, (g.onTimeout now).sent)
    | .stop => (g.stop, [])
  receive g source bytes _ :=
    match Message.decode bytes with
    | .ok m => ((g.deliver source.id m).state, (g.deliver source.id m).sent)
    | .error _ => (g, [])

/-- What the link to a host is made to do. -/
def moveOf (c : Cause Links) (now : Nat) (id : HostId) : PerfectLink.Move :=
  match c with
  | .input (.order o) => if o.reaches id then .send o.message now else .rest
  | .input .timeout => .timeout now
  | .input .stop => .stop
  | .arrival source bytes =>
    match Message.decode bytes with
    | .ok m => if id = source.id then .deliver m else .rest
    | .error _ => .rest

/-- Why the link to a host does a move. -/
inductive Prompts (now : Nat) (id : HostId) : Cause Links → PerfectLink.Move → Prop where
  | rest {c : Cause Links} : Prompts now id c .rest
  | order {o : Order} (hreaches : o.reaches id = true) :
      Prompts now id (.input (.order o)) (.send o.message now)
  | timeout : Prompts now id (.input .timeout) (.timeout now)
  | stop : Prompts now id (.input .stop) .stop
  | arrival {source : Host} {m : Message} (hsource : source.id = id) :
      Prompts now id (.arrival source m.encode) (.deliver m)

theorem prompts_moveOf (c : Cause Links) (now : Nat) (id : HostId) :
    Prompts now id c (moveOf c now id) := by
  cases c with
  | input i =>
    cases i with
    | order o =>
      by_cases hid : o.reaches id = true
      · rw [moveOf, if_pos hid]
        exact .order hid
      · rw [moveOf, if_neg hid]
        exact .rest
    | timeout => exact .timeout
    | stop => exact .stop
  | arrival source bytes =>
    cases hdecode : Message.decode bytes with
    | ok m =>
      rw [Message.decode_eq_ok_iff] at hdecode
      subst hdecode
      simp only [moveOf, Message.decode_encode]
      by_cases hid : id = source.id
      · rw [if_pos hid]
        exact .arrival hid.symm
      · rw [if_neg hid]
        exact .rest
    | error e =>
      simp only [moveOf, hdecode]
      exact .rest

variable {g : Links}

/-- Each link has done its move, and all that was emitted was emitted in those moves. -/
structure Moved (g : Links) (move : HostId → PerfectLink.Move) (r : Links × List Datagram) :
    Prop where
  self_eq : r.1.self = g.self
  getElem?_links : ∀ id : HostId,
    r.1.links[id]? = g.links[id]?.map fun l => (l.move (move id)).state
  mem_sent : ∀ d, d ∈ r.2 ↔
    ∃ (id : HostId) (l : PerfectLink), g.links[id]? = some l ∧ d ∈ (l.move (move id)).sent

theorem moved_rest : g.Moved (fun _ => .rest) (g, []) where
  self_eq := rfl
  getElem?_links id := by
    cases g.links[id]? <;> rfl
  mem_sent d := by simp [PerfectLink.move]

/-- A step on one link is a move of that link. -/
theorem moved_put {α : Type} {id : HostId} {l : PerfectLink} {step : Step PerfectLink α}
    (mv : PerfectLink.Move) (hl : g.links[id]? = some l) (hstate : (l.move mv).state = step.state)
    (hsent : (l.move mv).sent = step.sent) :
    g.Moved (fun i => if i = id then mv else .rest)
      ((g.put id step).state, (g.put id step).sent) where
  self_eq := rfl
  getElem?_links i := by
    simp only [put, Std.ExtTreeMap.getElem?_insert, Std.compare_eq_iff_eq]
    by_cases hi : i = id
    · subst hi
      rw [if_pos rfl, if_pos rfl, hl, Option.map_some, hstate]
    · rw [if_neg (fun heq => hi heq.symm), if_neg hi]
      cases g.links[i]? <;> rfl
  mem_sent d := by
    show d ∈ step.sent ↔ _
    constructor
    · intro hd
      exact ⟨id, l, hl, by rw [if_pos rfl, hsent]; exact hd⟩
    · rintro ⟨i, l', hl', hd⟩
      by_cases hi : i = id
      · subst hi
        rw [hl] at hl'
        cases hl'
        rw [if_pos rfl, hsent] at hd
        exact hd
      · rw [if_neg hi] at hd
        cases hd

/-- A step on all links is a move of each. -/
theorem moved_onAll {α : Type} {f : PerfectLink → Step PerfectLink α} (mv : PerfectLink.Move)
    (hstate : ∀ l : PerfectLink, (l.move mv).state = (f l).state)
    (hsent : ∀ l : PerfectLink, (l.move mv).sent = (f l).sent) :
    g.Moved (fun _ => mv) ((g.onAll f).state, (g.onAll f).sent) where
  self_eq := rfl
  getElem?_links id := by
    simp only [onAll, Std.ExtTreeMap.getElem?_map, Option.map_map, hstate]
    rfl
  mem_sent d := by
    simp only [onAll, List.mem_flatMap, hsent]
    constructor
    · rintro ⟨⟨id, step⟩, hmem, hd⟩
      rw [Std.ExtTreeMap.mem_toList_iff_getElem?_eq_some, Std.ExtTreeMap.getElem?_map] at hmem
      obtain ⟨l, hl, rfl⟩ := Option.map_eq_some_iff.mp hmem
      exact ⟨id, l, hl, hd⟩
    · rintro ⟨id, l, hl, hd⟩
      refine ⟨(id, f l), ?_, hd⟩
      rw [Std.ExtTreeMap.mem_toList_iff_getElem?_eq_some, Std.ExtTreeMap.getElem?_map, hl]
      rfl

/-- A host to which there is no link does not notice. -/
theorem Moved.congr {move move' : HostId → PerfectLink.Move} {r : Links × List Datagram}
    (h : g.Moved move r)
    (heq : ∀ (id : HostId) (l : PerfectLink), g.links[id]? = some l → move id = move' id) :
    g.Moved move' r where
  self_eq := h.self_eq
  getElem?_links id := by
    rw [h.getElem?_links]
    cases hl : g.links[id]? with
    | none => rfl
    | some l => rw [heq id l hl]
  mem_sent d := by
    rw [h.mem_sent]
    constructor
    · rintro ⟨id, l, hl, hd⟩
      exact ⟨id, l, hl, heq id l hl ▸ hd⟩
    · rintro ⟨id, l, hl, hd⟩
      exact ⟨id, l, hl, heq id l hl ▸ hd⟩

/-- An order makes the links to those whom it means send, and lets the others rest. -/
theorem moved_perform (o : Order) (now : Nat) :
    g.Moved (fun id => if o.reaches id then .send o.message now else .rest) (g.perform o now) := by
  cases o with
  | one receiver m hkind =>
    cases hl : g.links[receiver]? with
    | some l =>
      have hperform : g.perform (.one receiver m hkind) now =
          ((g.put receiver (l.send m now)).state, (g.put receiver (l.send m now)).sent) := by
        simp only [perform, send, hl]
      rw [hperform]
      refine (moved_put (.send m now) hl rfl rfl).congr ?_
      intro id _ _
      simp [Order.reaches, Order.message]
    | none =>
      have hperform : g.perform (.one receiver m hkind) now = (g, []) := by
        simp only [perform, send, hl]
      rw [hperform]
      refine moved_rest.congr ?_
      intro id l hid
      rw [if_neg]
      simp only [Order.reaches, decide_eq_true_eq]
      rintro rfl
      rw [hl] at hid
      cases hid
  | all m _ => exact moved_onAll (.send m now) (fun _ => rfl) (fun _ => rfl)

theorem moved_deliver (sender : HostId) (m : Message) :
    g.Moved (fun id => if id = sender then .deliver m else .rest)
      ((g.deliver sender m).state, (g.deliver sender m).sent) := by
  cases hl : g.links[sender]? with
  | some l =>
    have hdeliver : g.deliver sender m = g.put sender (l.deliver m) := by
      simp only [deliver, hl]
    rw [hdeliver]
    exact moved_put (.deliver m) hl rfl rfl
  | none =>
    have hdeliver : g.deliver sender m = ⟨g, [], none⟩ := by
      simp only [deliver, hl]
    rw [hdeliver]
    refine moved_rest.congr ?_
    intro id l hid
    rw [if_neg]
    rintro rfl
    rw [hl] at hid
    cases hid

/-- What the links of a member pass on is what the link to the sender passes on. -/
theorem result_deliver {sender : HostId} {l : PerfectLink} (hl : g.links[sender]? = some l)
    (m : Message) : (g.deliver sender m).result = (l.deliver m).result := by
  simp only [deliver, hl]
  rfl

/-- The links of a member pass on only what they take in, and no acknowledgements. -/
theorem eq_of_deliver_result {sender : HostId} {m m' : Message}
    (h : (g.deliver sender m).result = some m') : m' = m ∧ m.kind ≠ .ack := by
  cases hl : g.links[sender]? with
  | none =>
    simp only [deliver, hl] at h
    cases h
  | some l =>
    rw [result_deliver hl] at h
    refine ⟨PerfectLink.eq_of_deliver_result h, fun hkind => ?_⟩
    rw [(PerfectLink.deliver_of_ack hkind).2.1] at h
    cases h

/-- **Whatever drives the links of a member, each of them does one move.** -/
theorem moved_effect (c : Cause Links) (now : Nat) :
    g.Moved (moveOf c now) (c.effect g now) := by
  cases c with
  | input i =>
    cases i with
    | order o => exact moved_perform o now
    | timeout => exact moved_onAll (.timeout now) (fun _ => rfl) (fun _ => rfl)
    | stop =>
      refine ⟨rfl, fun id => ?_, fun d => ?_⟩
      · show (g.links.map fun _ l => l.stop)[id]? = _
        rw [Std.ExtTreeMap.getElem?_map]
        rfl
      · simp [Cause.effect, Member.act, moveOf, PerfectLink.move]
  | arrival source bytes =>
    show g.Moved (fun id => match Message.decode bytes with
      | .ok m => if id = source.id then .deliver m else .rest
      | .error _ => .rest) (Member.receive g source bytes now)
    simp only [Member.receive]
    cases Message.decode bytes with
    | ok m => exact moved_deliver source.id m
    | error _ => exact moved_rest

/-! ## One link to each member -/

/-- What holds of each new link holds of all links at first. -/
theorem forall_link_toPeers {P : PerfectLink → Prop} {self : HostId} {peers : List Host}
    {tuning : Tuning} (h : ∀ peer, P (.ofPeer self peer tuning.retransmit)) :
    ∀ (id : HostId) (l : PerfectLink), (toPeers self peers tuning).links[id]? = some l → P l := by
  intro id l hl
  rcases Tables.mem_of_getElem?_foldl_insert hl with hold | ⟨peer, -, rfl⟩
  · simp at hold
  · exact h peer

/-- The links of a member go to all members of the group and to no one else. -/
structure Fits (g : Links) (owner : HostId) (hosts : Hosts) : Prop where
  self_eq : g.self = owner
  map_peer : ∀ id : HostId, g.links[id]?.map PerfectLink.peer = hosts.get? id
  link_self : ∀ (id : HostId) (l : PerfectLink), g.links[id]? = some l → l.link.self = owner

variable {owner : HostId} {hosts : Hosts}

/-- A new member has a link that has done nothing to each member. -/
theorem getElem?_links_ofHosts (hlawful : hosts.Lawful) (tuning : Tuning) (id : HostId) :
    (ofHosts owner hosts tuning).links[id]? =
      (hosts.get? id).map fun h => .ofPeer owner h tuning.retransmit := by
  simp only [ofHosts, toPeers]
  rw [Tables.getElem?_foldl_insert Host.id _ _ _ hlawful.nodup_map_id, hlawful.find?_toList]
  simp

theorem fits_ofHosts (hlawful : hosts.Lawful) (tuning : Tuning) :
    (ofHosts owner hosts tuning).Fits owner hosts where
  self_eq := rfl
  map_peer id := by
    rw [getElem?_links_ofHosts hlawful, Option.map_map]
    cases hosts.get? id <;> rfl
  link_self id l hl := by
    rw [getElem?_links_ofHosts hlawful] at hl
    obtain ⟨h, -, rfl⟩ := Option.map_eq_some_iff.mp hl
    rfl

theorem Fits.moved (h : g.Fits owner hosts) {move : HostId → PerfectLink.Move}
    {r : Links × List Datagram} (hmoved : g.Moved move r) : r.1.Fits owner hosts where
  self_eq := hmoved.self_eq.trans h.self_eq
  map_peer id := by
    rw [hmoved.getElem?_links, ← h.map_peer, Option.map_map]
    cases g.links[id]? with
    | none => rfl
    | some l => exact congrArg some (PerfectLink.move_peer (move id))
  link_self id l hl := by
    rw [hmoved.getElem?_links] at hl
    obtain ⟨l₀, hl₀, rfl⟩ := Option.map_eq_some_iff.mp hl
    rw [PerfectLink.move_self]
    exact h.link_self id l₀ hl₀

/-- A link to a host goes to the member with that number. -/
theorem Fits.get?_of_link (h : g.Fits owner hosts) {id : HostId} {l : PerfectLink}
    (hl : g.links[id]? = some l) : hosts.get? id = some l.link.peer := by
  rw [← h.map_peer, hl]
  rfl

/-- There is a link to each member. -/
theorem Fits.exists_link (h : g.Fits owner hosts) {id : HostId} (hid : hosts.contains id = true) :
    ∃ l : PerfectLink, g.links[id]? = some l := by
  obtain ⟨host, hget⟩ := Hosts.get?_of_contains hid
  rw [← h.map_peer] at hget
  obtain ⟨l, hl, -⟩ := Option.map_eq_some_iff.mp hget
  exact ⟨l, hl⟩

end Links

end Groupcast
