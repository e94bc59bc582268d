import Groupcast.Proofs.Node.Member

/-!
# Groups of nodes

A run of a group of nodes is, as far as the links of their protocols are concerned, a run of a group
of links (`exists_follows`).  What holds of all runs of links therefore holds here: the links are
one to each member (`fits_nodes`), and each is a channel (`channel_nodes`).

A group starts with fresh nodes.  These are the nodes that its host table makes, one for each member
(`exists_alike_fresh`).

Two statements are what a protocol needs to know of all this.  A member has said to another one
what its protocol has ordered so far and nothing else (`said_nodes_iff`).  And what a member has
said, the protocol of the other one has seen to once the id is in the window of its link
(`handled_of_delivered`).
-/

namespace Groupcast.System

variable {π : Type} [Protocol π] {hosts : Hosts} {tuning : HostId → Tuning}
  {watches : HostId → Bool} {s : System (Node π)} {g : System Links} {x p q : HostId}
  {c : Cause (Node π)} {now : Nat} {l r : PerfectLink}

/-! ## Nodes of a host table -/

/-- **Whatever a group can reach that starts with the nodes of its host table, it can reach from
fresh nodes**, also over UDP. -/
theorem exists_alike_fresh {make : HostId → Hosts → Tuning → π} {nodes : HostId → Node π}
    (hnodes : ∀ p, hosts.contains p = true →
      Node.ofHosts p hosts (make p hosts (tuning p))
        (if watches p then some (.ofHosts p hosts (tuning p)) else none) = some (nodes p)) :
    (s.Reachable hosts nodes → ∃ s', Alike hosts s s' ∧
      s'.Reachable hosts fun id => .fresh make hosts (tuning id) (watches id) id) ∧
    (s.ReachableOverUdp hosts nodes → ∃ s', Alike hosts s s' ∧
      s'.ReachableOverUdp hosts fun id => .fresh make hosts (tuning id) (watches id) id) := by
  have hstart : ∀ p, hosts.contains p = true →
      .fresh make hosts (tuning p) (watches p) p = nodes p := fun p hp =>
    Option.some.inj ((Node.ofHosts_eq_fresh hp).symm.trans (hnodes p hp))
  exact ⟨fun h => h.exists_alike hstart, fun h => h.exists_alike hstart⟩

/-! ## Steps of nodes -/

/-- A node has been stopped. -/
def Halted (s : System (Node π)) (p : HostId) : Prop :=
  ∃ o ∈ s.history, o.member = p ∧ o.cause = .input .stop

theorem halted_step (h : s.Halted p) : (s.step x c now).Halted p := by
  obtain ⟨o, ho, hp, hc⟩ := h
  exact ⟨o, List.mem_append_left _ ho, hp, hc⟩

/-- The protocol of a member that does a step. -/
theorem step_protocol_self : ((s.step x c now).members x).protocol =
    (((s.members x).stimulus c).apply (s.members x).protocol now).1 := by
  rw [step_members_self, Node.protocol_effect]

variable [Linked π]

/-- The links of a member's protocol. -/
def linksAt (s : System (Node π)) (p : HostId) : Links := Linked.links (s.members p).protocol

/-- How many steps the links of all members have done. -/
def linkSteps (s : System (Node π)) : Nat :=
  (s.history.flatMap fun o => o.before.causes o.cause).length

/-! ## Runs of nodes as runs of links -/

/-- A group of links has done what the nodes of a group have done. -/
structure Follows (hosts : Hosts) (s : System (Node π)) (g : System Links) : Prop where
  linksAt_eq : ∀ p, s.linksAt p = g.members p
  carries_iff : ∀ p q (m : Message), m.kind.isControl = false →
    (Carries hosts s.wire p q m.encode ↔ Carries hosts g.wire p q m.encode)
  halted_of_stopped : ∀ p, g.Stopped p → s.Halted p
  length_history : g.history.length = s.linkSteps

theorem tidy_of_reachable (hlawful : hosts.Lawful)
    (h : s.Reachable hosts fun id => .fresh Linked.ofHosts hosts (tuning id) (watches id) id)
    (p : HostId) : (s.members p).Tidy hosts := by
  induction h with
  | initial => exact Node.tidy_fresh
  | @step s x c now _ hc ih =>
    by_cases hp : p = x
    · subst hp
      rw [step_members_self]
      exact (Node.mirrors_effect ih hlawful c now hc.get?_source).tidy
    · rw [step_members_of_ne hp]
      exact ih

/-- The links can do what a step of a node makes them do. -/
theorem Follows.permits (h : Follows hosts s g) (hlawful : hosts.Lawful)
    (htidy : (s.members x).Tidy hosts) (hc : s.Permits hosts x c) :
    ∀ c' ∈ (s.members x).causes c, g.Permits hosts x c' := by
  intro c' hc'
  cases c' with
  | input i => exact hc.contains
  | arrival source bytes =>
    obtain ⟨rfl, m, hm⟩ := Node.stimulus_of_arrival_mem_causes hc'
    obtain ⟨hcontrol, source', heq, -⟩ :=
      Node.stimulus_eq_message htidy hlawful hc.get?_source hm
    cases heq
    exact ⟨hc.1, (h.carries_iff _ _ m hcontrol).mp hc.2⟩

theorem stop_mem_causes {n : Node π} (h : .input .stop ∈ n.causes c) : c = .input .stop := by
  cases c with
  | input i =>
    cases i with
    | stop => rfl
    | start | command c | timeout => simp [Node.causes] at h
  | arrival source bytes =>
    simp only [Node.causes] at h
    split at h
    · cases h
    · split at h <;> simp at h

/-- A step of a node is a batch of steps of its links. -/
theorem Follows.step (h : Follows hosts s g) (hlawful : hosts.Lawful)
    (htidy : (s.members x).Tidy hosts) (hc : s.Permits hosts x c) :
    Follows hosts (s.step x c now) (g.batch x now ((s.members x).causes c)) := by
  have hmirrors := Node.mirrors_effect htidy hlawful c now hc.get?_source
  have hlinks : Linked.links (s.members x).protocol = g.members x := h.linksAt_eq x
  rw [hlinks] at hmirrors
  refine ⟨fun p => ?_, fun p q m hm => ?_, fun p hstopped => ?_, ?_⟩
  · by_cases hp : p = x
    · subst hp
      rw [linksAt, step_members_self, batch_members_self]
      exact hmirrors.links_eq
    · rw [linksAt, step_members_of_ne hp, batch_members_of_ne hp]
      exact h.linksAt_eq p
  · rw [carries_step_iff, carries_batch_iff, h.carries_iff p q m hm]
    simp only [hmirrors.mem_iff _ m hm]
  · rcases stopped_batch_iff.mp hstopped with hold | ⟨rfl, hstop⟩
    · exact halted_step (h.halted_of_stopped p hold)
    · exact ⟨_, List.mem_append_right _ (List.mem_singleton.mpr rfl), rfl, stop_mem_causes hstop⟩
  · rw [length_history_batch, h.length_history]
    simp [linkSteps]

/-- **A run of nodes is, as far as their links go, a run of links.** -/
theorem exists_follows (hlawful : hosts.Lawful)
    (h : s.Reachable hosts fun id => .fresh Linked.ofHosts hosts (tuning id) (watches id) id) :
    ∃ g : System Links, (g.Reachable hosts fun id => .ofHosts id hosts (tuning id)) ∧
      Follows hosts s g := by
  induction h with
  | initial =>
    refine ⟨_, .initial, fun p => Linked.links_ofHosts p hosts (tuning p),
      fun p q m _ => Iff.rfl, ?_, rfl⟩
    · rintro p ⟨o, ho, -⟩
      cases ho
  | @step s x c now h hc ih =>
    obtain ⟨g, hg, hfollows⟩ := ih
    have htidy := tidy_of_reachable hlawful h x
    exact ⟨_, reachable_batch hg (hfollows.permits hlawful htidy hc),
      hfollows.step hlawful htidy hc⟩

/-! ## What holds of the links of nodes -/

section

variable (hlawful : hosts.Lawful)
  (h : s.Reachable hosts fun id => .fresh Linked.ofHosts hosts (tuning id) (watches id) id)

include hlawful h

theorem fits_nodes (p : HostId) : (s.linksAt p).Fits p hosts := by
  obtain ⟨g, hg, hfollows⟩ := exists_follows hlawful h
  rw [hfollows.linksAt_eq]
  exact fits_of_reachable hlawful hg p

/-- The links of nodes are channels. -/
theorem channel_nodes (hwrap : ∀ id, (s.linksAt id).Unwrapped)
    (hl : (s.linksAt p).links[q]? = some l) (hr : (s.linksAt q).links[p]? = some r) :
    PerfectLink.Channel l r (SentData hosts s.wire p q) (SentAck hosts s.wire q p)
      (s.Halted p) := by
  obtain ⟨g, hg, hfollows⟩ := exists_follows hlawful h
  simp only [hfollows.linksAt_eq] at hwrap hl hr
  refine (channel_of_reachable hlawful hg hwrap hl hr).congr ?_ ?_ (hfollows.halted_of_stopped p)
  · intro m
    refine and_congr_right fun hkind => hfollows.carries_iff p q m ?_
    rw [hkind]
    rfl
  · rintro i ⟨a, hkind, hid, hcarries⟩
    refine ⟨a, hkind, hid, (hfollows.carries_iff q p a ?_).mp hcarries⟩
    rw [hkind]
    rfl

/-- The ids of a run in which links do fewer steps than there are ids do not wrap. -/
theorem unwrapped_nodes_of_linkSteps_lt (hlt : s.linkSteps < UInt32.size) (p : HostId) :
    (s.linksAt p).Unwrapped := by
  obtain ⟨g, hg, hfollows⟩ := exists_follows hlawful h
  rw [hfollows.linksAt_eq]
  exact unwrapped_of_length_lt hg hlawful (hfollows.length_history ▸ hlt) p

/-- Ids that have not wrapped after a step had not wrapped before it. -/
theorem unwrapped_nodes_of_step (hc : s.Permits hosts x c)
    (hwrap : ∀ p, ((s.step x c now).linksAt p).Unwrapped) (p : HostId) :
    (s.linksAt p).Unwrapped := by
  obtain ⟨g, hg, hfollows⟩ := exists_follows hlawful h
  have hafter := hwrap p
  rw [(hfollows.step hlawful (tidy_of_reachable hlawful h x) hc).linksAt_eq] at hafter
  rw [hfollows.linksAt_eq]
  exact unwrapped_of_batch hafter

/-- A message that reaches the protocol of a member has been put on the wire by its sender. -/
theorem carries_of_stimulus (hc : s.Permits hosts x c) {m : Message}
    (hm : (s.members x).stimulus c = .message m) :
    m.kind.isControl = false ∧ Carries hosts s.wire m.sender x m.encode := by
  obtain ⟨hcontrol, source, rfl, hsender⟩ :=
    Node.stimulus_eq_message (tidy_of_reachable hlawful h x) hlawful hc.get?_source hm
  exact ⟨hcontrol, hsender ▸ hc.2⟩

/-- What the links of a member pass on has been said to it. -/
theorem said_of_stimulus (hc : s.Permits hosts x c) {m m' : Message}
    (hm : (s.members x).stimulus c = .message m)
    (hresult : ((s.linksAt x).deliver m.sender m).result = some m') :
    Said hosts s.wire m.sender x m.payload := by
  obtain ⟨hcontrol, hcarries⟩ := carries_of_stimulus hlawful h hc hm
  exact ⟨m, ⟨Kind.eq_data hcontrol (Links.eq_of_deliver_result hresult).2, hcarries⟩, rfl⟩

/-- What the links of a member have been given to send only grows. -/
theorem sentCountTo_le_step (hc : s.Permits hosts x c) :
    (s.linksAt p).sentCountTo q ≤ ((s.step x c now).linksAt p).sentCountTo q := by
  by_cases hp : p = x
  · subst hp
    have hmirrors :=
      Node.mirrors_effect (tidy_of_reachable hlawful h p) hlawful c now hc.get?_source
    rw [linksAt, linksAt, step_members_self, hmirrors.links_eq]
    exact Links.sentCountTo_le_run _
  · refine Nat.le_of_eq ?_
    rw [linksAt, linksAt, step_members_of_ne hp]

/-- An order is sent on every link that it reaches. -/
theorem sentCountTo_lt_step (hc : s.Permits hosts x c) (hq : hosts.contains q = true) {o : Order}
    (ho : o ∈ ((s.members x).stimulus c).orders (s.members x).protocol)
    (hreaches : o.reaches q = true) :
    (s.linksAt x).sentCountTo q < ((s.step x c now).linksAt x).sentCountTo q := by
  have hmirrors :=
    Node.mirrors_effect (tidy_of_reachable hlawful h x) hlawful c now hc.get?_source
  obtain ⟨l, hl⟩ := (fits_nodes hlawful h x).exists_link hq
  rw [linksAt, linksAt, step_members_self, hmirrors.links_eq]
  exact Links.sentCountTo_lt_run hl (Node.order_mem_causes_iff.mpr ho) hreaches

/-- **What a member has said by the end of a step is what it had said before, and what the step
orders.** -/
theorem said_nodes_iff (hc : s.Permits hosts x c)
    (hwrap : ∀ id, ((s.step x c now).linksAt id).Unwrapped) {payload : Bytes} :
    Said hosts (s.step x c now).wire p q payload ↔ Said hosts s.wire p q payload ∨
      p = x ∧ hosts.contains q = true ∧
        ∃ o ∈ ((s.members x).stimulus c).orders (s.members x).protocol,
          o.reaches q = true ∧ o.message.kind = .data ∧ o.message.payload = payload := by
  obtain ⟨g, hg, hfollows⟩ := exists_follows hlawful h
  have htidy := tidy_of_reachable hlawful h x
  have hfollows' : Follows hosts (s.step x c now) _ := hfollows.step hlawful htidy hc
  have hsaid : ∀ {s : System (Node π)} {g : System Links}, Follows hosts s g →
      (Said hosts s.wire p q payload ↔ Said hosts g.wire p q payload) := by
    intro s g hfollows
    refine exists_congr fun m => and_congr_left fun _ => and_congr_right fun hkind => ?_
    refine hfollows.carries_iff p q m ?_
    rw [hkind]
    rfl
  simp only [hfollows'.linksAt_eq] at hwrap
  rw [hsaid hfollows', hsaid hfollows,
    said_batch_iff hlawful hg hwrap (hfollows.permits hlawful htidy hc)]
  simp only [Node.order_mem_causes_iff]

/-- **What a member has said, the protocol of the other one has seen to.**  Whatever `H` says of a
protocol that has just taken in a message, and will say of it ever after, it says of each message
whose id is in the window of the link. -/
theorem handled_of_delivered {H : π → HostId → Message → Prop}
    (hmono : ∀ (st : Node.Stimulus π) (a : π) now p m, H a p m → H (st.apply a now).1 p m)
    (hnew : ∀ (a : π) now (m : Message) (r : PerfectLink),
      (Linked.links a).links[m.sender]? = some r → m.kind = .data →
        r.delivered.contains m.id = false →
          H (Protocol.onMessage a m.sender m now).state m.sender m)
    (hwrap : ∀ id, (s.linksAt id).Unwrapped) (hr : (s.linksAt q).links[p]? = some r) {m : Message}
    (hm : SentData hosts s.wire p q m) (hdelivered : r.delivered.contains m.id = true) :
    H (s.members q).protocol p m := by
  induction h generalizing r m with
  | initial =>
    obtain ⟨-, _, -, hmem⟩ := hm
    cases hmem
  | @step s x c now h hc ih =>
    have hwrap₀ := unwrapped_nodes_of_step hlawful h hc hwrap
    have hp := (Reachable.step now h hc).contains_of_carries hm.2
    have hq : hosts.contains q = true := by
      obtain ⟨-, _, hget, -⟩ := hm
      exact Hosts.contains_of_get? hget
    obtain ⟨l', hl'⟩ := (fits_nodes hlawful (.step now h hc) p).exists_link hq
    obtain ⟨l, hl⟩ := (fits_nodes hlawful h p).exists_link hq
    obtain ⟨r₀, hr₀⟩ := (fits_nodes hlawful h q).exists_link hp
    have hchannel' := channel_nodes hlawful (.step now h hc) hwrap hl' hr
    have hchannel := channel_nodes hlawful h hwrap₀ hl hr₀
    -- No other message than `m` has had this id, neither before the step nor after it.
    have honly : ∀ m', SentData hosts s.wire p q m' → m'.id = m.id → m' = m :=
      fun m' hm' hid => hchannel'.eq_of_id_eq ⟨hm'.1, carries_step hm'.2⟩ hm hid
    have hbefore : r₀.delivered.contains m.id = true → H (s.members q).protocol p m := by
      intro hcontains
      obtain ⟨m', hm', hid⟩ := hchannel.there_of_delivered hcontains (hchannel'.id_of_there hm).1
      have heq := honly m' hm' hid
      subst heq
      exact ih hwrap₀ hr₀ hm' hcontains
    by_cases hx : q = x
    · subst hx
      have htidy := tidy_of_reachable hlawful h q
      rw [step_members_self, Node.protocol_effect]
      rw [linksAt, step_members_self,
        (Node.mirrors_effect htidy hlawful c now hc.get?_source).links_eq] at hr
      by_cases hcontains : r₀.delivered.contains m.id = true
      · exact hmono _ _ now p m (hbefore hcontains)
      · rcases (Links.contains_delivered_run hr₀ hr hchannel.sound m.id).mp hdelivered with
          hold | ⟨source, m', hmem, rfl, hkind, hid⟩
        · exact absurd hold hcontains
        · obtain ⟨rfl, m'', hstimulus⟩ := Node.stimulus_of_arrival_mem_causes hmem
          obtain ⟨-, source', heq, hsender⟩ :=
            Node.stimulus_eq_message htidy hlawful hc.get?_source hstimulus
          injection heq with heqsource heqbytes
          have heq' := Message.encode_injective heqbytes
          subst heqsource heq'
          have hm' := honly m' ⟨hkind, hc.2⟩ hid
          subst hm'
          have hresult := hnew (s.members q).protocol now m' r₀ (by rw [hsender]; exact hr₀) hkind
            (by simpa using hcontains)
          rw [hsender] at hresult
          rw [hstimulus]
          show H (Protocol.onMessage (s.members q).protocol m'.sender m' now).state source.id m'
          rw [hsender]
          exact hresult
    · rw [step_members_of_ne hx]
      rw [linksAt, step_members_of_ne hx] at hr
      rw [linksAt, hr] at hr₀
      cases hr₀
      exact hbefore hdelivered

end

end Groupcast.System
