import Groupcast.Proofs.Broadcast.Uniform
import Mathlib.Data.List.Nodup

/-!
# What a member's broadcast is true to

The fields of a member's broadcast are an account of what has happened: of what it has broadcast
itself (`Own`), of what it has relayed (`Forwards`), of who has relayed to it what it has not
delivered yet (`Waits`), and of what it has delivered (`Delivers`).

What has happened is given by its own lists of broadcasts and deliveries and by three relations.  A
message is `known` if its sender has broadcast it, it is `relayed` to a host by this member, and
`held` by a host that has relayed it to this member.
-/

namespace Groupcast.UniformBroadcast

/-- A member numbers what it broadcasts, and has links for as many messages. -/
structure Own (u : UniformBroadcast) (broadcasts : List Message) (budget : Nat) : Prop where
  stamped : ∀ m ∈ broadcasts, m.sender = u.self ∧ m.id.toNat ≤ u.lastId.toNat
  nodup_id : (broadcasts.map Message.id).Nodup
  lastId_le : u.lastId.toNat ≤ budget

/-- A member has forwarded what it has relayed, and that to everyone. -/
structure Forwards (u : UniformBroadcast) (broadcasts : List Message)
    (relayed : HostId → Message → Prop) : Prop where
  of_broadcast : ∀ m ∈ broadcasts, Label.ofMessage m ∈ u.forwarded
  of_relayed : ∀ q m, relayed q m → Label.ofMessage m ∈ u.forwarded
  exists_relayed : ∀ label ∈ u.forwarded, ∃ m, Label.ofMessage m = label ∧
    ∀ q, u.group.hosts.contains q = true → relayed q m

/-- A message waits as long as no majority is known to hold it. -/
structure Waits (u : UniformBroadcast) (known : Message → Prop) (held : HostId → Message → Prop)
    (label : Label) (p : Pending) : Prop where
  label_eq : Label.ofMessage p.message = label
  forwarded : label ∈ u.forwarded
  known : known p.message
  size_lt : p.holders.size < u.group.quorum
  held : ∀ a ∈ p.holders, held a p.message

/-- A majority holds what a member has delivered. -/
structure Delivers (u : UniformBroadcast) (deliveries : List Message) (known : Message → Prop)
    (held : HostId → Message → Prop) : Prop where
  mem_delivered : ∀ label, label ∈ u.delivered ↔ ∃ m ∈ deliveries, Label.ofMessage m = label
  forwarded : ∀ m ∈ deliveries, Label.ofMessage m ∈ u.forwarded
  known : ∀ m ∈ deliveries, known m
  exists_holders : ∀ m ∈ deliveries, ∃ A : List HostId, A.Nodup ∧ u.group.quorum ≤ A.length ∧
    ∀ a ∈ A, held a m
  nodup_label : (deliveries.map Label.ofMessage).Nodup

/-- What always holds of a member's broadcast. -/
structure Account (u : UniformBroadcast) (broadcasts deliveries : List Message)
    (known : Message → Prop) (relayed held : HostId → Message → Prop) (budget : Nat) : Prop where
  own : u.Own broadcasts budget
  forwards : u.Forwards broadcasts relayed
  waits : ∀ (label : Label) (p : Pending), u.pending[label]? = some p →
    u.Waits known held label p
  delivers : u.Delivers deliveries known held

variable {u u' : UniformBroadcast} {broadcasts deliveries : List Message} {m : Message}
  {known known' : Message → Prop} {relayed relayed' held held' : HostId → Message → Prop}
  {budget budget' : Nat} {hears : HostId → Message → Prop} {os : List Order}
  {broadcast? deliver? : Option Message} {label : Label} {p : Pending}

/-! ## Orders -/

theorem toAll_inj {m m' : Message} : u.toAll m = u.toAll m' ↔ m = m' := by
  constructor
  · intro h
    have hpayload := congrArg (fun o : Order => o.message.payload) h
    exact Message.encode_injective hpayload
  · rintro rfl
    rfl

/-- All that is ordered is to relay a message that the member has broadcast itself or has heard. -/
theorem Turn.mem_orders (h : Turn hears os broadcast? deliver? u u') {o : Order} (ho : o ∈ os) :
    ∃ m, o = u.toAll m ∧
      (broadcast? = some m ∧ m.sender = u.self ∨ ∃ holder, hears holder m) := by
  have htakes : ∀ {holder m}, hears holder m → Takes m os u u' → ∃ m, o = u.toAll m ∧
      (broadcast? = some m ∧ m.sender = u.self ∨ ∃ holder, hears holder m) := by
    intro holder m hheard htakes
    rcases htakes.orders_eq with ⟨-, horders⟩ | ⟨-, horders⟩
    · rw [horders] at ho
      cases ho
    · rw [horders, List.mem_singleton] at ho
      exact ⟨m, ho, Or.inr ⟨holder, hheard⟩⟩
  cases h with
  | rest _ _ _ _ horders _ _ =>
    rw [horders] at ho
    cases ho
  | @broadcast m hsender _ _ _ _ _ horders hbroadcast _ =>
    rw [horders, List.mem_singleton] at ho
    exact ⟨m, ho, Or.inl ⟨hbroadcast, hsender⟩⟩
  | hold hheard h _ _ _ _ _ => exact htakes hheard h
  | deliver hheard h _ _ _ _ _ => exact htakes hheard h

/-- What a member broadcasts is its own, and goes to all. -/
theorem Turn.broadcast_eq (h : Turn hears os broadcast? deliver? u u') (hm : broadcast? = some m) :
    m.sender = u.self ∧ u.toAll m ∈ os := by
  cases h with
  | rest _ _ _ _ _ hnone _ => cases hnone.symm.trans hm
  | hold _ _ _ _ _ hnone _ => cases hnone.symm.trans hm
  | deliver _ _ _ _ _ hnone _ => cases hnone.symm.trans hm
  | broadcast hsender _ _ _ _ _ horders hsome _ =>
    cases hsome.symm.trans hm
    exact ⟨hsender, horders ▸ List.mem_singleton_self _⟩

/-- A member orders only what it has forwarded then, and each message once. -/
theorem Turn.forwarded_cases (h : Turn hears os broadcast? deliver? u u') :
    (∀ label ∈ u.forwarded, label ∈ u'.forwarded) ∧
      (∀ m, u.toAll m ∈ os → Label.ofMessage m ∈ u'.forwarded) ∧
      ∀ label ∈ u'.forwarded, label ∈ u.forwarded ∨
        ∃ m, Label.ofMessage m = label ∧ u.toAll m ∈ os := by
  have htakes : ∀ {m}, Takes m os u u' → (∀ label ∈ u.forwarded, label ∈ u'.forwarded) ∧
      (∀ m', u.toAll m' ∈ os → Label.ofMessage m' ∈ u'.forwarded) ∧
      ∀ label ∈ u'.forwarded, label ∈ u.forwarded ∨
        ∃ m', Label.ofMessage m' = label ∧ u.toAll m' ∈ os := by
    intro m htakes
    refine ⟨fun label hlabel => (htakes.mem_forwarded label).mpr (Or.inr hlabel),
      fun m' hm' => ?_, fun label hlabel => ?_⟩
    · rcases htakes.orders_eq with ⟨-, horders⟩ | ⟨-, horders⟩
      · rw [horders] at hm'
        cases hm'
      · rw [horders, List.mem_singleton, toAll_inj] at hm'
        exact (htakes.mem_forwarded _).mpr (Or.inl (congrArg Label.ofMessage hm'))
    · rcases (htakes.mem_forwarded label).mp hlabel with rfl | hold
      · rcases htakes.orders_eq with ⟨hold, -⟩ | ⟨-, horders⟩
        · exact Or.inl hold
        · exact Or.inr ⟨m, rfl, horders ▸ List.mem_singleton_self _⟩
      · exact Or.inl hold
  cases h with
  | rest _ hforwarded _ _ horders _ _ =>
    rw [hforwarded, horders]
    exact ⟨fun _ hlabel => hlabel, nofun, fun _ hlabel => Or.inl hlabel⟩
  | @broadcast m _ _ _ hforwarded _ _ horders _ _ =>
    rw [horders]
    refine ⟨fun label hlabel => (hforwarded label).mpr (Or.inr hlabel), fun m' hm' => ?_,
      fun label hlabel => ?_⟩
    · rw [List.mem_singleton, toAll_inj] at hm'
      exact (hforwarded _).mpr (Or.inl (congrArg Label.ofMessage hm'))
    · rcases (hforwarded label).mp hlabel with rfl | hold
      · exact Or.inr ⟨m, rfl, List.mem_singleton_self _⟩
      · exact Or.inl hold
  | hold _ h _ _ _ _ _ => exact htakes h
  | deliver _ h _ _ _ _ _ => exact htakes h

/-! ## A step -/

/-- A member's own messages differ in their numbers. -/
theorem Own.turn (h : u.Own broadcasts budget) (hturn : Turn hears os broadcast? deliver? u u')
    (hself : u'.self = u.self) (hbudget : budget ≤ budget')
    (hcost : ∀ m, broadcast? = some m → budget < budget') (hwrap : budget' < UInt32.size) :
    u'.Own (broadcasts ++ broadcast?.toList) budget' := by
  have hkeep : broadcast? = none → u'.lastId = u.lastId →
      u'.Own (broadcasts ++ broadcast?.toList) budget' := by
    rintro rfl hlastId
    rw [Option.toList_none, List.append_nil]
    refine ⟨?_, h.nodup_id, ?_⟩
    · rw [hself, hlastId]
      exact h.stamped
    · rw [hlastId]
      exact Nat.le_trans h.lastId_le hbudget
  cases hturn with
  | rest hlastId _ _ _ _ hbroadcast _ => exact hkeep hbroadcast hlastId
  | hold _ htakes _ _ _ hbroadcast _ => exact hkeep hbroadcast htakes.lastId_eq
  | deliver _ htakes _ _ _ hbroadcast _ => exact hkeep hbroadcast htakes.lastId_eq
  | @broadcast m hsender hid hlastId _ _ _ _ hbroadcast _ =>
    have hle := h.lastId_le
    have hlt := hcost m hbroadcast
    have hnext : m.id.toNat = u.lastId.toNat + 1 := by
      rw [hid, UInt32.toNat_add]
      exact Nat.mod_eq_of_lt (show u.lastId.toNat + 1 < UInt32.size by omega)
    rw [hbroadcast, Option.toList_some]
    refine ⟨fun m' hm' => ?_, ?_, ?_⟩
    · rw [hself, hlastId]
      rcases List.mem_append.mp hm' with hold | hnew
      · obtain ⟨hsender', hid'⟩ := h.stamped m' hold
        exact ⟨hsender', by omega⟩
      · rw [List.mem_singleton.mp hnew]
        exact ⟨hsender, Nat.le_refl _⟩
    · rw [List.map_append, List.nodup_append]
      refine ⟨h.nodup_id, List.nodup_singleton _, ?_⟩
      rintro i hi j hj rfl
      obtain ⟨m', hm', rfl⟩ := List.mem_map.mp hi
      have heq : m'.id = m.id := List.mem_singleton.mp hj
      have hid' := (h.stamped m' hm').2
      rw [heq] at hid'
      omega
    · rw [hlastId]
      omega

/-- What is ordered comes to be relayed. -/
theorem Forwards.turn (h : u.Forwards broadcasts relayed)
    (hturn : Turn hears os broadcast? deliver? u u') (hhosts : u'.group.hosts = u.group.hosts)
    (hrelayed : ∀ q m, relayed' q m ↔
      relayed q m ∨ u.group.hosts.contains q = true ∧ u.toAll m ∈ os) :
    u'.Forwards (broadcasts ++ broadcast?.toList) relayed' := by
  obtain ⟨hgrow, hordered, hnew⟩ := hturn.forwarded_cases
  refine ⟨fun m hm => ?_, fun q m hm => ?_, fun label hlabel => ?_⟩
  · rcases List.mem_append.mp hm with hold | hbroadcast
    · exact hgrow _ (h.of_broadcast m hold)
    · exact hordered m (hturn.broadcast_eq (Option.mem_toList.mp hbroadcast)).2
  · rcases (hrelayed q m).mp hm with hold | ⟨-, ho⟩
    · exact hgrow _ (h.of_relayed q m hold)
    · exact hordered m ho
  · rw [hhosts]
    rcases hnew label hlabel with hold | ⟨m, heq, ho⟩
    · obtain ⟨m, heq, hall⟩ := h.exists_relayed label hold
      exact ⟨m, heq, fun q hq => (hrelayed q m).mpr (Or.inl (hall q hq))⟩
    · exact ⟨m, heq, fun q hq => (hrelayed q m).mpr (Or.inr ⟨hq, ho⟩)⟩

theorem Waits.mono (h : u.Waits known held label p) (hquorum : u'.group.quorum = u.group.quorum)
    (hforwarded : ∀ label ∈ u.forwarded, label ∈ u'.forwarded)
    (hknown : ∀ m, known m → known' m) (hheld : ∀ a m, held a m → held' a m) :
    u'.Waits known' held' label p where
  label_eq := h.label_eq
  forwarded := hforwarded _ h.forwarded
  known := hknown _ h.known
  size_lt := hquorum ▸ h.size_lt
  held a ha := hheld a _ (h.held a ha)

theorem Delivers.mono (h : u.Delivers deliveries known held)
    (hquorum : u'.group.quorum = u.group.quorum) (hdelivered : u'.delivered = u.delivered)
    (hforwarded : ∀ label ∈ u.forwarded, label ∈ u'.forwarded)
    (hknown : ∀ m, known m → known' m) (hheld : ∀ a m, held a m → held' a m) :
    u'.Delivers deliveries known' held' where
  mem_delivered := hdelivered ▸ h.mem_delivered
  forwarded m hm := hforwarded _ (h.forwarded m hm)
  known m hm := hknown m (h.known m hm)
  exists_holders m hm := by
    obtain ⟨A, hnodup, hlength, hA⟩ := h.exists_holders m hm
    exact ⟨A, hnodup, hquorum ▸ hlength, fun a ha => hheld a m (hA a ha)⟩
  nodup_label := h.nodup_label

/-- What is noted of a message that a member has heard: it is a message with that label, and all
holders hold it. -/
theorem held_of_mem_holders {holder : HostId}
    (hwaits : ∀ (label : Label) (p : Pending), u.pending[label]? = some p →
      u.Waits known held label p)
    (hsame : ∀ m m', known m → known m' → Label.ofMessage m = Label.ofMessage m' →
      ∀ a, held a m → held a m') (hm : known m) (hholder : held holder m) :
    Label.ofMessage (u.held m holder).message = Label.ofMessage m ∧
      known (u.held m holder).message ∧
        ∀ a ∈ (u.held m holder).holders, held a (u.held m holder).message := by
  have hkept : Label.ofMessage (u.held m holder).message = Label.ofMessage m ∧
      known (u.held m holder).message := by
    rcases u.message_held m holder with heq | ⟨p, hp, heq⟩ <;> rw [heq]
    · exact ⟨rfl, hm⟩
    · exact ⟨(hwaits _ p hp).label_eq, (hwaits _ p hp).known⟩
  refine ⟨hkept.1, hkept.2, fun a ha => ?_⟩
  rcases mem_holders_held.mp ha with rfl | ⟨p, hp, hmem⟩
  · exact hsame _ _ hm hkept.2 hkept.1.symm _ hholder
  · have hwait := hwaits _ p hp
    exact hsame _ _ hwait.known hkept.2 (hwait.label_eq.trans hkept.1.symm) a (hwait.held a hmem)

theorem quorum_pos (u : UniformBroadcast) : 0 < u.group.quorum := Nat.succ_pos _

/-- A message waits until a majority holds it. -/
theorem Turn.waits (hturn : Turn hears os broadcast? deliver? u u')
    (hwaits : ∀ (label : Label) (p : Pending), u.pending[label]? = some p →
      u.Waits known held label p)
    (hquorum : u'.group.quorum = u.group.quorum) (hknown : ∀ m, known m → known' m)
    (hheld : ∀ a m, held a m → held' a m) (hbroadcast : ∀ m, broadcast? = some m → known' m)
    (hhears : ∀ a m, hears a m → held a m ∧ known m)
    (hsame : ∀ m m', known m → known m' → Label.ofMessage m = Label.ofMessage m' →
      ∀ a, held a m → held a m') (hp : u'.pending[label]? = some p) :
    u'.Waits known' held' label p := by
  obtain ⟨hgrow, -, -⟩ := hturn.forwarded_cases
  have hkeep : u.pending[label]? = some p → u'.Waits known' held' label p :=
    fun hold => (hwaits label p hold).mono hquorum hgrow hknown hheld
  cases hturn with
  | rest _ _ hpending _ _ _ _ => exact hkeep (hpending ▸ hp)
  | @broadcast m _ _ _ hforwarded hpending _ _ hsome _ =>
    rw [hpending, Std.ExtTreeMap.getElem?_insertIfNew] at hp
    split at hp
    · rename_i hlabel
      cases hp
      refine ⟨Std.compare_eq_iff_eq.mp hlabel.1, ?_, hbroadcast m hsome, ?_, nofun⟩
      · exact (hforwarded label).mpr (Or.inl (Std.compare_eq_iff_eq.mp hlabel.1).symm)
      · exact hquorum ▸ u.quorum_pos
    · exact hkeep hp
  | @hold holder m hheard htakes hpending hsize _ _ _ =>
    by_cases hlabel : label = Label.ofMessage m
    · subst hlabel
      rw [hpending] at hp
      cases hp
      obtain ⟨hholder, hm⟩ := hhears holder m hheard
      obtain ⟨hlabel, hkept, hall⟩ := held_of_mem_holders hwaits hsame hm hholder
      exact ⟨hlabel, (htakes.mem_forwarded _).mpr (Or.inl rfl), hknown _ hkept, hquorum ▸ hsize,
        fun a ha => hheld a _ (hall a ha)⟩
    · exact hkeep (htakes.pending_of_ne label hlabel ▸ hp)
  | @deliver holder m _ htakes hpending _ _ _ _ =>
    by_cases hlabel : label = Label.ofMessage m
    · subst hlabel
      rw [hpending] at hp
      cases hp
    · exact hkeep (htakes.pending_of_ne label hlabel ▸ hp)

/-- What is delivered has not been delivered before, and is held by a majority. -/
theorem Delivers.turn (h : u.Delivers deliveries known held)
    (hturn : Turn hears os broadcast? deliver? u u')
    (hwaits : ∀ (label : Label) (p : Pending), u.pending[label]? = some p →
      u.Waits known held label p)
    (hquorum : u'.group.quorum = u.group.quorum) (hknown : ∀ m, known m → known' m)
    (hheld : ∀ a m, held a m → held' a m) (hhears : ∀ a m, hears a m → held a m ∧ known m)
    (hsame : ∀ m m', known m → known m' → Label.ofMessage m = Label.ofMessage m' →
      ∀ a, held a m → held a m') :
    u'.Delivers (deliveries ++ deliver?.toList) known' held' := by
  obtain ⟨hgrow, -, -⟩ := hturn.forwarded_cases
  have hkeep : deliver? = none → u'.delivered = u.delivered →
      u'.Delivers (deliveries ++ deliver?.toList) known' held' := by
    rintro rfl hdelivered
    rw [Option.toList_none, List.append_nil]
    exact h.mono hquorum hdelivered hgrow hknown hheld
  cases hturn with
  | rest _ _ _ hdelivered _ _ hnone => exact hkeep hnone hdelivered
  | broadcast _ _ _ _ _ hdelivered _ _ hnone => exact hkeep hnone hdelivered
  | hold _ _ _ _ hdelivered _ hnone => exact hkeep hnone hdelivered
  | @deliver holder m hheard htakes _ hsize hdelivered _ hsome =>
    obtain ⟨hholder, hm⟩ := hhears holder m hheard
    obtain ⟨hlabel, hkept, hall⟩ := held_of_mem_holders hwaits hsame hm hholder
    have hforwarded : Label.ofMessage m ∈ u'.forwarded :=
      (htakes.mem_forwarded _).mpr (Or.inl rfl)
    rw [hsome, Option.toList_some]
    refine ⟨fun label => ?_, fun m' hm' => ?_, fun m' hm' => ?_, fun m' hm' => ?_, ?_⟩
    · rw [hdelivered, h.mem_delivered, ← hlabel]
      simp [or_and_right, exists_or, eq_comm, or_comm]
    · rcases List.mem_append.mp hm' with hold | hnew
      · exact hgrow _ (h.forwarded m' hold)
      · rw [List.mem_singleton.mp hnew, hlabel]
        exact hforwarded
    · rcases List.mem_append.mp hm' with hold | hnew
      · exact hknown m' (h.known m' hold)
      · rw [List.mem_singleton.mp hnew]
        exact hknown _ hkept
    · rw [hquorum]
      rcases List.mem_append.mp hm' with hold | hnew
      · obtain ⟨A, hnodup, hlength, hA⟩ := h.exists_holders m' hold
        exact ⟨A, hnodup, hlength, fun a ha => hheld a m' (hA a ha)⟩
      · rw [List.mem_singleton.mp hnew]
        refine ⟨(u.held m holder).holders.toList, ?_, ?_, fun a ha => ?_⟩
        · refine Std.ExtTreeSet.distinct_toList.imp ?_
          intro a b hne heq
          exact hne (Std.compare_eq_iff_eq.mpr heq)
        · rw [Std.ExtTreeSet.length_toList]
          exact hsize
        · exact hheld a _ (hall a (Std.ExtTreeSet.mem_toList.mp ha))
    · rw [List.map_append, List.nodup_append]
      refine ⟨h.nodup_label, List.nodup_singleton _, ?_⟩
      rintro label hl label' hl' rfl
      obtain ⟨m', hm', rfl⟩ := List.mem_map.mp hl
      refine htakes.not_mem_delivered ((h.mem_delivered _).mpr ⟨m', hm', ?_⟩)
      exact (List.mem_singleton.mp hl').trans hlabel

/-! ## All of it -/

namespace Account

/-- Nothing has happened. -/
theorem ofHosts (id : HostId) (hosts : Hosts) (tuning : Tuning)
    (hrelayed : ∀ q m, ¬ relayed q m) :
    (UniformBroadcast.ofHosts id hosts tuning).Account [] [] known relayed held budget where
  own := ⟨nofun, List.nodup_nil, Nat.zero_le _⟩
  forwards := by
    refine ⟨nofun, fun q m hm => absurd hm (hrelayed q m), fun label hlabel => ?_⟩
    exact absurd hlabel Std.ExtTreeSet.not_mem_empty
  waits label p hp := by
    rw [show (UniformBroadcast.ofHosts id hosts tuning).pending[label]? = none from
      Std.ExtTreeMap.getElem?_empty] at hp
    cases hp
  delivers := by
    refine ⟨fun label => ⟨fun hlabel => ?_, nofun⟩, nofun, nofun, nofun, List.nodup_nil⟩
    exact absurd hlabel Std.ExtTreeSet.not_mem_empty

/-- The account of a member that does a step. -/
theorem turn (h : u.Account broadcasts deliveries known relayed held budget)
    (hturn : Turn hears os broadcast? deliver? u u') (hself : u'.self = u.self)
    (hhosts : u'.group.hosts = u.group.hosts) (hknown : ∀ m, known m → known' m)
    (hbroadcast : ∀ m, broadcast? = some m → known' m)
    (hrelayed : ∀ q m, relayed' q m ↔
      relayed q m ∨ u.group.hosts.contains q = true ∧ u.toAll m ∈ os)
    (hheld : ∀ a m, held a m → held' a m) (hhears : ∀ a m, hears a m → held a m ∧ known m)
    (hunique : ∀ m m', known m → known m' → Label.ofMessage m = Label.ofMessage m' → m = m')
    (hbudget : budget ≤ budget') (hcost : ∀ m, broadcast? = some m → budget < budget')
    (hwrap : budget' < UInt32.size) : u'.Account (broadcasts ++ broadcast?.toList)
      (deliveries ++ deliver?.toList) known' relayed' held' budget' := by
  have hquorum : u'.group.quorum = u.group.quorum := by rw [BestEffort.quorum, hhosts]; rfl
  have hsame : ∀ m m', known m → known m' → Label.ofMessage m = Label.ofMessage m' →
      ∀ a, held a m → held a m' :=
    fun m m' hm hm' heq a ha => hunique m m' hm hm' heq ▸ ha
  exact ⟨h.own.turn hturn hself hbudget hcost hwrap, h.forwards.turn hturn hhosts hrelayed,
    fun label p hp => hturn.waits h.waits hquorum hknown hheld hbroadcast hhears hsame hp,
    h.delivers.turn hturn h.waits hquorum hknown hheld hhears hsame⟩

/-- The account of a member while others do steps. -/
theorem keep (h : u.Account broadcasts deliveries known relayed held budget)
    (hknown : ∀ m, known m → known' m) (hrelayed : ∀ q m, relayed' q m ↔ relayed q m)
    (hheld : ∀ a m, held a m → held' a m) (hbudget : budget ≤ budget') :
    u.Account broadcasts deliveries known' relayed' held' budget' where
  own := ⟨h.own.stamped, h.own.nodup_id, Nat.le_trans h.own.lastId_le hbudget⟩
  forwards := by
    refine ⟨h.forwards.of_broadcast, fun q m hm => ?_, fun label hlabel => ?_⟩
    · exact h.forwards.of_relayed q m ((hrelayed q m).mp hm)
    · obtain ⟨m, heq, hall⟩ := h.forwards.exists_relayed label hlabel
      exact ⟨m, heq, fun q hq => (hrelayed q m).mpr (hall q hq)⟩
  waits label p hp := (h.waits label p hp).mono rfl (fun _ hlabel => hlabel) hknown hheld
  delivers := h.delivers.mono rfl rfl (fun _ hlabel => hlabel) hknown hheld

/-- Messages of one member with one number are one message. -/
theorem eq_of_mem_broadcasts (h : u.Account broadcasts deliveries known relayed held budget)
    {m m' : Message} (hm : m ∈ broadcasts) (hm' : m' ∈ broadcasts) (hid : m.id = m'.id) : m = m' :=
  List.inj_on_of_nodup_map h.own.nodup_id hm hm' hid

end Account

end Groupcast.UniformBroadcast
