import Groupcast.Proofs.Node.Halves

/-!
# All that a node emits can be attributed

Headers are filled in by different layers: by the originator of a message, by the member that relays
it, by the link that stamps it, by what acknowledges it.  Whatever comes in, and from wherever, what
goes out names its own node as the sender and the host at the target as the receiver
(`emitted_attributable`).  So nothing that a node emits is dropped where it arrives because sender
and source do not agree.
-/

namespace Groupcast

theorem Hosts.Lawful.identify_address {t : Hosts} (ht : t.Lawful) {id : HostId} {h : Host}
    (hget : t.get? id = some h) : t.identify h.address id = some h := by
  rw [identify, ht.at?_address hget]
  exact Option.filter_eq_some_iff.mpr ⟨rfl, decide_eq_true (ht.id_eq hget)⟩

/-- A datagram of `source` can be attributed: it carries a message in that host's name, which is
meant for the member whose address is the target. -/
structure Datagram.Attributable (hosts : Hosts) (source : Host) (d : Datagram) (m : Message)
    (receiver : Host) : Prop where
  decode_eq : Message.decode d.bytes = .ok m
  sender_eq : m.sender = source.id
  receiver_eq : m.receiver = receiver.id
  get?_receiver : hosts.get? receiver.id = some receiver
  /-- The target is the address of the receiver and of no other member. -/
  target_eq : d.target = receiver.address
  at?_target : hosts.at? d.target = some receiver
  /-- Where it arrives, sender and source agree. -/
  identify_eq : hosts.identify source.address m.sender = some source
  /-- So every node of the group takes it for what it is. -/
  taken : ∀ (π : Type) (there : Node π), there.hosts = hosts →
    there.identify source.address d.bytes = some m

/-- What is in a member's name can be attributed to it. -/
theorem Datagram.InName.attributable {control : Bool} {hosts : Hosts} {source : Host} {d : Datagram}
    (h : d.InName control source.id hosts) (hlawful : hosts.Lawful)
    (hsource : hosts.get? source.id = some source) :
    ∃ m receiver, d.Attributable hosts source m receiver := by
  obtain ⟨m, receiver, hreceiver, hsender, -, rfl⟩ := h
  have hid := hlawful.id_eq hreceiver
  have hidentify : hosts.identify source.address m.sender = some source := by
    rw [hsender]
    exact hlawful.identify_address hsource
  refine ⟨m, receiver, ?_⟩
  constructor
  · exact Message.decode_encode m
  · exact hsender
  · exact hid.symm
  · rw [hid]
    exact hreceiver
  · rfl
  · exact hlawful.at?_address hreceiver
  · exact hidentify
  · intro π there hthere
    simp only [Node.identify, Message.decode_encode, hthere, hidentify, Option.isSome_some, if_true]

namespace Stack

variable {s : Stack} {self : HostId} {hosts : Hosts} {hs : List Host} {tuning : Tuning}
  {watching : Option Tuning} {n : Node s.State}

/-- **Everything that a node emits can be attributed to it**, whichever protocol it runs, with a
failure detector or without, and whatever datagrams come in from anywhere. -/
theorem emitted_attributable (hhosts : Hosts.ofList hs = .ok hosts)
    (hnode : s.node self hosts tuning watching = some n) (run : List (Cause (Node s.State) × Nat)) :
    n.host.id = self ∧
      ∀ d ∈ n.emitted run, ∃ m receiver, d.Attributable hosts n.host m receiver := by
  have hlawful := Hosts.lawful_ofList hhosts
  have hsource := (of_node hnode).1
  have hid := hlawful.id_eq hsource
  refine ⟨hid, fun d hd => ?_⟩
  have hname : ∃ control, d.InName control self hosts := by
    rcases Node.mem_emitted_iff.mp hd with hspoken | ⟨o, ho, hwatch⟩
    · obtain ⟨o, ho, hmem⟩ := List.mem_flatMap.mp hspoken
      exact ⟨false, (inName_of_run hlawful hnode run ho).1 d hmem⟩
    · exact ⟨true, (inName_of_run hlawful hnode run ho).2 d hwatch⟩
  obtain ⟨control, hname⟩ := hname
  rw [← hid] at hname hsource
  exact hname.attributable hlawful hsource

/-- The first of two hosts, with a uniform broadcast and a failure detector. -/
def mixedNode : Node (State .uniform) where
  host := .first
  hosts := .pair
  protocol := .ofHosts 1 .pair {}
  detector := some (.ofHosts 1 .pair {})

/-- A run of this node: it starts, broadcasts a note, takes in a broadcast of the second host and a
heartbeat, gets bytes that are no message from an address that is no member's, does what is due, and
stops. -/
def mixedRun : List (Cause (Node (State .uniform)) × Nat) :=
  [ (.input .start, 0),
    (.input (.command [7]), 1),
    (.arrival .second
      (Message.encode ⟨.data, 2, 1, 1, 1, Message.encode ⟨.data, 2, 0, 1, 1, [8]⟩⟩), 2),
    (.arrival .second (Message.encode ⟨.heartbeat, 2, 1, 1, 0, []⟩), 3),
    (.arrival .third [1, 2, 3], 4),
    (.input .timeout, 200),
    (.input .stop, 201) ]

/-- In that run all kinds of messages are emitted. -/
theorem emitted_attributable_mixedRun :
    (Hosts.ofList [.first, .second] = .ok .pair ∧
      node .uniform 1 .pair {} (some {}) = some mixedNode ∧
      (mixedNode.emitted mixedRun).map Datagram.kind? =
        ([.data, .data, .ack, .data, .data, .heartbeatAck, .data, .data, .data, .data,
          .heartbeat] : List Kind).map some) ∧
    mixedNode.host.id = 1 ∧ ∀ d ∈ mixedNode.emitted mixedRun,
      ∃ m receiver, d.Attributable .pair mixedNode.host m receiver := by
  have hnode : node .uniform 1 .pair {} (some {}) = some mixedNode := rfl
  exact ⟨⟨Hosts.ofList_pair, hnode, by decide +kernel⟩,
    emitted_attributable Hosts.ofList_pair hnode mixedRun⟩

end Stack

end Groupcast
