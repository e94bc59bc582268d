import Groupcast.Proofs.Broadcast.Account
import Groupcast.Proofs.Link.Driven
import Groupcast.Proofs.Trace

/-!
# Any calls to a uniform broadcast

The owner of a uniform broadcast may call it in any order, and give it envelopes that nobody has
sent: with any sender, of any origin, or holding nothing at all.  `UniformBroadcast.Call` is such a
call, and each comes to a `Turn` (`turn_effect`).

What a member then knows is what it has been told (`Books`): it has forwarded what has been brought
in, by itself or in an envelope of some member's message; what waits and what has been delivered is
held by the hosts whose envelopes got through; and what it delivers is some member's, and delivered
for the first time.  This needs no honesty of anyone (`books_after`).
-/

namespace Groupcast.UniformBroadcast

/-- A call to a broadcast, with any arguments. -/
inductive Call where
  /-- To broadcast a message of the member's own. -/
  | broadcast (m : Message)
  /-- To take in an envelope that a host has sent, whomever the envelope names. -/
  | deliver (sender : HostId) (m : Message)
  | timeout
  | stop
  deriving DecidableEq

/-- What a call does at its time, and what is delivered by it. -/
def effect (u : UniformBroadcast) (c : Call × Nat) : Step UniformBroadcast (Option Message) :=
  match c.1 with
  | .broadcast m => ⟨(u.broadcast m c.2).state, (u.broadcast m c.2).sent, none⟩
  | .deliver sender m => u.deliver sender m c.2
  | .timeout => ⟨(u.onTimeout c.2).state, (u.onTimeout c.2).sent, none⟩
  | .stop => ⟨u.stop, [], none⟩

/-- The message that a call broadcasts, as it is stamped. -/
def own? (u : UniformBroadcast) (c : Call × Nat) : Option Message :=
  match c.1 with
  | .broadcast m => some (u.stamp m)
  | .deliver _ _ | .timeout | .stop => none

/-- The message in an envelope that gets through, with the host that has sent it. -/
def hearing? (u : UniformBroadcast) (c : Call × Nat) : Option (HostId × Message) :=
  match c.1 with
  | .deliver sender m => (u.heard sender m).map (sender, ·)
  | .broadcast _ | .timeout | .stop => none

/-- The message that a call brings in, if it is the member's own or in an envelope and of a
member. -/
def news? (u : UniformBroadcast) (c : Call × Nat) : Option Message :=
  match c.1 with
  | .broadcast m => some (u.stamp m)
  | .deliver sender m => (u.heard sender m).filter fun m => u.group.hosts.contains m.sender
  | .timeout | .stop => none

/-- What is ordered from the links, apart from what is due. -/
def orders (u : UniformBroadcast) (c : Call × Nat) : List Order :=
  match c.1 with
  | .broadcast m => [u.toAll (u.stamp m)]
  | .deliver sender m =>
    match u.heard sender m with
    | none => []
    | some inner => (u.received sender m).relays inner
  | .timeout | .stop => []

/-! ## Runs of calls -/

/-- A broadcast after a run of calls, each with its time. -/
def after (u : UniformBroadcast) (calls : List (Call × Nat)) : UniformBroadcast :=
  calls.foldl (fun u c => (u.effect c).state) u

/-- All that is put out in a run. -/
def log {α : Type} (out : UniformBroadcast → Call × Nat → List α) (u : UniformBroadcast)
    (calls : List (Call × Nat)) : List α :=
  collect (fun u c => (u.effect c).state) out u calls

/-- The labels under which messages are brought in. -/
def introduced (u : UniformBroadcast) (calls : List (Call × Nat)) : List Label :=
  u.log (fun u c => (u.news? c).toList.map Label.ofMessage) calls

/-- Whose envelopes get through, and the labels of the messages in them. -/
def surfaced (u : UniformBroadcast) (calls : List (Call × Nat)) : List (HostId × Label) :=
  u.log (fun u c => (u.hearing? c).toList.map fun h => (h.1, .ofMessage h.2)) calls

/-- The messages that are delivered. -/
def deliveries (u : UniformBroadcast) (calls : List (Call × Nat)) : List Message :=
  u.log (fun u c => (u.effect c).result.toList) calls

/-- What is true after any calls. -/
structure Books (u : UniformBroadcast) (introduced : List Label) (surfaced : List (HostId × Label))
    (deliveries : List Message) : Prop where
  mem_forwarded : ∀ label, label ∈ u.forwarded ↔ label ∈ introduced
  waits : ∀ (label : Label) (p : Pending), u.pending[label]? = some p →
    u.Waits (fun _ => True) (fun id m => (id, .ofMessage m) ∈ surfaced) label p
  delivers : u.Delivers deliveries (fun _ => True) fun id m => (id, .ofMessage m) ∈ surfaced
  contains_sender : ∀ m ∈ deliveries, u.group.hosts.contains m.sender = true

variable {u : UniformBroadcast} {calls : List (Call × Nat)} {c : Call × Nat} {α : Type}
  {label : Label} {I : List Label} {S : List (HostId × Label)} {D : List Message}

theorem after_append (u : UniformBroadcast) (calls : List (Call × Nat)) (c : Call × Nat) :
    u.after (calls ++ [c]) = ((u.after calls).effect c).state := by
  rw [after, List.foldl_append]
  rfl

theorem log_append (out : UniformBroadcast → Call × Nat → List α) (u : UniformBroadcast)
    (calls : List (Call × Nat)) (c : Call × Nat) :
    u.log out (calls ++ [c]) = u.log out calls ++ out (u.after calls) c :=
  collect_append _ _ _ _ _

theorem introduced_append (u : UniformBroadcast) (calls : List (Call × Nat)) (c : Call × Nat) :
    u.introduced (calls ++ [c]) =
      u.introduced calls ++ ((u.after calls).news? c).toList.map Label.ofMessage :=
  log_append _ _ _ _

theorem surfaced_append (u : UniformBroadcast) (calls : List (Call × Nat)) (c : Call × Nat) :
    u.surfaced (calls ++ [c]) = u.surfaced calls ++
      ((u.after calls).hearing? c).toList.map fun h => (h.1, .ofMessage h.2) :=
  log_append _ _ _ _

theorem deliveries_append (u : UniformBroadcast) (calls : List (Call × Nat)) (c : Call × Nat) :
    u.deliveries (calls ++ [c]) =
      u.deliveries calls ++ ((u.after calls).effect c).result.toList :=
  log_append _ _ _ _

/-! ## One call -/

/-- **Whatever it is called with, a broadcast does one of four things.** -/
theorem turn_effect (u : UniformBroadcast) (c : Call × Nat) :
    Turn (fun id m => u.hearing? c = some (id, m)) (u.orders c) (u.own? c) (u.effect c).result u
      (u.effect c).state := by
  obtain ⟨c, now⟩ := c
  cases c with
  | timeout | stop => exact .rest rfl rfl rfl rfl rfl rfl rfl
  | broadcast m =>
    refine .broadcast rfl rfl rfl (fun label => ?_) rfl rfl rfl rfl rfl
    show label ∈ u.forwarded.insert (.ofMessage _) ↔ _
    rw [Std.ExtTreeSet.mem_insert, Std.compare_eq_iff_eq, eq_comm]
  | deliver sender m =>
    show Turn _ _ none (u.deliver sender m now).result u (u.deliver sender m now).state
    simp only [hearing?, orders]
    cases hheard : u.heard sender m with
    | none =>
      rw [deliver_of_heard_eq_none hheard]
      exact .rest rfl rfl rfl rfl rfl rfl rfl
    | some inner =>
      refine (turn_deliver hheard now).mono ?_
      rintro id m' ⟨rfl, rfl⟩
      rfl

theorem hosts_effect (u : UniformBroadcast) (c : Call × Nat) :
    (u.effect c).state.group.hosts = u.group.hosts := by
  obtain ⟨c, now⟩ := c
  cases c with
  | broadcast | timeout | stop => rfl
  | deliver sender m =>
    show (u.deliver sender m now).state.group.hosts = _
    cases hheard : u.heard sender m with
    | none =>
      rw [deliver_of_heard_eq_none hheard]
      rfl
    | some inner =>
      rw [deliver_of_heard_eq_some hheard]
      exact ((u.received sender m).onRelayed_eq sender inner now).1

/-- Whatever a broadcast is called with, its links do moves. -/
theorem driven_effect (u : UniformBroadcast) (c : Call × Nat) :
    Links.Driven (fun _ _ => True) u.group.links
      ((u.effect c).state.group.links, (u.effect c).sent) := by
  obtain ⟨c, now⟩ := c
  cases c with
  | broadcast m =>
    exact .of_moved (Links.moved_perform (u.toAll (u.stamp m)) now) fun _ => trivial
  | timeout => exact Links.driven_onTimeout fun _ => trivial
  | stop => exact Links.driven_stop fun _ => trivial
  | deliver sender e =>
    have hreceived : Links.Driven (fun _ _ => True) u.group.links
        ((u.received sender e).group.links, (u.group.deliver sender e).sent) :=
      Links.driven_deliver (fun _ => trivial) trivial
    show Links.Driven _ _ ((u.deliver sender e now).state.group.links,
      (u.deliver sender e now).sent)
    cases hheard : u.heard sender e with
    | none =>
      rw [deliver_of_heard_eq_none hheard]
      exact hreceived
    | some m =>
      rw [deliver_of_heard_eq_some hheard]
      have hrelays : Links.Driven (fun _ _ => True) (u.received sender e).group.links
          ((u.received sender e).group.links.performAll now ((u.received sender e).relays m)) :=
        Links.driven_run fun _ _ _ => trivial
      rw [← (onRelayed_eq (u.received sender e) sender m now).2] at hrelays
      exact hreceived.trans hrelays

theorem hosts_after (u : UniformBroadcast) (calls : List (Call × Nat)) :
    (u.after calls).group.hosts = u.group.hosts := by
  induction calls using List.reverseRecOn with
  | nil => rfl
  | append_singleton calls c ih => rw [after_append, hosts_effect, ih]

theorem self_after (u : UniformBroadcast) (calls : List (Call × Nat)) :
    (u.after calls).self = u.self := by
  induction calls using List.reverseRecOn with
  | nil => rfl
  | append_singleton calls c ih =>
    rw [after_append]
    exact (driven_effect _ c).self_eq.trans ih

/-- What is brought in is forwarded, unless it has been. -/
theorem mem_forwarded_effect (h : ∀ label ∈ u.delivered, label ∈ u.forwarded) (c : Call × Nat)
    (label : Label) : label ∈ (u.effect c).state.forwarded ↔
      label ∈ u.forwarded ∨ ∃ m, u.news? c = some m ∧ Label.ofMessage m = label := by
  obtain ⟨c, now⟩ := c
  cases c with
  | timeout | stop => exact ⟨Or.inl, fun h => h.elim id nofun⟩
  | broadcast m =>
    show label ∈ u.forwarded.insert (.ofMessage (u.stamp m)) ↔ _
    rw [Std.ExtTreeSet.mem_insert, Std.compare_eq_iff_eq, or_comm]
    refine or_congr_right ⟨fun heq => ⟨_, rfl, heq⟩, ?_⟩
    rintro ⟨m', hm', rfl⟩
    cases hm'
    rfl
  | deliver sender e =>
    show label ∈ (u.deliver sender e now).state.forwarded ↔ _
    simp only [news?]
    cases hheard : u.heard sender e with
    | none =>
      rw [deliver_of_heard_eq_none hheard]
      exact ⟨Or.inl, fun h => h.elim id nofun⟩
    | some m =>
      rw [deliver_of_heard_eq_some hheard, Option.filter_some]
      cases hheeded : !(u.received sender e).group.hosts.contains m.sender ||
          (u.received sender e).delivered.contains (.ofMessage m) with
      | true =>
        rw [(onRelayed_of_not_heeded sender now hheeded).1]
        refine ⟨Or.inl, fun h' => h'.elim id ?_⟩
        rintro ⟨m', hm', rfl⟩
        split at hm'
        · rename_i hcontains
          cases hm'
          replace hheeded : (!u.group.hosts.contains m.sender ||
            u.delivered.contains (.ofMessage m)) = true := hheeded
          rw [hcontains, Bool.not_true, Bool.false_or] at hheeded
          exact h _ (Std.ExtTreeSet.contains_iff_mem.mp hheeded)
        · cases hm'
      | false =>
        have htakes := (onRelayed_of_heeded sender now hheeded).1
        have hcontains : u.group.hosts.contains m.sender = true := htakes.contains_sender
        rw [htakes.mem_forwarded, or_comm, if_pos hcontains]
        refine or_congr_right ⟨fun heq => ⟨m, rfl, heq.symm⟩, ?_⟩
        rintro ⟨m', hm', rfl⟩
        cases hm'
        rfl

/-- What is delivered comes from a member. -/
theorem Turn.contains_sender {hears : HostId → Message → Prop} {os : List Order}
    {broadcast? : Option Message} {m : Message} {u' : UniformBroadcast}
    (h : Turn hears os broadcast? (some m) u u')
    (hwaits : ∀ (label : Label) (p : Pending), u.pending[label]? = some p →
      Label.ofMessage p.message = label) : u.group.hosts.contains m.sender = true := by
  cases h with
  | rest _ _ _ _ _ _ hnone => cases hnone
  | broadcast _ _ _ _ _ _ _ _ hnone => cases hnone
  | hold _ _ _ _ _ _ hnone => cases hnone
  | @deliver holder m' _ htakes _ _ _ _ hdeliver =>
    cases hdeliver
    have hlabel : Label.ofMessage (u.held m' holder).message = Label.ofMessage m' := by
      rcases u.message_held m' holder with heq | ⟨p, hp, heq⟩ <;> rw [heq]
      exact hwaits _ p hp
    rw [show (u.held m' holder).message.sender = m'.sender from congrArg Label.host hlabel]
    exact htakes.contains_sender

/-! ## Whole runs -/

theorem books_ofHosts (self : HostId) (hosts : Hosts) (tuning : Tuning) :
    (UniformBroadcast.ofHosts self hosts tuning).Books [] [] [] := by
  have haccount : (UniformBroadcast.ofHosts self hosts tuning).Account [] [] (fun _ => True)
      (fun _ _ => False) (fun id m => (id, Label.ofMessage m) ∈ ([] : List (HostId × Label))) 0 :=
    .ofHosts self hosts tuning fun _ _ => id
  refine ⟨fun label => ⟨fun h => ?_, nofun⟩, haccount.waits, haccount.delivers, nofun⟩
  exact absurd h Std.ExtTreeSet.not_mem_empty

/-- What has been delivered has been forwarded. -/
theorem Books.forwarded_of_delivered (h : u.Books I S D) :
    ∀ label ∈ u.delivered, label ∈ u.forwarded := by
  intro label hlabel
  obtain ⟨m, hm, rfl⟩ := (h.delivers.mem_delivered label).mp hlabel
  exact h.delivers.forwarded m hm

/-- **A call keeps the books.** -/
theorem Books.effect (h : u.Books I S D) (c : Call × Nat) :
    (u.effect c).state.Books (I ++ (u.news? c).toList.map Label.ofMessage)
      (S ++ (u.hearing? c).toList.map fun h => (h.1, .ofMessage h.2))
      (D ++ (u.effect c).result.toList) := by
  have hturn := u.turn_effect c
  have hhosts := u.hosts_effect c
  have hquorum : (u.effect c).state.group.quorum = u.group.quorum := by
    rw [BestEffort.quorum, hhosts]
    rfl
  generalize hS : S ++ (u.hearing? c).toList.map (fun h => (h.1, Label.ofMessage h.2)) = S'
  have hgrow : ∀ id m, (id, Label.ofMessage m) ∈ S → (id, Label.ofMessage m) ∈ S' :=
    fun id m hmem => hS ▸ List.mem_append_left _ hmem
  have hhears : ∀ id m, u.hearing? c = some (id, m) → (id, Label.ofMessage m) ∈ S' ∧ True := by
    intro id m hm
    rw [← hS, hm]
    exact ⟨List.mem_append_right _ (List.mem_singleton_self _), trivial⟩
  have hsame : ∀ m m', True → True → Label.ofMessage m = Label.ofMessage m' →
      ∀ id, (id, Label.ofMessage m) ∈ S' → (id, Label.ofMessage m') ∈ S' :=
    fun m m' _ _ heq id hmem => heq ▸ hmem
  -- who has just been heard is among the holders at once
  have hwaits : ∀ (label : Label) (p : Pending), u.pending[label]? = some p →
      u.Waits (fun _ => True) (fun id m => (id, .ofMessage m) ∈ S') label p :=
    fun label p hp => (h.waits label p hp).mono rfl (fun _ hl => hl) (fun _ => id) hgrow
  have hdelivers : u.Delivers D (fun _ => True) fun id m => (id, .ofMessage m) ∈ S' :=
    h.delivers.mono rfl rfl (fun _ hl => hl) (fun _ => id) hgrow
  refine ⟨fun label => ?_, fun label p hp => ?_, ?_, fun m hm => ?_⟩
  · rw [mem_forwarded_effect h.forwarded_of_delivered, h.mem_forwarded, List.mem_append,
      List.mem_map]
    simp only [Option.mem_toList]
  · exact hturn.waits hwaits hquorum (fun _ => id) (fun _ _ => id) (fun _ _ => trivial) hhears
      hsame hp
  · exact hdelivers.turn hturn hwaits hquorum (fun _ => id) (fun _ _ => id) hhears hsame
  · rw [hhosts]
    rcases List.mem_append.mp hm with hold | hnew
    · exact h.contains_sender m hold
    · rw [Option.mem_toList] at hnew
      rw [hnew] at hturn
      exact hturn.contains_sender fun label p hp => (h.waits label p hp).label_eq

/-- **The books are kept, whatever a broadcast is called with.** -/
theorem books_after (h : u.Books [] [] []) (calls : List (Call × Nat)) :
    (u.after calls).Books (u.introduced calls) (u.surfaced calls) (u.deliveries calls) := by
  induction calls using List.reverseRecOn with
  | nil => exact h
  | append_singleton calls c ih =>
    rw [after_append, introduced_append, surfaced_append, deliveries_append]
    exact ih.effect c

end Groupcast.UniformBroadcast
