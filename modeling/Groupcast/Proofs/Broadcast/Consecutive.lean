import Groupcast.Proofs.Broadcast.Backlog
import Groupcast.Proofs.Broadcast.Calls

/-!
# Any calls to a broadcast in order

The owner of a broadcast in order may call it in any order, and give it envelopes that nobody has
sent.  What they hold may name any sender and carry any history: numbers may be missing, come twice
or be zero, and two messages may have the same number.

Whatever it is, the messages that are delivered of a host are numbered one, two, three, and so on
(`delivers_consecutively`).  All that a member notes about a host agrees with them: the number that
comes next, the labels that have been delivered, the backlog and the history.  The small steps of
taking in a body each keep that (`Consecutive`), whatever the body is.
-/

namespace Groupcast.FifoBroadcast

/-- A call to a broadcast in order, with any arguments. -/
inductive Call where
  | broadcast (payload : Bytes)
  /-- To take in an envelope that a host has sent, whomever the envelope names. -/
  | deliver (sender : HostId) (m : Message)
  | timeout
  | stop
  deriving DecidableEq

/-- What a call does at its time, and what is delivered by it. -/
def effect (f : FifoBroadcast) (c : Call × Nat) : Step FifoBroadcast (List Message) :=
  match c.1 with
  | .broadcast payload => ⟨(f.broadcast payload c.2).state, (f.broadcast payload c.2).sent, []⟩
  | .deliver sender m => f.deliver sender m c.2
  | .timeout => ⟨(f.onTimeout c.2).state, (f.onTimeout c.2).sent, []⟩
  | .stop => ⟨f.stop, [], []⟩

/-- The call to the broadcast below that a call comes to. -/
def below (f : FifoBroadcast) (c : Call × Nat) : UniformBroadcast.Call × Nat :=
  match c.1 with
  | .broadcast payload => (.broadcast (f.carrier payload), c.2)
  | .deliver sender m => (.deliver sender m, c.2)
  | .timeout => (.timeout, c.2)
  | .stop => (.stop, c.2)

/-- A broadcast after a run of calls, each with its time. -/
def after (f : FifoBroadcast) (calls : List (Call × Nat)) : FifoBroadcast :=
  calls.foldl (fun f c => (f.effect c).state) f

/-- The messages that a run delivers. -/
def deliveries (f : FifoBroadcast) (calls : List (Call × Nat)) : List Message :=
  collect (fun f c => (f.effect c).state) (fun f c => (f.effect c).result) f calls

/-- The run of the broadcast below. -/
def callsBelow (f : FifoBroadcast) (calls : List (Call × Nat)) :
    List (UniformBroadcast.Call × Nat) :=
  collect (fun f c => (f.effect c).state) (fun f c => [f.below c]) f calls

variable {f f' : FifoBroadcast} {calls : List (Call × Nat)} {x y : HostId} {seq : UInt32}
  {m : Message} {ms out out' : List Message}

theorem after_append (f : FifoBroadcast) (calls : List (Call × Nat)) (c : Call × Nat) :
    f.after (calls ++ [c]) = ((f.after calls).effect c).state := by
  rw [after, List.foldl_append]
  rfl

theorem deliveries_append (f : FifoBroadcast) (calls : List (Call × Nat)) (c : Call × Nat) :
    f.deliveries (calls ++ [c]) = f.deliveries calls ++ ((f.after calls).effect c).result :=
  collect_append _ _ _ _ _

/-! ## The broadcast below -/

theorem uniform_effect (f : FifoBroadcast) (c : Call × Nat) :
    (f.effect c).state.uniform = (f.uniform.effect (f.below c)).state := by
  obtain ⟨c, now⟩ := c
  cases c with
  | broadcast | timeout | stop => rfl
  | deliver sender m => exact (f.uniform_deliver sender m now).1

theorem uniform_after (f : FifoBroadcast) (calls : List (Call × Nat)) :
    (f.after calls).uniform = f.uniform.after (f.callsBelow calls) := by
  induction calls using List.reverseRecOn with
  | nil => rfl
  | append_singleton calls c ih =>
    have hcalls : f.callsBelow (calls ++ [c]) = f.callsBelow calls ++ [(f.after calls).below c] :=
      collect_append _ _ _ _ _
    rw [after_append, uniform_effect, hcalls, UniformBroadcast.after_append, ih]

theorem self_after (f : FifoBroadcast) (calls : List (Call × Nat)) :
    (f.after calls).self = f.self := by
  rw [self, uniform_after]
  exact UniformBroadcast.self_after _ _

/-! ## What is delivered comes from members -/

/-- What a carrier of a member holds comes from members. -/
theorem contains_of_mem_offered {hosts : Hosts} {carrier : Message}
    (hcarrier : hosts.contains carrier.sender = true) :
    ∀ m ∈ offered hosts carrier, hosts.contains m.sender = true := by
  intro m hm
  unfold offered at hm
  split at hm
  · split at hm
    · rename_i hsender
      rcases List.mem_cons.mp hm with rfl | hblocks
      · rw [hsender]
        exact hcarrier
      · obtain ⟨b, -, hm⟩ := List.mem_flatMap.mp hblocks
        unfold offeredIn at hm
        split at hm
        · rename_i hcontains
          rw [of_decide_eq_true (List.mem_filter.mp hm).2]
          exact hcontains
        · cases hm
    · cases hm
  · cases hm

section

variable {hosts : Hosts}

/-- What a call leaves waiting and what it delivers comes from members. -/
theorem contains_effect {I : List Label} {S : List (HostId × Label)} {D : List Message}
    (hhosts : f.uniform.group.hosts = hosts) (hbooks : f.uniform.Books I S D)
    (hwaits : f.Waits fun m => hosts.contains m.sender = true) (c : Call × Nat) :
    ((f.effect c).state.Waits fun m => hosts.contains m.sender = true) ∧
      ∀ m ∈ (f.effect c).result, hosts.contains m.sender = true := by
  have hafter := (f.uniform.hosts_effect (f.below c)).trans hhosts
  have hcarriers := (hbooks.effect (f.below c)).contains_sender
  rw [hafter] at hcarriers
  obtain ⟨c, now⟩ := c
  cases c with
  | broadcast | timeout | stop => exact ⟨hwaits, nofun⟩
  | deliver sender m =>
    refine (f.intake_deliver sender m now).stems (P := fun m => hosts.contains m.sender = true)
      hwaits fun m' hm' => ?_
    obtain ⟨carrier, hcarrier, hm'⟩ := List.mem_flatMap.mp hm'
    rw [show (f.uniform.deliver sender m now).state.group.hosts = hosts from hafter] at hm'
    exact contains_of_mem_offered (hcarriers carrier (List.mem_append_right _ hcarrier)) m' hm'

/-- **All that is delivered comes from members.** -/
theorem contains_after (hhosts : f.uniform.group.hosts = hosts)
    (hbooks : f.uniform.Books [] [] [])
    (hwaits : f.Waits fun m => hosts.contains m.sender = true) (calls : List (Call × Nat)) :
    ((f.after calls).Waits fun m => hosts.contains m.sender = true) ∧
      ∀ m ∈ f.deliveries calls, hosts.contains m.sender = true := by
  induction calls using List.reverseRecOn with
  | nil => exact ⟨hwaits, nofun⟩
  | append_singleton calls c ih =>
    obtain ⟨hbefore, hall⟩ := ih
    have hafter := UniformBroadcast.hosts_after f.uniform (f.callsBelow calls)
    have hkept := UniformBroadcast.books_after hbooks (f.callsBelow calls)
    rw [← uniform_after] at hafter hkept
    obtain ⟨hwaits', hnew⟩ := contains_effect (hafter.trans hhosts) hkept hbefore c
    rw [after_append, deliveries_append]
    exact ⟨hwaits', List.forall_mem_append.mpr ⟨hall, hnew⟩⟩

end

/-! ## What is noted agrees with what is delivered -/

/-- The messages that have been delivered of a host are numbered consecutively; what waits is ahead
of them, under its own number, and the history of another host holds nothing else. -/
structure Consecutive (f : FifoBroadcast) (out : List Message) : Prop extends Tally f out where
  seqs_eq : ∀ x, (ofSender out x).map Message.seq =
    (List.range' 1 (ofSender out x).length).map UInt32.ofNat
  keyed : ∀ (x : HostId) (seq : UInt32) (m : Message), (f.backlog.messages x)[seq]? = some m →
    m.sender = x ∧ m.seq = seq
  ahead : ∀ (x : HostId) (seq : UInt32) (m : Message), (f.backlog.messages x)[seq]? = some m →
    f.nextExpected x ≤ seq
  history : ∀ x, x ≠ f.self → ∀ (seq : UInt32) (m : Message),
    (f.history.messages x)[seq]? = some m ↔ m ∈ ofSender out x ∧ m.seq = seq

namespace Consecutive

/-- Nothing has happened. -/
theorem ofHosts (id : HostId) (hosts : Hosts) (tuning : Tuning) :
    (FifoBroadcast.ofHosts id hosts tuning).Consecutive [] where
  toTally := .ofHosts id hosts tuning
  seqs_eq _ := rfl
  keyed _ _ _ hm := absurd hm (by simp [FifoBroadcast.ofHosts])
  ahead _ _ _ hm := absurd hm (by simp [FifoBroadcast.ofHosts])
  history x _ seq m := by simp [FifoBroadcast.ofHosts, ofSender]

theorem accept (h : f.Consecutive out) (m : Message) : (f.accept m).Consecutive out := by
  have htally := h.toTally.accept m
  rcases f.accept_cases m with ⟨heq, -⟩ | ⟨hnew, heq⟩
  · rw [heq]
    exact h
  · rw [heq] at htally ⊢
    refine ⟨htally, h.seqs_eq, ?_, ?_, h.history⟩
    · exact History.forall_add (P := fun x seq m => m.sender = x ∧ m.seq = seq) h.keyed ⟨rfl, rfl⟩
    · exact History.forall_add (P := fun x seq _ => f.nextExpected x ≤ seq) h.ahead
        (UInt32.not_lt.mp hnew.2)

/-- The number of the message whose turn it is has not been delivered yet. -/
theorem ne_of_next (h : f.Consecutive out)
    (hm : (f.backlog.messages x)[f.nextExpected x]? = some m) :
    ∀ m' ∈ ofSender out x, m'.seq ≠ f.nextExpected x := fun m' hm' heq =>
  h.not_mem_delivered x _ m hm ((h.mem_delivered x _).mpr ⟨m', hm', heq⟩)

/-- What waits beside the message whose turn it is waits for a later turn. -/
theorem ahead_deliverNext (h : f.Consecutive out) {k : UInt32} {m' : Message}
    (hm' : ((f.deliverNext x m).backlog.messages y)[k]? = some m') :
    (f.deliverNext x m).nextExpected y ≤ k := by
  obtain ⟨hwaits, hne⟩ := waits_of_deliverNext hm'
  have hahead := h.ahead y k m' hwaits
  rw [nextExpected_deliverNext]
  split
  · rename_i hy
    subst hy
    have hlt := UInt32.lt_of_le_of_ne hahead fun heq => hne ⟨rfl, heq⟩
    -- After the last number there is, zero comes next, and nothing is behind that.
    rw [UInt32.le_iff_toNat_le, UInt32.toNat_add]
    exact (Nat.mod_le _ _).trans (UInt32.lt_iff_toNat_lt.mp hlt)
  · exact hahead

/-- The message whose turn it is replaces none in the history. -/
theorem history_deliverNext (h : f.Consecutive out)
    (hm : (f.backlog.messages m.sender)[f.nextExpected m.sender]? = some m) (hy : y ≠ f.self)
    (k : UInt32) (m' : Message) : ((f.deliverNext m.sender m).history.messages y)[k]? = some m' ↔
      m' ∈ ofSender (out ++ [m]) y ∧ m'.seq = k := by
  have hseq := (h.keyed _ _ m hm).2
  show ((f.history.add m.sender (f.nextExpected m.sender) m).messages y)[k]? = some m' ↔ _
  rw [History.getElem?_add, ofSender_concat]
  by_cases hsender : m.sender = y
  · subst hsender
    rw [if_pos rfl, List.mem_append, List.mem_singleton]
    by_cases hk : f.nextExpected m.sender = k
    · subst hk
      rw [if_pos ⟨rfl, rfl⟩]
      constructor
      · rintro ⟨⟩
        exact ⟨Or.inr rfl, hseq⟩
      · rintro ⟨hold | rfl, hm'⟩
        · exact absurd hm' (h.ne_of_next hm m' hold)
        · rfl
    · rw [if_neg fun h => hk h.2, h.history m.sender hy]
      refine and_congr_left fun hm' => ⟨Or.inl, fun hmem => hmem.resolve_right ?_⟩
      rintro rfl
      exact hk (hseq.symm.trans hm')
  · rw [if_neg hsender, if_neg fun h => hsender h.1]
    exact h.history y hy k m'

theorem deliverNext (h : f.Consecutive out)
    (hm : (f.backlog.messages x)[f.nextExpected x]? = some m) :
    (f.deliverNext x m).Consecutive (out ++ [m]) := by
  obtain ⟨rfl, hseq⟩ := h.keyed x _ m hm
  refine ⟨h.toTally.deliverNext hseq, fun y => ?_, fun y k m' hm' => ?_,
    fun y k m' hm' => h.ahead_deliverNext hm', fun y hy => h.history_deliverNext hm hy⟩
  · rw [ofSender_concat]
    split
    · rename_i hy
      subst hy
      rw [List.map_append, h.seqs_eq, List.length_append, List.length_singleton,
        List.range'_concat, List.map_append, List.map_singleton, List.map_singleton, hseq,
        h.next_eq, Nat.one_mul, Nat.add_comm 1]
    · exact h.seqs_eq y
  · exact h.keyed y k m' (waits_of_deliverNext hm').1

theorem discard (h : f.Consecutive out) (hempty : (f.backlog.messages x).isEmpty = true) :
    Consecutive { f with backlog := f.backlog.erase x } out where
  toTally := h.toTally.discard hempty
  seqs_eq := h.seqs_eq
  keyed y seq m hm := h.keyed y seq m (by rwa [History.messages_erase hempty] at hm)
  ahead y seq m hm := h.ahead y seq m (by rwa [History.messages_erase hempty] at hm)
  history := h.history

/-- **Taking in a body keeps the count, whatever is in it.** -/
theorem intake (h : f.Consecutive out) (hintake : Intake f ms out' f') :
    f'.Consecutive (out ++ out') := by
  induction hintake with
  | start =>
    rw [List.append_nil]
    exact h
  | accept _ m ih => exact ih.accept m
  | deliver _ hm ih =>
    rw [← List.append_assoc]
    exact ih.deliverNext hm
  | discard _ hempty ih => exact ih.discard hempty

/-- The broadcast below goes on. -/
theorem of_uniform {u : UniformBroadcast} (h : f.Consecutive out)
    (hself : u.self = f.uniform.self) : Consecutive { f with uniform := u } out :=
  ⟨⟨h.next_eq, h.mem_delivered, h.not_mem_delivered⟩, h.seqs_eq, h.keyed, h.ahead,
    fun x hx => h.history x fun heq => hx (heq.trans hself.symm)⟩

/-- The member broadcasts a message itself. -/
theorem issue (h : f.Consecutive out) (n : UInt32) (m : Message) :
    Consecutive { f with nextSeq := n, history := f.history.add f.self seq m } out := by
  refine ⟨⟨h.next_eq, h.mem_delivered, h.not_mem_delivered⟩, h.seqs_eq, h.keyed, h.ahead,
    fun x hx k m' => ?_⟩
  show ((f.history.add f.self seq m).messages x)[k]? = some m' ↔ _
  rw [History.getElem?_add, if_neg fun heq => hx heq.1.symm]
  exact h.history x hx k m'

/-- **A call keeps the count, whatever its arguments are.** -/
theorem effect (h : f.Consecutive out) (c : Call × Nat) :
    (f.effect c).state.Consecutive (out ++ (f.effect c).result) := by
  have hself := (f.uniform.driven_effect (f.below c)).self_eq
  obtain ⟨c, now⟩ := c
  cases c with
  | broadcast payload =>
    rw [show (f.effect (.broadcast payload, now)).result = [] from rfl, List.append_nil]
    exact (h.issue _ _).of_uniform hself
  | timeout | stop =>
    show Consecutive _ (out ++ [])
    rw [List.append_nil]
    exact h.of_uniform hself
  | deliver sender m => exact (h.of_uniform hself).intake (f.intake_deliver sender m now)

end Consecutive

theorem consecutive_after (h : f.Consecutive []) (calls : List (Call × Nat)) :
    (f.after calls).Consecutive (f.deliveries calls) := by
  induction calls using List.reverseRecOn with
  | nil => exact h
  | append_singleton calls c ih =>
    rw [after_append, deliveries_append]
    exact ih.effect c

theorem calm_after (h : ∀ x, f.Calm x) (calls : List (Call × Nat)) (x : HostId) :
    (f.after calls).Calm x := by
  induction calls using List.reverseRecOn generalizing x with
  | nil => exact h x
  | append_singleton calls c ih =>
    rw [after_append]
    obtain ⟨c, now⟩ := c
    cases c with
    | broadcast | timeout | stop => exact (ih x).congr _ _ _
    | deliver sender m => exact Calm.deliver ih sender m now x

/-! ## The main result -/

namespace Consecutive

theorem map_toNat_seq (h : f.Consecutive out) (hfew : (ofSender out x).length < UInt32.size) :
    (ofSender out x).map (·.seq.toNat) = List.range' 1 (ofSender out x).length := by
  have hseqs := congrArg (List.map UInt32.toNat) (h.seqs_eq x)
  rw [List.map_map, List.map_map] at hseqs
  refine hseqs.trans ((List.map_congr_left fun i hi => ?_).trans (List.map_id _))
  have hle := List.mem_range'_1.mp hi
  exact UInt32.toNat_ofNat_of_lt' (by omega)

theorem mem_delivered_iff (h : f.Consecutive out) (hfew : (ofSender out x).length < UInt32.size) :
    ⟨x, seq⟩ ∈ f.delivered ↔ 1 ≤ seq.toNat ∧ seq.toNat ≤ (ofSender out x).length := by
  calc ⟨x, seq⟩ ∈ f.delivered
      ↔ seq.toNat ∈ (ofSender out x).map (·.seq.toNat) := by
        simp only [h.mem_delivered, List.mem_map, UInt32.toNat_inj]
    _ ↔ 1 ≤ seq.toNat ∧ seq.toNat ≤ (ofSender out x).length := by
        rw [h.map_toNat_seq hfew, List.mem_range'_1]
        omega

end Consecutive

/-- **A member delivers consecutively, whatever it is called with.**  As long as the numbers of a
host do not run out:

* what is delivered of the host is numbered one, two, three, and so on, without gap or repetition,
  and the host is a member if there is anything;
* the number that comes next is the one after these, and these are what is noted as delivered;
* what waits in the backlog of the host has a later turn than the one that comes next, and no empty
  backlog is kept;
* unless the host is the member itself, its history is what has been delivered of it, each message
  under its number. -/
theorem delivers_consecutively {hosts : Hosts} {owner : HostId} {tuning : Tuning}
    (hstart : f = .ofHosts owner hosts tuning) (calls : List (Call × Nat)) (x : HostId)
    (hfew : (ofSender (f.deliveries calls) x).length < UInt32.size - 1) :
    (ofSender (f.deliveries calls) x).map (·.seq.toNat) =
        List.range' 1 (ofSender (f.deliveries calls) x).length ∧
      (ofSender (f.deliveries calls) x ≠ [] → hosts.contains x = true) ∧
      ((f.after calls).nextExpected x).toNat = (ofSender (f.deliveries calls) x).length + 1 ∧
      (∀ seq, ⟨x, seq⟩ ∈ (f.after calls).delivered ↔
        1 ≤ seq.toNat ∧ seq.toNat ≤ (ofSender (f.deliveries calls) x).length) ∧
      (∀ seq m, ((f.after calls).backlog.messages x)[seq]? = some m →
        (f.after calls).nextExpected x < seq) ∧
      (x ∈ (f.after calls).backlog → ((f.after calls).backlog.messages x).isEmpty = false) ∧
      (x ≠ owner → ∀ seq m, ((f.after calls).history.messages x)[seq]? = some m ↔
        m ∈ ofSender (f.deliveries calls) x ∧ m.seq = seq) := by
  subst hstart
  have hcount := consecutive_after (.ofHosts owner hosts tuning) calls
  have hcalm := calm_after (calm_ofHosts owner hosts tuning) calls x
  have hbooks : (FifoBroadcast.ofHosts owner hosts tuning).uniform.Books [] [] [] :=
    UniformBroadcast.books_ofHosts owner hosts tuning
  have hmembers := (contains_after (f := .ofHosts owner hosts tuning) rfl hbooks
    (fun y k m hm => absurd hm (by simp [FifoBroadcast.ofHosts])) calls).2
  have hself : (FifoBroadcast.after (.ofHosts owner hosts tuning) calls).self = owner :=
    self_after _ calls
  generalize FifoBroadcast.deliveries (.ofHosts owner hosts tuning) calls = out at *
  generalize FifoBroadcast.after (.ofHosts owner hosts tuning) calls = f at *
  have hlt : (ofSender out x).length < UInt32.size := Nat.lt_of_lt_pred hfew
  refine ⟨hcount.map_toNat_seq hlt, fun hne => ?_, ?_, fun seq => hcount.mem_delivered_iff hlt,
    fun seq m hm => ?_, hcalm.isEmpty_eq_false, fun hx => hcount.history x (hself ▸ hx)⟩
  · obtain ⟨m, hm⟩ := List.exists_mem_of_ne_nil _ hne
    obtain ⟨hm, hsender⟩ := List.mem_filter.mp hm
    rw [← of_decide_eq_true hsender]
    exact hmembers m hm
  · rw [hcount.next_eq]
    exact UInt32.toNat_ofNat_of_lt' (by omega)
  · refine UInt32.lt_of_le_of_ne (hcount.ahead x seq m hm) ?_
    rintro rfl
    rw [hcalm.next_eq_none] at hm
    cases hm

/-- Any blocks and any message in a carrier that names a host.  It is relayed by the second and the
third member, as the envelopes over their links have it. -/
def relayedBy (id : UInt32) (sender : HostId) (blocks : List Block) (m : Message) : List Call :=
  let carrier := { Message.ofData sender m.seq (Block.encodeAll blocks ++ m.encodeFramed) with id }
  [2, 3].map fun holder => .deliver holder
    { Message.ofData holder m.seq carrier.encode with id, receiver := 1 }

/-- A member is given the second message of a host before its first one, with the number zero, a
host that is no member, a message of another host and two messages of one number in the history
beside it; a message in a carrier of another host; the first message, with other texts for both
beside it; and the seventh one. -/
def forgeries : List (Call × Nat) :=
  (.broadcast [72] ::
    relayedBy 1 2 [(2, [.ofData 2 0 [0]]), (9, [.ofData 9 1 [9]]),
      (3, [.ofData 3 1 [1], .ofData 2 1 [1], .ofData 3 1 [2]])] (.ofData 2 2 [98]) ++
    relayedBy 2 3 [] (.ofData 2 1 [0]) ++ .timeout ::
    relayedBy 3 2 [(2, [.ofData 2 1 [99], .ofData 2 2 [99]])] (.ofData 2 1 [97]) ++ .stop ::
    relayedBy 4 2 [] (.ofData 2 7 [103])).zipIdx

/-- The first of three members. -/
def addressee : FifoBroadcast := .ofHosts 1 .trio {}

/-- It delivers the first two messages of the second member, and the seventh one waits. -/
theorem delivers_consecutively_forgeries :
    addressee.deliveries forgeries = [.ofData 3 1 [2], .ofData 2 1 [97], .ofData 2 2 [98]] ∧
      (ofSender (addressee.deliveries forgeries) 2).length < UInt32.size - 1 ∧
      ((addressee.after forgeries).nextExpected 2).toNat = 3 ∧
      (∀ seq, ⟨2, seq⟩ ∈ (addressee.after forgeries).delivered ↔
        1 ≤ seq.toNat ∧ seq.toNat ≤ 2) ∧
      (addressee.after forgeries).nextExpected 2 < 7 ∧
      ∀ seq m, ((addressee.after forgeries).history.messages 2)[seq]? = some m ↔
        m ∈ [Message.ofData 2 1 [97], .ofData 2 2 [98]] ∧ m.seq = seq := by
  have hout : addressee.deliveries forgeries =
      [.ofData 3 1 [2], .ofData 2 1 [97], .ofData 2 2 [98]] := by decide +kernel
  have hfew : (ofSender (addressee.deliveries forgeries) 2).length < UInt32.size - 1 := by
    rw [hout]
    decide
  obtain ⟨-, -, hnext, hdelivered, hwaits, -, hhistory⟩ :=
    delivers_consecutively (f := addressee) rfl forgeries 2 hfew
  have hseventh : ((addressee.after forgeries).backlog.messages 2)[(7 : UInt32)]? =
      some (.ofData 2 7 [103]) := by decide +kernel
  rw [hout] at hnext hdelivered hhistory
  exact ⟨hout, hfew, hnext, hdelivered, hwaits 7 _ hseventh, hhistory (by decide)⟩

end Groupcast.FifoBroadcast
