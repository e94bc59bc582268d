import Groupcast.Proofs.Broadcast.Body
import Groupcast.Proofs.Broadcast.Uniform

/-!
# One member that broadcasts in order

Taking in a body is a sequence of small things (`FifoBroadcast.Intake`): a message is accepted, the
next message of a host is delivered from the backlog, or an empty backlog is thrown away.  What
holds of each of them holds of the whole.

Given what all hosts have broadcast, a member that has only accepted messages of theirs keeps only
such messages, and has delivered of each host what that host has broadcast first, in order
(`InOrder`).  What it has accepted it has delivered or still keeps (`Took`), and nothing that it
could deliver is left in a backlog (`Calm`).
-/

namespace Groupcast

/-! ## Histories -/

namespace History

variable {h : History} {x y : HostId} {seq k : UInt32} {m m' : Message}

/-- A host without messages needs no entry. -/
theorem messages_erase (hempty : (h.messages x).isEmpty = true) (y : HostId) :
    History.messages (h.erase x) y = h.messages y := by
  rw [History.messages, Std.ExtTreeMap.getD_erase]
  split
  · rename_i heq
    rw [← Std.compare_eq_iff_eq.mp heq]
    exact (Std.ExtTreeMap.isEmpty_iff.mp hempty).symm
  · rfl

/-- All messages are such as their host has broadcast, under the numbers that they have there. -/
def Of (h : History) (texts : HostId → List Message) : Prop :=
  ∀ (x : HostId) (seq : UInt32) (m : Message), (h.messages x)[seq]? = some m →
    m ∈ texts x ∧ m.seq = seq

variable {texts texts' : HostId → List Message}

theorem of_empty : Of ∅ texts := by
  intro x seq m hm
  rw [messages_empty, Std.ExtTreeMap.getElem?_empty] at hm
  cases hm

theorem Of.mono (hof : h.Of texts) (hgrow : ∀ x, texts x <+: texts' x) : h.Of texts' :=
  fun x seq m hm => ⟨(hgrow x).subset (hof x seq m hm).1, (hof x seq m hm).2⟩

theorem Of.add (hof : h.Of texts) (hm : m ∈ texts x) (hseq : m.seq = seq) :
    (h.add x seq m).Of texts :=
  forall_add (P := fun x seq m => m ∈ texts x ∧ m.seq = seq) hof ⟨hm, hseq⟩

end History

namespace FifoBroadcast

variable {f f' : FifoBroadcast} {x y : HostId} {k : UInt32} {m m' : Message}
  {ms out : List Message} {texts texts' : HostId → List Message}

/-! ## Single operations -/

theorem getElem?_backlog_deliverNext (f : FifoBroadcast) (x y : HostId) (m : Message)
    (k : UInt32) : ((f.deliverNext x m).backlog.messages y)[k]? =
      if x = y ∧ f.nextExpected x = k then none else (f.backlog.messages y)[k]? := by
  rw [deliverNext, History.messages_insert]
  by_cases hy : x = y
  · subst hy
    rw [if_pos rfl, Std.ExtTreeMap.getElem?_erase]
    simp only [Std.compare_eq_iff_eq, true_and]
  · rw [if_neg hy, if_neg fun h => hy h.1]

/-- What still waits has waited before, and is not what has been delivered. -/
theorem waits_of_deliverNext
    (h : ((f.deliverNext x m).backlog.messages y)[k]? = some m') :
    (f.backlog.messages y)[k]? = some m' ∧ ¬ (x = y ∧ f.nextExpected x = k) := by
  rw [getElem?_backlog_deliverNext] at h
  split at h
  · cases h
  · exact ⟨h, ‹_›⟩

theorem nextExpected_deliverNext (f : FifoBroadcast) (x y : HostId) (m : Message) :
    (f.deliverNext x m).nextExpected y =
      if x = y then f.nextExpected x + 1 else f.nextExpected y := by
  rw [deliverNext, nextExpected, Std.ExtTreeMap.getD_insert]
  simp only [Std.compare_eq_iff_eq]
  rfl

theorem mem_delivered_deliverNext {label : Label} : label ∈ (f.deliverNext x m).delivered ↔
    label = ⟨x, f.nextExpected x⟩ ∨ label ∈ f.delivered := by
  rw [deliverNext, Std.ExtTreeSet.mem_insert, Std.compare_eq_iff_eq, eq_comm]

/-- A message is accepted unless its turn is over. -/
theorem accept_cases (f : FifoBroadcast) (m : Message) :
    f.accept m = f ∧ (⟨m.sender, m.seq⟩ ∈ f.delivered ∨ m.seq < f.nextExpected m.sender) ∨
      (⟨m.sender, m.seq⟩ ∉ f.delivered ∧ ¬ m.seq < f.nextExpected m.sender) ∧
        f.accept m = { f with backlog := f.backlog.add m.sender m.seq m } := by
  unfold accept
  split
  · rename_i hold
    rw [Bool.or_eq_true, Std.ExtTreeSet.contains_iff_mem, decide_eq_true_eq] at hold
    exact Or.inl ⟨rfl, hold⟩
  · rename_i hnew
    rw [Bool.or_eq_true, not_or, Std.ExtTreeSet.contains_iff_mem, decide_eq_true_eq] at hnew
    exact Or.inr ⟨hnew, rfl⟩

/-! ## What taking in a body comes to -/

/-- A member takes in the messages `ms` and delivers the messages `out` meanwhile. -/
inductive Intake (f : FifoBroadcast) : List Message → List Message → FifoBroadcast → Prop where
  /-- Nothing has been taken in yet. -/
  | start : Intake f [] [] f
  /-- A message is accepted. -/
  | accept {ms out : List Message} {f' : FifoBroadcast} (h : Intake f ms out f') (m : Message) :
      Intake f (ms ++ [m]) out (f'.accept m)
  /-- The next message of a host is in its backlog, and is delivered. -/
  | deliver {ms out : List Message} {f' : FifoBroadcast} {x : HostId} {m : Message}
      (h : Intake f ms out f')
      (hm : (f'.backlog.messages x)[f'.nextExpected x]? = some m) :
      Intake f ms (out ++ [m]) (f'.deliverNext x m)
  /-- A backlog that has become empty is thrown away. -/
  | discard {ms out : List Message} {f' : FifoBroadcast} {x : HostId} (h : Intake f ms out f')
      (hempty : (f'.backlog.messages x).isEmpty = true) :
      Intake f ms out { f' with backlog := f'.backlog.erase x }

/-- The messages of a block that a member takes in. -/
def offeredIn (hosts : Hosts) (b : Block) : List Message :=
  if hosts.contains b.1 then b.2.filter fun m => m.sender = b.1 else []

/-- The messages that a member takes in when its broadcast has delivered a carrier. -/
def offered (hosts : Hosts) (carrier : Message) : List Message :=
  match readBody.run carrier.payload with
  | .ok (blocks, m) _ =>
    if m.sender = carrier.sender then m :: blocks.flatMap (offeredIn hosts) else []
  | .error _ _ => []

/-- Neither the broadcast below nor the numbering of the member's own messages has to do with it. -/
theorem Intake.rest_eq (h : Intake f ms out f') :
    f'.uniform = f.uniform ∧ f'.nextSeq = f.nextSeq := by
  induction h with
  | start => exact ⟨rfl, rfl⟩
  | @accept _ _ f' _ m ih =>
    rcases f'.accept_cases m with ⟨heq, -⟩ | ⟨-, heq⟩
    · rw [heq]
      exact ih
    · rw [heq]
      exact ih
  | deliver _ _ ih => exact ih
  | discard _ _ ih => exact ih

theorem Intake.foldl_accept (h : Intake f ms out f') (ms' : List Message) :
    Intake f (ms ++ ms') out (ms'.foldl FifoBroadcast.accept f') := by
  induction ms' generalizing ms f' with
  | nil => rwa [List.append_nil]
  | cons m ms' ih =>
    have hrest := ih (h.accept m)
    rwa [List.append_assoc, List.singleton_append] at hrest

theorem Intake.drainUpTo (h : Intake f ms out f') (n : Nat) (x : HostId) :
    Intake f ms (out ++ (FifoBroadcast.drainUpTo n f' x).2)
      (FifoBroadcast.drainUpTo n f' x).1 := by
  induction n generalizing out f' with
  | zero =>
    simp only [FifoBroadcast.drainUpTo, List.append_nil]
    exact h
  | succ n ih =>
    simp only [FifoBroadcast.drainUpTo]
    split
    · simp only [List.append_nil]
      exact h
    · rename_i m hm
      have hrest := ih (h.deliver hm)
      rwa [List.append_assoc, List.singleton_append] at hrest

theorem Intake.drain (h : Intake f ms out f') (x : HostId) :
    Intake f ms (out ++ (f'.drain x).2) (f'.drain x).1 := by
  have hdrained := h.drainUpTo (f'.backlog.messages x).size x
  simp only [FifoBroadcast.drain]
  split
  · rename_i hempty
    exact hdrained.discard hempty
  · exact hdrained

theorem Intake.onBlock (h : Intake f ms out f') (b : Block) :
    Intake f (ms ++ offeredIn f.uniform.group.hosts b) (out ++ (f'.onBlock b).2)
      (f'.onBlock b).1 := by
  unfold FifoBroadcast.onBlock offeredIn
  rw [h.rest_eq.1]
  split
  · exact (h.foldl_accept _).drain b.1
  · simp only [List.append_nil]
    exact h

theorem Intake.onBlocks (h : Intake f ms out f') (blocks : List Block) :
    Intake f (ms ++ blocks.flatMap (offeredIn f.uniform.group.hosts))
      (out ++ (f'.onBlocks blocks).2) (f'.onBlocks blocks).1 := by
  induction blocks generalizing ms out f' with
  | nil =>
    simp only [FifoBroadcast.onBlocks, List.flatMap_nil, List.append_nil]
    exact h
  | cons b blocks ih =>
    have hrest := ih (h.onBlock b)
    simp only [FifoBroadcast.onBlocks, List.flatMap_cons]
    rwa [List.append_assoc, List.append_assoc] at hrest

theorem intake_onBody (f : FifoBroadcast) (blocks : List Block) (m : Message) :
    Intake f (m :: blocks.flatMap (offeredIn f.uniform.group.hosts)) (f.onBody blocks m).2
      (f.onBody blocks m).1 := by
  have hcarried : Intake f _ _ _ := (Intake.start.accept m).drain m.sender
  have hall := (hcarried.onBlocks blocks).drain m.sender
  simpa only [FifoBroadcast.onBody, List.nil_append, List.singleton_append, List.append_assoc]
    using hall

/-! ## What a member keeps, and what it has delivered -/

/-- The messages of one host. -/
def ofSender (out : List Message) (x : HostId) : List Message := out.filter fun m => m.sender = x

theorem ofSender_append (out out' : List Message) (x : HostId) :
    ofSender (out ++ out') x = ofSender out x ++ ofSender out' x :=
  List.filter_append _ _

theorem ofSender_singleton (m : Message) (x : HostId) :
    ofSender [m] x = if m.sender = x then [m] else [] := by
  simp [ofSender, List.filter_cons]

theorem ofSender_concat (out : List Message) (m : Message) (x : HostId) :
    ofSender (out ++ [m]) x = if m.sender = x then ofSender out x ++ [m] else ofSender out x := by
  rw [ofSender_append, ofSender_singleton]
  split
  · rfl
  · exact List.append_nil _

/-- What has been delivered has been noted, and it does not wait any more. -/
structure Tally (f : FifoBroadcast) (out : List Message) : Prop where
  next_eq : ∀ x, f.nextExpected x = UInt32.ofNat ((ofSender out x).length + 1)
  mem_delivered : ∀ (x : HostId) (seq : UInt32),
    ⟨x, seq⟩ ∈ f.delivered ↔ ∃ m ∈ ofSender out x, m.seq = seq
  not_mem_delivered : ∀ (x : HostId) (seq : UInt32) (m : Message),
    (f.backlog.messages x)[seq]? = some m → ⟨x, seq⟩ ∉ f.delivered

namespace Tally

/-- Nothing has happened. -/
theorem ofHosts (id : HostId) (hosts : Hosts) (tuning : Tuning) :
    (FifoBroadcast.ofHosts id hosts tuning).Tally [] where
  next_eq _ := Std.ExtTreeMap.getD_empty
  mem_delivered x seq := by
    simp [FifoBroadcast.ofHosts, ofSender]
  not_mem_delivered _ _ _ _ := Std.ExtTreeSet.not_mem_empty

theorem accept (h : f.Tally out) (m : Message) : (f.accept m).Tally out := by
  rcases f.accept_cases m with ⟨heq, -⟩ | ⟨hnew, heq⟩
  · rw [heq]
    exact h
  · rw [heq]
    exact ⟨h.next_eq, h.mem_delivered,
      History.forall_add (P := fun x seq _ => ⟨x, seq⟩ ∉ f.delivered) h.not_mem_delivered hnew.1⟩

theorem deliverNext (h : f.Tally out) (hseq : m.seq = f.nextExpected m.sender) :
    (f.deliverNext m.sender m).Tally (out ++ [m]) := by
  refine ⟨fun y => ?_, fun y k => ?_, fun y k m' hm' => ?_⟩
  · rw [nextExpected_deliverNext, ofSender_concat]
    by_cases hy : m.sender = y
    · subst hy
      rw [if_pos rfl, if_pos rfl, h.next_eq, List.length_append, List.length_singleton]
      exact (UInt32.ofNat_add _ _).symm
    · rw [if_neg hy, if_neg hy, h.next_eq]
  · rw [mem_delivered_deliverNext, h.mem_delivered, ofSender_concat]
    by_cases hy : m.sender = y
    · subst hy
      simp [hseq, or_comm, eq_comm]
    · simp [hy, Ne.symm hy]
  · obtain ⟨hm', hne⟩ := waits_of_deliverNext hm'
    rw [mem_delivered_deliverNext, not_or]
    refine ⟨fun heq => hne ?_, h.not_mem_delivered y k m' hm'⟩
    obtain ⟨rfl, rfl⟩ := Label.mk.inj heq
    exact ⟨rfl, rfl⟩

theorem discard (h : f.Tally out) (hempty : (f.backlog.messages x).isEmpty = true) :
    Tally { f with backlog := f.backlog.erase x } out where
  next_eq := h.next_eq
  mem_delivered := h.mem_delivered
  not_mem_delivered y seq m hm :=
    h.not_mem_delivered y seq m (by rwa [History.messages_erase hempty] at hm)

end Tally

/-- Every host numbers its messages by one, two, three, and so on. -/
def Numbered (texts : HostId → List Message) : Prop :=
  ∀ (x : HostId) (i : Nat) (m : Message), (texts x)[i]? = some m →
    m.sender = x ∧ m.seq.toNat = i + 1

/-- What a member keeps has been broadcast, and what it has delivered of a host is what that host
has broadcast first. -/
structure InOrder (f : FifoBroadcast) (texts : HostId → List Message) (out : List Message) :
    Prop where
  history : f.history.Of texts
  backlog : f.backlog.Of texts
  starts : ∀ x, ofSender out x <+: texts x
  next_eq : ∀ x, f.nextExpected x = UInt32.ofNat ((ofSender out x).length + 1)
  mem_delivered : ∀ (x : HostId) (seq : UInt32),
    ⟨x, seq⟩ ∈ f.delivered ↔ ∃ m ∈ ofSender out x, m.seq = seq
  not_mem_delivered : ∀ (x : HostId) (seq : UInt32) (m : Message),
    (f.backlog.messages x)[seq]? = some m → ⟨x, seq⟩ ∉ f.delivered

theorem Numbered.sender_eq (hnumbered : Numbered texts) (hm : m ∈ texts x) : m.sender = x := by
  obtain ⟨i, hi⟩ := List.mem_iff_getElem?.mp hm
  exact (hnumbered x i m hi).1

/-- The last number is a word, and so there are no more messages of a host than that. -/
theorem Numbered.length_lt (hnumbered : Numbered texts) (x : HostId) :
    (texts x).length < UInt32.size := by
  cases hlength : (texts x).length with
  | zero => decide
  | succ n =>
    have hlast : n < (texts x).length := by omega
    have hnumber := (hnumbered x n _ (List.getElem?_eq_getElem hlast)).2
    have hfits := UInt32.toNat_lt_size (texts x)[n].seq
    omega

namespace InOrder

theorem tally (h : f.InOrder texts out) : f.Tally out :=
  ⟨h.next_eq, h.mem_delivered, h.not_mem_delivered⟩

/-- Nothing has happened. -/
theorem ofHosts (id : HostId) (hosts : Hosts) (tuning : Tuning) :
    (FifoBroadcast.ofHosts id hosts tuning).InOrder texts [] :=
  have htally := Tally.ofHosts id hosts tuning
  ⟨History.of_empty, History.of_empty, fun _ => List.nil_prefix, htally.next_eq,
    htally.mem_delivered, htally.not_mem_delivered⟩

/-- Others go on broadcasting. -/
theorem mono (h : f.InOrder texts out) (hgrow : ∀ x, texts x <+: texts' x) :
    f.InOrder texts' out where
  history := h.history.mono hgrow
  backlog := h.backlog.mono hgrow
  starts x := (h.starts x).trans (hgrow x)
  next_eq := h.next_eq
  mem_delivered := h.mem_delivered
  not_mem_delivered := h.not_mem_delivered

theorem accept (h : f.InOrder texts out) (hm : m ∈ texts m.sender) :
    (f.accept m).InOrder texts out := by
  have htally := h.tally.accept m
  rcases f.accept_cases m with ⟨heq, -⟩ | ⟨-, heq⟩
  · rw [heq]
    exact h
  · rw [heq] at htally ⊢
    exact ⟨h.history, h.backlog.add hm rfl, h.starts, htally.next_eq, htally.mem_delivered,
      htally.not_mem_delivered⟩

/-- The message whose turn it is comes right after those that have been delivered. -/
theorem getElem?_of_next (h : f.InOrder texts out) (hnumbered : Numbered texts)
    (hm : (f.backlog.messages x)[f.nextExpected x]? = some m) :
    (texts x)[(ofSender out x).length]? = some m := by
  obtain ⟨hmem, hseq⟩ := h.backlog x _ m hm
  obtain ⟨i, hi⟩ := List.mem_iff_getElem?.mp hmem
  have hnumber := (hnumbered x i m hi).2
  rw [hseq, h.next_eq, UInt32.toNat_ofNat'] at hnumber
  have hle := (h.starts x).length_le
  have hlt := hnumbered.length_lt x
  -- The number after the last one there could be is zero, and no message has that.
  have hindex : (ofSender out x).length = i := by
    have hsize : UInt32.size = 2 ^ 32 := rfl
    omega
  rw [hindex]
  exact hi

theorem deliverNext (h : f.InOrder texts out) (hnumbered : Numbered texts)
    (hm : (f.backlog.messages x)[f.nextExpected x]? = some m) :
    (f.deliverNext x m).InOrder texts (out ++ [m]) := by
  obtain ⟨hmem, hseq⟩ := h.backlog x _ m hm
  obtain rfl := hnumbered.sender_eq hmem
  have htally := h.tally.deliverNext hseq
  refine ⟨h.history.add hmem hseq, fun y k m' hm' => ?_, fun y => ?_, htally.next_eq,
    htally.mem_delivered, htally.not_mem_delivered⟩
  · exact h.backlog y k m' (waits_of_deliverNext hm').1
  · rw [ofSender_concat]
    split
    · rename_i hy
      subst hy
      have hnext := h.getElem?_of_next hnumbered hm
      have htake : ofSender out m.sender ++ [m] =
          (texts m.sender).take ((ofSender out m.sender).length + 1) := by
        rw [List.take_add_one, hnext, ← List.prefix_iff_eq_take.mp (h.starts m.sender)]
        rfl
      rw [htake]
      exact List.take_prefix _ _
    · exact h.starts y

theorem discard (h : f.InOrder texts out) (hempty : (f.backlog.messages x).isEmpty = true) :
    InOrder { f with backlog := f.backlog.erase x } texts out :=
  have htally := h.tally.discard hempty
  ⟨h.history, fun y seq m hm => h.backlog y seq m (by rwa [History.messages_erase hempty] at hm),
    h.starts, htally.next_eq, htally.mem_delivered, htally.not_mem_delivered⟩

/-- **A member that takes in nothing but what has been broadcast delivers in order.** -/
theorem intake {out' : List Message} (h : f.InOrder texts out) (hnumbered : Numbered texts)
    (hintake : Intake f ms out' f') (hms : ∀ m ∈ ms, m ∈ texts m.sender) :
    f'.InOrder texts (out ++ out') := by
  induction hintake with
  | start =>
    rw [List.append_nil]
    exact h
  | accept _ m ih =>
    have hms := List.forall_mem_append.mp hms
    exact (ih hms.1).accept (hms.2 m (List.mem_singleton_self m))
  | deliver _ hm ih =>
    rw [← List.append_assoc]
    exact (ih hms).deliverNext hnumbered hm
  | discard _ hempty ih => exact (ih hms).discard hempty

/-- The broadcast below goes on. -/
theorem of_uniform (h : f.InOrder texts out) (u : UniformBroadcast) :
    InOrder { f with uniform := u } texts out :=
  ⟨h.history, h.backlog, h.starts, h.next_eq, h.mem_delivered, h.not_mem_delivered⟩

/-- The member broadcasts a message itself. -/
theorem issue {seq : UInt32} (h : f.InOrder texts out) (hm : m ∈ texts x) (hseq : m.seq = seq)
    (u : UniformBroadcast) (n : UInt32) :
    InOrder { f with uniform := u, nextSeq := n, history := f.history.add x seq m } texts out :=
  ⟨h.history.add hm hseq, h.backlog, h.starts, h.next_eq, h.mem_delivered,
    h.not_mem_delivered⟩

end InOrder

/-! ## A step of a member -/

/-- The message that stands for a payload. -/
def text (f : FifoBroadcast) (payload : Bytes) : Message := .ofData f.self f.nextSeq payload

/-- The message that carries it. -/
def carrier (f : FifoBroadcast) (payload : Bytes) : Message :=
  .ofData f.self f.nextSeq (body f.history (f.text payload))

/-- Takes in what a carrier that the broadcast below has delivered holds. -/
def onCarrier (f : FifoBroadcast) (carrier : Message) : FifoBroadcast × List Message :=
  match readBody.run carrier.payload with
  | .ok (blocks, m) _ => if m.sender = carrier.sender then f.onBody blocks m else (f, [])
  | .error _ _ => (f, [])

theorem intake_onCarrier (f : FifoBroadcast) (carrier : Message) :
    Intake f (offered f.uniform.group.hosts carrier) (f.onCarrier carrier).2
      (f.onCarrier carrier).1 := by
  unfold onCarrier offered
  split
  · split
    · exact f.intake_onBody _ _
    · exact .start
  · exact .start

section

variable {sender : HostId} {now : Nat}

theorem deliver_of_result_eq_none (h : (f.uniform.deliver sender m now).result = none) :
    f.deliver sender m now = ⟨{ f with uniform := (f.uniform.deliver sender m now).state },
      (f.uniform.deliver sender m now).sent, []⟩ := by
  simp only [deliver, h]

theorem deliver_of_result_eq_some {carrier : Message}
    (h : (f.uniform.deliver sender m now).result = some carrier) :
    f.deliver sender m now =
      let (f', out) :=
        onCarrier { f with uniform := (f.uniform.deliver sender m now).state } carrier
      ⟨f', (f.uniform.deliver sender m now).sent, out⟩ := by
  simp only [deliver, onCarrier, h]
  split
  · rename_i hread
    rw [hread]
  · rename_i blocks carried rest hread
    rw [hread]
    by_cases hsender : carried.sender = carrier.sender
    · simp only [hsender, ne_eq, not_true_eq_false, if_false, if_true]
    · simp only [hsender, ne_eq, not_false_eq_true, if_false, if_true]

/-- Taking in a message of a member is handing it to the broadcast below, and taking in what that
delivers. -/
theorem intake_deliver (f : FifoBroadcast) (sender : HostId) (m : Message) (now : Nat) :
    Intake { f with uniform := (f.uniform.deliver sender m now).state }
      ((f.uniform.deliver sender m now).result.toList.flatMap
        (offered (f.uniform.deliver sender m now).state.group.hosts))
      (f.deliver sender m now).result (f.deliver sender m now).state := by
  cases hresult : (f.uniform.deliver sender m now).result with
  | none =>
    rw [deliver_of_result_eq_none hresult]
    exact .start
  | some carrier =>
    rw [deliver_of_result_eq_some hresult, Option.toList_some, List.flatMap_singleton]
    exact intake_onCarrier _ carrier

theorem uniform_deliver (f : FifoBroadcast) (sender : HostId) (m : Message) (now : Nat) :
    (f.deliver sender m now).state.uniform = (f.uniform.deliver sender m now).state ∧
      (f.deliver sender m now).sent = (f.uniform.deliver sender m now).sent := by
  refine ⟨(f.intake_deliver sender m now).rest_eq.1, ?_⟩
  cases hresult : (f.uniform.deliver sender m now).result with
  | none => rw [deliver_of_result_eq_none hresult]
  | some carrier => rw [deliver_of_result_eq_some hresult]

end

end FifoBroadcast

instance : Relaying FifoBroadcast where
  ofHosts := .ofHosts
  uniform := FifoBroadcast.uniform
  draft := FifoBroadcast.carrier
  uniform_ofHosts _ _ _ := rfl
  onCommand_eq _ _ _ := ⟨_, rfl, rfl, rfl⟩
  onMessage_eq f sender m now := f.uniform_deliver sender m now
  onTimeout_eq _ _ := ⟨rfl, rfl⟩
  uniform_stop _ := rfl

namespace Node.Stimulus

open FifoBroadcast

/-- The payload that a step broadcasts, with the number that is returned for it. -/
def issue? (st : Stimulus FifoBroadcast) (f : FifoBroadcast) (now : Nat) :
    Option (UInt32 × Bytes) :=
  match st with
  | command payload => some ((f.broadcast payload now).result, payload)
  | none | stop | timeout | message _ => Option.none

/-- The messages that a step delivers in order. -/
def ordered (st : Stimulus FifoBroadcast) (f : FifoBroadcast) (now : Nat) : List Message :=
  match st with
  | message m => (f.deliver m.sender m now).result
  | none | stop | timeout | command _ => []

/-- What a step of a member comes to for the order of messages. -/
inductive Course (st : Stimulus FifoBroadcast) (f : FifoBroadcast) (now : Nat)
    (f' : FifoBroadcast) : Prop where
  /-- A payload is broadcast. -/
  | issue {payload : Bytes} (hissue : st.issue? f now = some (f.nextSeq, payload))
      (hbroadcast : st.broadcast? f = some (f.uniform.stamp (f.carrier payload)))
      (hdeliver : st.deliver? f now = Option.none) (hordered : st.ordered f now = [])
      (hstate : f' = { f with
        uniform := f'.uniform
        nextSeq := f.nextSeq + 1
        history := f.history.add f.self f.nextSeq (f.text payload) })
  /-- What the broadcast below delivers is taken in, if there is anything. -/
  | intake (hissue : st.issue? f now = Option.none) (hbroadcast : st.broadcast? f = Option.none)
      (hintake : Intake { f with uniform := f'.uniform }
        ((st.deliver? f now).toList.flatMap (offered f'.uniform.group.hosts))
        (st.ordered f now) f')

/-- **A step of a member broadcasts a payload, or takes in what its broadcast delivers.** -/
theorem course_apply (st : Stimulus FifoBroadcast) (f : FifoBroadcast) (now : Nat) :
    st.Course f now (st.apply f now).1 := by
  cases st with
  | none | stop | timeout => exact .intake rfl rfl .start
  | command payload => exact .issue rfl rfl rfl rfl rfl
  | message m =>
    have hintake := f.intake_deliver m.sender m now
    rw [← (f.uniform_deliver m.sender m now).1] at hintake
    exact .intake rfl rfl hintake

end Node.Stimulus

end Groupcast
