import Groupcast.Proofs.Broadcast.Fifo

/-!
# What waits in a backlog

What a member has taken in it has delivered, or it waits in a backlog (`Took`); and all that it has
delivered or that waits has been taken in (`Intake.stems`).  After every step the backlogs are
`Calm`: no message waits whose turn has come, and no backlog is kept that is empty.

A member that has taken in all of the first messages of a host has therefore delivered them
(`InOrder.le_length_of_took`), in whatever order it has taken them in.
-/

namespace Groupcast

namespace FifoBroadcast

variable {f f' : FifoBroadcast} {x y : HostId} {m m' : Message} {ms out : List Message}
  {texts : HostId → List Message}

/-! ## What has been taken in -/

/-- A message has been delivered, or one of its number waits. -/
def Took (f : FifoBroadcast) (m : Message) : Prop :=
  ⟨m.sender, m.seq⟩ ∈ f.delivered ∨ ∃ m', (f.backlog.messages m.sender)[m.seq]? = some m'

namespace InOrder

/-- The first messages of a host have been delivered. -/
theorem mem_ofSender_of_lt {i : Nat} (h : f.InOrder texts out) (hi : (texts x)[i]? = some m)
    (hlt : i < (ofSender out x).length) : m ∈ ofSender out x := by
  obtain ⟨others, hothers⟩ := h.starts x
  rw [← hothers, List.getElem?_append_left hlt] at hi
  exact List.mem_of_getElem? hi

/-- No others have. -/
theorem seq_le_length (h : f.InOrder texts out) (hnumbered : Numbered texts)
    (hm : m ∈ ofSender out x) : m.seq.toNat ≤ (ofSender out x).length := by
  obtain ⟨i, hi⟩ := List.mem_iff_getElem?.mp hm
  have hlt : i < (ofSender out x).length := (List.getElem?_eq_some_iff.mp hi).1
  obtain ⟨others, hothers⟩ := h.starts x
  rw [(hnumbered x i m (by rw [← hothers, List.getElem?_append_left hlt, hi])).2]
  exact hlt

/-- A message whose turn is over has been delivered. -/
theorem mem_delivered_of_lt (h : f.InOrder texts out) (hnumbered : Numbered texts)
    (hm : m ∈ texts m.sender) (hlt : m.seq < f.nextExpected m.sender) :
    ⟨m.sender, m.seq⟩ ∈ f.delivered := by
  obtain ⟨i, hi⟩ := List.mem_iff_getElem?.mp hm
  have hnumber := (hnumbered m.sender i m hi).2
  rw [UInt32.lt_iff_toNat_lt, h.next_eq, UInt32.toNat_ofNat'] at hlt
  have hle := Nat.mod_le ((ofSender out m.sender).length + 1) (2 ^ 32)
  exact (h.mem_delivered _ _).mpr ⟨m, h.mem_ofSender_of_lt hi (by omega), rfl⟩

end InOrder

theorem Took.accept (h : f.Took m) (m' : Message) : (f.accept m').Took m := by
  rcases f.accept_cases m' with ⟨heq, -⟩ | ⟨-, heq⟩
  · rwa [heq]
  · rw [heq]
    refine h.imp_right fun ⟨w, hw⟩ => ?_
    simp only [History.getElem?_add]
    split
    · exact ⟨m', rfl⟩
    · exact ⟨w, hw⟩

/-- What is accepted has been taken in. -/
theorem InOrder.took_accept (h : f.InOrder texts out) (hnumbered : Numbered texts)
    (hm : m ∈ texts m.sender) : (f.accept m).Took m := by
  rcases f.accept_cases m with ⟨heq, hdelivered | hlt⟩ | ⟨-, heq⟩
  · rw [heq]
    exact Or.inl hdelivered
  · rw [heq]
    exact Or.inl (h.mem_delivered_of_lt hnumbered hm hlt)
  · rw [heq]
    exact Or.inr ⟨m, by rw [History.getElem?_add, if_pos ⟨rfl, rfl⟩]⟩

theorem Took.deliverNext (h : f.Took m) (x : HostId) (m' : Message) :
    (f.deliverNext x m').Took m := by
  unfold Took
  rw [mem_delivered_deliverNext, getElem?_backlog_deliverNext]
  by_cases hnext : x = m.sender ∧ f.nextExpected x = m.seq
  · obtain ⟨rfl, hseq⟩ := hnext
    exact Or.inl (Or.inl (by rw [hseq]))
  · rw [if_neg hnext]
    exact h.imp_left Or.inr

theorem Took.discard (h : f.Took m) (hempty : (f.backlog.messages x).isEmpty = true) :
    Took { f with backlog := f.backlog.erase x } m := by
  unfold Took
  rw [History.messages_erase hempty]
  exact h

/-- **What a member takes in stays with it until it is delivered.** -/
theorem InOrder.took_intake (h : f.InOrder texts out) (hnumbered : Numbered texts)
    {out' : List Message} (hintake : Intake f ms out' f') (hms : ∀ m ∈ ms, m ∈ texts m.sender)
    (hm : f.Took m ∨ m ∈ ms) : f'.Took m := by
  induction hintake with
  | start => exact hm.resolve_right List.not_mem_nil
  | @accept ms _ f' hintake m' ih =>
    have hms := List.forall_mem_append.mp hms
    have hbefore := h.intake hnumbered hintake hms.1
    rcases hm with hm | hm
    · exact (ih hms.1 (Or.inl hm)).accept m'
    · rcases List.mem_append.mp hm with hold | hnew
      · exact (ih hms.1 (Or.inr hold)).accept m'
      · rw [List.mem_singleton.mp hnew]
        exact hbefore.took_accept hnumbered (hms.2 m' (List.mem_singleton_self m'))
  | deliver _ _ ih => exact (ih hms hm).deliverNext _ _
  | discard _ hempty ih => exact (ih hms hm).discard hempty

/-! ## Where it comes from -/

/-- All that waits is of some kind. -/
def Waits (f : FifoBroadcast) (P : Message → Prop) : Prop :=
  ∀ (x : HostId) (k : UInt32) (m : Message), (f.backlog.messages x)[k]? = some m → P m

/-- **All that is delivered, and all that waits, has been taken in.** -/
theorem Intake.stems {P : Message → Prop} (h : Intake f ms out f') (hwaits : f.Waits P)
    (hms : ∀ m ∈ ms, P m) : f'.Waits P ∧ ∀ m ∈ out, P m := by
  induction h with
  | start => exact ⟨hwaits, nofun⟩
  | @accept ms _ f' _ m ih =>
    have hms := List.forall_mem_append.mp hms
    obtain ⟨hbefore, hout⟩ := ih hms.1
    refine ⟨fun x k m' hm' => ?_, hout⟩
    rcases f'.accept_cases m with ⟨heq, -⟩ | ⟨-, heq⟩
    · rw [heq] at hm'
      exact hbefore x k m' hm'
    · rw [heq] at hm'
      exact History.forall_add (P := fun _ _ => P) hbefore (hms.2 m (List.mem_singleton_self m))
        x k m' hm'
  | @deliver _ _ f' x m _ hm ih =>
    obtain ⟨hbefore, hout⟩ := ih hms
    refine ⟨fun y k m' hm' => hbefore y k m' (waits_of_deliverNext hm').1,
      List.forall_mem_append.mpr ⟨hout, ?_⟩⟩
    rintro m' hm'
    rw [List.mem_singleton.mp hm']
    exact hbefore x _ m hm
  | discard _ hempty ih =>
    obtain ⟨hbefore, hout⟩ := ih hms
    refine ⟨fun y k m' hm' => hbefore y k m' ?_, hout⟩
    rwa [History.messages_erase hempty] at hm'

/-! ## Nothing is left that could be delivered -/

/-- No message of a host waits whose turn has come, and no empty backlog is kept. -/
structure Calm (f : FifoBroadcast) (x : HostId) : Prop where
  next_eq_none : (f.backlog.messages x)[f.nextExpected x]? = none
  isEmpty_eq_false : x ∈ f.backlog → (f.backlog.messages x).isEmpty = false

/-- Nothing has happened to the backlog of a host. -/
def AgreesAt (y : HostId) (f f' : FifoBroadcast) : Prop :=
  f'.backlog[y]? = f.backlog[y]? ∧ f'.nextExpected y = f.nextExpected y

theorem Calm.of_agreesAt (h : f.Calm y) (hagrees : AgreesAt y f f') : f'.Calm y := by
  obtain ⟨hbacklog, hnext⟩ := hagrees
  have hmessages : f'.backlog.messages y = f.backlog.messages y := by
    rw [History.messages, History.messages, Std.ExtTreeMap.getD_eq_getD_getElem?, hbacklog,
      Std.ExtTreeMap.getD_eq_getD_getElem?]
  constructor
  · rw [hmessages, hnext]
    exact h.next_eq_none
  · rw [hmessages, Std.ExtTreeMap.mem_iff_isSome_getElem?, hbacklog,
      ← Std.ExtTreeMap.mem_iff_isSome_getElem?]
    exact h.isEmpty_eq_false

theorem agreesAt_accept (hy : m.sender ≠ y) : AgreesAt y f (f.accept m) := by
  rcases f.accept_cases m with ⟨heq, -⟩ | ⟨-, heq⟩
  · rw [heq]
    exact ⟨rfl, rfl⟩
  · rw [heq]
    refine ⟨?_, rfl⟩
    rw [History.add, Std.ExtTreeMap.getElem?_insert, if_neg]
    rwa [Std.compare_eq_iff_eq]

theorem agreesAt_deliverNext (hy : x ≠ y) : AgreesAt y f (f.deliverNext x m) := by
  refine ⟨?_, ?_⟩
  · rw [deliverNext, Std.ExtTreeMap.getElem?_insert, if_neg]
    rwa [Std.compare_eq_iff_eq]
  · rw [nextExpected_deliverNext, if_neg hy]

theorem agreesAt_foldl_accept (hms : ∀ m ∈ ms, m.sender ≠ y) :
    AgreesAt y f (ms.foldl accept f) := by
  induction ms generalizing f with
  | nil => exact ⟨rfl, rfl⟩
  | cons m ms ih =>
    obtain ⟨hm, hms⟩ := List.forall_mem_cons.mp hms
    obtain ⟨hbacklog, hnext⟩ := agreesAt_accept (f := f) hm
    obtain ⟨hbacklog', hnext'⟩ := ih (f := f.accept m) hms
    exact ⟨hbacklog'.trans hbacklog, hnext'.trans hnext⟩

theorem AgreesAt.trans {f'' : FifoBroadcast} (h : AgreesAt y f f') (h' : AgreesAt y f' f'') :
    AgreesAt y f f'' := ⟨h'.1.trans h.1, h'.2.trans h.2⟩

theorem agreesAt_drainUpTo (hy : x ≠ y) (n : Nat) : AgreesAt y f (f.drainUpTo n x).1 := by
  induction n generalizing f with
  | zero => exact ⟨rfl, rfl⟩
  | succ n ih =>
    rw [drainUpTo]
    split
    · exact ⟨rfl, rfl⟩
    · exact (agreesAt_deliverNext hy).trans ih

theorem agreesAt_drain (hy : x ≠ y) : AgreesAt y f (f.drain x).1 := by
  have hdrained := agreesAt_drainUpTo (f := f) hy (f.backlog.messages x).size
  rw [drain]
  dsimp only
  split
  · refine hdrained.trans ⟨?_, rfl⟩
    rw [Std.ExtTreeMap.getElem?_erase, if_neg]
    rwa [Std.compare_eq_iff_eq]
  · exact hdrained

/-- Every delivery takes a message from the backlog, so that there is an end to it. -/
theorem next_drainUpTo {n : Nat} (hsize : (f.backlog.messages x).size ≤ n) :
    ((f.drainUpTo n x).1.backlog.messages x)[(f.drainUpTo n x).1.nextExpected x]? = none := by
  induction n generalizing f with
  | zero =>
    have hempty : f.backlog.messages x = ∅ :=
      Std.ExtTreeMap.eq_empty_iff_size_eq_zero.mpr (Nat.le_zero.mp hsize)
    simp only [drainUpTo]
    rw [hempty, Std.ExtTreeMap.getElem?_empty]
  | succ n ih =>
    simp only [drainUpTo]
    split
    · assumption
    · rename_i m hm
      refine ih ?_
      have hshrinks := Tables.size_erase_of_getElem? hm
      rw [deliverNext, History.messages_insert, if_pos rfl]
      omega

/-- A drained backlog is calm. -/
theorem calm_drain (f : FifoBroadcast) (x : HostId) : (f.drain x).1.Calm x := by
  have hnext := next_drainUpTo (f := f) (Nat.le_refl (f.backlog.messages x).size)
  rw [drain]
  dsimp only
  split
  · rename_i hempty
    refine ⟨?_, fun hmem => ?_⟩
    · rw [History.messages_erase hempty]
      exact hnext
    · rw [Std.ExtTreeMap.mem_erase] at hmem
      exact absurd Std.compare_self hmem.1
  · rename_i hfull
    exact ⟨hnext, fun _ => by simpa using hfull⟩

theorem Calm.drain (h : ∀ y, y ≠ x → f.Calm y) (y : HostId) : (f.drain x).1.Calm y := by
  by_cases hy : x = y
  · subst hy
    exact f.calm_drain x
  · exact (h y (Ne.symm hy)).of_agreesAt (agreesAt_drain hy)

theorem Calm.onBlock (h : ∀ y, f.Calm y) (b : Block) (y : HostId) : (f.onBlock b).1.Calm y := by
  unfold FifoBroadcast.onBlock
  split
  · refine Calm.drain (fun z hz => (h z).of_agreesAt (agreesAt_foldl_accept fun m hm => ?_)) y
    rw [of_decide_eq_true (List.mem_filter.mp hm).2]
    exact Ne.symm hz
  · exact h y

theorem Calm.onBlocks (h : ∀ y, f.Calm y) (blocks : List Block) (y : HostId) :
    (f.onBlocks blocks).1.Calm y := by
  induction blocks generalizing f with
  | nil => exact h y
  | cons b blocks ih => exact ih (Calm.onBlock h b)

theorem Calm.onBody (h : ∀ y, f.Calm y) (blocks : List Block) (m : Message) (y : HostId) :
    (f.onBody blocks m).1.Calm y := by
  have hcarried : ∀ z, ((f.accept m).drain m.sender).1.Calm z :=
    Calm.drain fun z hz => (h z).of_agreesAt (agreesAt_accept (Ne.symm hz))
  exact Calm.drain (fun z _ => Calm.onBlocks hcarried blocks z) y

theorem Calm.onCarrier (h : ∀ y, f.Calm y) (carrier : Message) (y : HostId) :
    (f.onCarrier carrier).1.Calm y := by
  unfold FifoBroadcast.onCarrier
  split
  · split
    · exact Calm.onBody h _ _ y
    · exact h y
  · exact h y

/-- The broadcast below goes on, or the member broadcasts a message itself. -/
theorem Calm.congr (h : f.Calm y) (u : UniformBroadcast) (n : UInt32) (history : History) :
    Calm { f with uniform := u, nextSeq := n, history := history } y :=
  ⟨h.next_eq_none, h.isEmpty_eq_false⟩

theorem Calm.deliver (h : ∀ y, f.Calm y) (sender : HostId) (m : Message) (now : Nat)
    (y : HostId) : (f.deliver sender m now).state.Calm y := by
  cases hresult : (f.uniform.deliver sender m now).result with
  | none =>
    rw [deliver_of_result_eq_none hresult]
    exact (h y).congr _ _ _
  | some carrier =>
    rw [deliver_of_result_eq_some hresult]
    exact Calm.onCarrier (fun z => (h z).congr _ _ _) carrier y

theorem calm_ofHosts (id : HostId) (hosts : Hosts) (tuning : Tuning) (x : HostId) :
    (FifoBroadcast.ofHosts id hosts tuning).Calm x := by
  refine ⟨?_, fun hmem => absurd hmem Std.ExtTreeMap.not_mem_empty⟩
  show (History.messages ∅ x)[_]? = none
  rw [History.messages_empty, Std.ExtTreeMap.getElem?_empty]

/-- **Backlogs are calm after every step.** -/
theorem calm_apply (st : Node.Stimulus FifoBroadcast) (h : ∀ y, f.Calm y) (now : Nat)
    (x : HostId) : (st.apply f now).1.Calm x := by
  cases st with
  | none => exact h x
  | stop | timeout => exact (h x).congr _ _ _
  | command payload => exact (h x).congr _ _ _
  | message m => exact Calm.deliver h m.sender m now x

/-! ## No gap is left -/

namespace InOrder

/-- **A member has delivered the first messages of a host if it has taken all of them in.** -/
theorem le_length_of_took {n : Nat} (h : f.InOrder texts out) (hnumbered : Numbered texts)
    (hcalm : f.Calm x) (hn : n ≤ (texts x).length) (htook : ∀ m ∈ (texts x).take n, f.Took m) :
    n ≤ (ofSender out x).length := by
  refine Nat.le_of_not_lt fun hlt => ?_
  -- The first message that has not been delivered has been taken in, but its turn has come.
  have hindex : (ofSender out x).length < (texts x).length := by omega
  have hm := List.getElem?_eq_getElem hindex
  obtain ⟨hsender, hseq⟩ := hnumbered x _ _ hm
  have hmem : (texts x)[(ofSender out x).length] ∈ (texts x).take n := by
    refine List.mem_of_getElem? (i := (ofSender out x).length) ?_
    rw [List.getElem?_take_of_lt (by omega), hm]
  rcases htook _ hmem with hdelivered | ⟨m', hwaits⟩
  · rw [hsender] at hdelivered
    obtain ⟨m', hm', heq⟩ := (h.mem_delivered _ _).mp hdelivered
    have hle := h.seq_le_length hnumbered hm'
    rw [heq] at hle
    omega
  · have hnext : (texts x)[(ofSender out x).length].seq = f.nextExpected x := by
      rw [h.next_eq, ← hseq, UInt32.ofNat_toNat]
    rw [hsender, hnext, hcalm.next_eq_none] at hwaits
    cases hwaits

/-- A member that has delivered all messages has no backlog. -/
theorem backlog_eq_empty (h : f.InOrder texts out) (hcalm : ∀ x, f.Calm x)
    (hall : ∀ x, ofSender out x = texts x) : f.backlog = ∅ := by
  refine Std.ExtTreeMap.eq_empty_iff_forall_not_mem.mpr fun x hmem => ?_
  have hmessages : f.backlog.messages x = ∅ := by
    refine Std.ExtTreeMap.eq_empty_iff_forall_not_mem.mpr fun k hk => ?_
    obtain ⟨m, hm⟩ := Option.isSome_iff_exists.mp (Std.ExtTreeMap.mem_iff_isSome_getElem?.mp hk)
    obtain ⟨htext, hseq⟩ := h.backlog x k m hm
    refine h.not_mem_delivered x k m hm ((h.mem_delivered x k).mpr ⟨m, ?_, hseq⟩)
    rw [hall x]
    exact htext
  exact Std.ExtTreeMap.isEmpty_eq_false_iff.mp ((hcalm x).isEmpty_eq_false hmem) hmessages

end InOrder

end FifoBroadcast

end Groupcast
