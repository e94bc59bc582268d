import Groupcast.Proofs.Agreement.Slot

/-!
# Slots that wait for ever

Once all members of a group have replied to the current round of a slot, no further reply counts, so
a slot that still collects replies then waits for ever (`SlotView.Stuck`).  This happens, but in one
way only: an acceptance is held against the number of acceptances alone, so a slot is left waiting
by as many refusals as acceptances, all refusals first (`stuck_iff_tied`).  In a group of an odd
number of members it cannot happen, and in every group of an even number it can.
-/

namespace Groupcast.SlotView

/-- What a slot has gone through in a group, and the rounds whose proposals it has given out.
Members reply in any order and in any way, but only to those rounds. -/
inductive Run (members : List HostId) (slot : Slot) : SlotView → List UInt32 → Prop where
  | start : Run members slot (ofSlot slot) []
  | propose {s s' : SlotView} {p : Proposal} {rounds : List UInt32} (values : ValueSet)
      (h : Run members slot s rounds) (hs : s.propose values = (s', .ok p)) :
      Run members slot s' (p.round :: rounds)
  | proposal {s : SlotView} {rounds : List UInt32} (p : Proposal) (h : Run members slot s rounds) :
      Run members slot (s.onProposal p).1 rounds
  | ack {s : SlotView} {rounds : List UInt32} {id : HostId} {round : UInt32}
      (h : Run members slot s rounds) (hid : id ∈ members) (hround : round ∈ rounds) :
      Run members slot (s.onAck id round (quorum members.length)).1 rounds
  | nack {s : SlotView} {rounds : List UInt32} {id : HostId} {round : UInt32} (values : ValueSet)
      (h : Run members slot s rounds) (hid : id ∈ members) (hround : round ∈ rounds) :
      Run members slot (s.onNack id round values (quorum members.length)).1
        (((s.onNack id round values (quorum members.length)).2.map Proposal.round).toList ++ rounds)

/-- The slot collects replies although all members have replied to its current round. -/
def Stuck (s : SlotView) (members : List HostId) : Prop :=
  s.isActive = true ∧ ∀ id ∈ members, id ∈ s.responded

/-- What the counts of replies say at all times. -/
structure Tally (members : List HostId) (s : SlotView) (rounds : List UInt32) : Prop where
  mem_of_responded : ∀ id ∈ s.responded, id ∈ members
  size_responded : s.responded.size = s.acks + s.nacks
  idle : s.isIdle = true → rounds = [] ∧ s.acks = 0 ∧ s.nacks = 0
  acks_lt : s.isActive = true → s.acks < quorum members.length
  nacks_lt : s.isActive = true → s.nacks < quorum members.length

variable {members : List HostId} {slot : Slot} {s : SlotView} {rounds : List UInt32} {id : HostId}
  {round : UInt32}

/-! ## The counts of a run -/

/-- Beginning a round clears the counts. -/
theorem tally_nextRound (hactive : s.isActive = true) : s.nextRound.Tally members rounds where
  mem_of_responded id hid := by simp [SlotView.nextRound] at hid
  size_responded := by simp [SlotView.nextRound]
  idle hidle := by
    replace hidle : s.isIdle = true := hidle
    cases hidle.symm.trans (isIdle_of_active hactive)
  acks_lt _ := Nat.succ_pos _
  nacks_lt _ := Nat.succ_pos _

theorem Tally.propose (h : s.Tally members rounds) {values : ValueSet} {s' : SlotView}
    {p : Proposal} (hs : s.propose values = (s', .ok p)) :
    s'.Tally members (p.round :: rounds) := by
  rcases s.propose_cases values with ⟨-, heq⟩ | ⟨hdecided, ⟨hactive, heq⟩ | ⟨hactive, heq⟩⟩
  · cases hs.symm.trans heq
  · cases hs.symm.trans heq
    obtain ⟨-, hacks, hnacks⟩ := h.idle (isIdle_eq_true.mpr ⟨hactive, hdecided⟩)
    refine ⟨h.mem_of_responded, h.size_responded, nofun, fun _ => ?_, fun _ => ?_⟩
    · exact hacks ▸ Nat.succ_pos _
    · exact hnacks ▸ Nat.succ_pos _
  · cases hs.symm.trans heq
    exact tally_nextRound hactive

/-- A reply comes only once a round has been given out. -/
theorem Tally.isIdle_eq_false (h : s.Tally members rounds) (hround : round ∈ rounds) :
    s.isIdle = false := by
  rw [← Bool.not_eq_true]
  intro hidle
  rw [(h.idle hidle).1] at hround
  cases hround

/-- Only members have replied after one more of them has. -/
theorem Tally.mem_of_insert (h : s.Tally members rounds) (hid : id ∈ members) :
    ∀ i ∈ s.responded.insert id, i ∈ members := by
  intro i hi
  rcases Std.ExtTreeSet.mem_insert.mp hi with heq | hold
  · exact Std.compare_eq_iff_eq.mp heq ▸ hid
  · exact h.mem_of_responded i hold

theorem Tally.ack (h : s.Tally members rounds) (hid : id ∈ members) (hround : round ∈ rounds) :
    (s.onAck id round (quorum members.length)).1.Tally members rounds := by
  rcases s.onAck_cases id round (quorum members.length) with ⟨-, hs⟩ | ⟨hcounts, hs⟩
  · rw [hs]
    exact h
  have hsize : (s.responded.insert id).size = s.acks + 1 + s.nacks := by
    rw [size_insert_responded hcounts, h.size_responded]
    omega
  rcases hs with ⟨-, -, hs⟩ | ⟨hlt, hs⟩
  · rw [hs]
    exact ⟨h.mem_of_insert hid, hsize, nofun, nofun, nofun⟩
  · rw [hs]
    refine ⟨h.mem_of_insert hid, hsize, fun hidle => ?_, hlt, h.nacks_lt⟩
    cases (h.isIdle_eq_false hround).symm.trans hidle

theorem Tally.nack (h : s.Tally members rounds) (hid : id ∈ members) (hround : round ∈ rounds)
    (values : ValueSet) : (s.onNack id round values (quorum members.length)).1.Tally members
      (((s.onNack id round values (quorum members.length)).2.map Proposal.round).toList ++
        rounds) := by
  rcases s.onNack_cases id round values (quorum members.length) with ⟨-, hs⟩ | ⟨hcounts, hs⟩
  · rw [hs]
    exact h
  rcases hs with ⟨hactive, -, hs⟩ | ⟨hlt, hs⟩
  · rw [hs]
    exact tally_nextRound hactive
  · rw [hs]
    refine ⟨h.mem_of_insert hid, ?_, fun hidle => ?_, h.acks_lt, fun hactive => ?_⟩
    · show (s.responded.insert id).size = s.acks + (s.nacks + 1)
      rw [size_insert_responded hcounts, h.size_responded]
      omega
    · cases (h.isIdle_eq_false hround).symm.trans hidle
    · have hsum := hlt hactive
      show s.nacks + 1 < quorum members.length
      omega

theorem tally_of_run (h : Run members slot s rounds) : s.Tally members rounds := by
  induction h with
  | start =>
    refine ⟨fun id hid => ?_, ?_, fun _ => ⟨rfl, rfl, rfl⟩, nofun, nofun⟩
    · simp [ofSlot] at hid
    · simp [ofSlot]
  | propose values _ hs ih => exact ih.propose hs
  | proposal p _ ih =>
    exact ⟨ih.mem_of_responded, ih.size_responded, ih.idle, ih.acks_lt, ih.nacks_lt⟩
  | ack _ hid hround ih => exact ih.ack hid hround
  | nack values _ hid hround ih => exact ih.nack hid hround values

/-- All members have replied exactly if the counts say so. -/
theorem Tally.forall_responded_iff (h : s.Tally members rounds) (hmembers : members.Nodup) :
    (∀ id ∈ members, id ∈ s.responded) ↔ s.acks + s.nacks = members.length := by
  have hnodup : s.responded.toList.Nodup :=
    s.responded.distinct_toList.imp fun hne heq => hne (Std.compare_eq_iff_eq.mpr heq)
  rw [← h.size_responded, ← Std.ExtTreeSet.length_toList,
    ← forall_mem_iff_length_eq hmembers hnodup]
  · simp only [Std.ExtTreeSet.mem_toList]
  · simpa using h.mem_of_responded

/-- A slot waits for ever exactly if all have replied and there are as many refusals as
acceptances. -/
theorem Tally.stuck_iff (h : s.Tally members rounds) (hmembers : members.Nodup) :
    s.Stuck members ↔
      s.isActive = true ∧ 2 * s.acks = members.length ∧ 2 * s.nacks = members.length := by
  rw [Stuck, h.forall_responded_iff hmembers]
  constructor
  · rintro ⟨hactive, hall⟩
    have hacks := h.acks_lt hactive
    have hnacks := h.nacks_lt hactive
    rw [quorum] at hacks hnacks
    exact ⟨hactive, by omega, by omega⟩
  · rintro ⟨hactive, hacks, hnacks⟩
    exact ⟨hactive, by omega⟩

/-! ## A run that waits -/

/-- Those in `A` have refused the first round of a slot, then those in `B` have accepted it, and the
slot still collects replies. -/
structure Waits (members : List HostId) (slot : Slot) (A B : List HostId) (s : SlotView) :
    Prop where
  run : Run members slot s [0]
  isActive_eq : s.isActive = true
  round_eq : s.round = 0
  acks_eq : s.acks = B.length
  nacks_eq : s.nacks = A.length
  mem_responded : ∀ id, id ∈ s.responded ↔ id ∈ A ∨ id ∈ B

variable {A B : List HostId}

theorem Waits.counts (h : s.Waits members slot A B) (hA : id ∉ A) (hB : id ∉ B) :
    s.counts id 0 = true := by
  rw [counts_iff, h.round_eq, h.mem_responded]
  exact ⟨rfl, fun hmem => hmem.elim hA hB⟩

theorem Waits.nack (h : s.Waits members slot A []) (hid : id ∈ members) (hnew : id ∉ A)
    (hlt : A.length + 1 < quorum members.length) :
    (s.refusing id ∅).Waits members slot (id :: A) [] := by
  have hrun := h.run.nack ∅ hid (List.mem_singleton.mpr rfl)
  rcases s.onNack_cases id 0 ∅ (quorum members.length) with ⟨hcounts, -⟩ |
    ⟨-, ⟨-, hle, -⟩ | ⟨-, hs⟩⟩
  · rw [h.counts hnew List.not_mem_nil] at hcounts
    cases hcounts
  · rw [h.acks_eq, h.nacks_eq, List.length_nil] at hle
    omega
  · rw [hs] at hrun
    refine ⟨hrun, h.isActive_eq, h.round_eq, h.acks_eq, congrArg (· + 1) h.nacks_eq, fun i => ?_⟩
    show i ∈ s.responded.insert id ↔ _
    rw [Std.ExtTreeSet.mem_insert, Std.compare_eq_iff_eq, h.mem_responded, List.mem_cons, or_assoc,
      eq_comm]

theorem Waits.ack (h : s.Waits members slot A B) (hid : id ∈ members) (hA : id ∉ A) (hB : id ∉ B)
    (hlt : B.length + 1 < quorum members.length) :
    (s.accepting id).Waits members slot A (id :: B) := by
  have hrun := h.run.ack hid (List.mem_singleton.mpr rfl)
  rcases s.onAck_cases id 0 (quorum members.length) with ⟨hcounts, -⟩ |
    ⟨-, ⟨-, hle, -⟩ | ⟨-, hs⟩⟩
  · rw [h.counts hA hB] at hcounts
    cases hcounts
  · rw [h.acks_eq] at hle
    omega
  · rw [hs] at hrun
    refine ⟨hrun, h.isActive_eq, h.round_eq, congrArg (· + 1) h.acks_eq, h.nacks_eq, fun i => ?_⟩
    show i ∈ s.responded.insert id ↔ _
    rw [Std.ExtTreeSet.mem_insert, Std.compare_eq_iff_eq, h.mem_responded, List.mem_cons,
      or_left_comm, eq_comm]

/-- Fewer refusals than a majority, and after them fewer acceptances than a majority, leave a slot
waiting. -/
theorem exists_waits (slot : Slot) (hnodup : (A ++ B).Nodup) (hsub : ∀ id ∈ A ++ B, id ∈ members)
    (hA : A.length < quorum members.length) (hB : B.length < quorum members.length) :
    ∃ s : SlotView, s.Waits members slot A B := by
  induction B with
  | nil =>
    rw [List.append_nil] at hnodup hsub
    induction A with
    | nil =>
      obtain ⟨s, p, hs⟩ : ∃ s p, (ofSlot slot).propose ∅ = (s, .ok p) := ⟨_, _, rfl⟩
      have hrun : Run members slot s [p.round] := .propose ∅ .start hs
      cases hs
      exact ⟨_, hrun, rfl, rfl, rfl, rfl, by simp [ofSlot]⟩
    | cons id A ih =>
      rw [List.nodup_cons] at hnodup
      obtain ⟨s, h⟩ := ih (Nat.lt_of_succ_lt hA) hnodup.2
        (fun i hi => hsub i (List.mem_cons_of_mem id hi))
      exact ⟨_, h.nack (hsub id List.mem_cons_self) hnodup.1 hA⟩
  | cons id B ih =>
    rw [List.nodup_middle, List.nodup_cons, List.mem_append, not_or] at hnodup
    have hsub' : ∀ i ∈ A ++ B, i ∈ members := by
      intro i hi
      refine hsub i ?_
      rw [List.mem_append] at hi ⊢
      exact hi.imp_right (List.mem_cons_of_mem id)
    obtain ⟨s, h⟩ := ih hnodup.2 hsub' (Nat.lt_of_succ_lt hB)
    exact ⟨_, h.ack (hsub id (by simp)) hnodup.1.1 hnodup.1.2 hB⟩

/-- Half of the members, and then the other half, can keep a slot waiting. -/
theorem exists_stuck_of_even (hmembers : members.Nodup) (heven : 2 ∣ members.length)
    (slot : Slot) : ∃ s, Run members slot s [0] ∧ s.Stuck members := by
  obtain ⟨k, hk⟩ := heven
  have happend := List.take_append_drop k members
  have htake : (members.take k).length = k := by
    rw [List.length_take]
    omega
  have hdrop : (members.drop k).length = k := by
    rw [List.length_drop]
    omega
  have hsub : ∀ id ∈ members.take k ++ members.drop k, id ∈ members := by
    rw [happend]
    exact fun _ hid => hid
  obtain ⟨s, h⟩ := exists_waits slot (by rwa [happend]) hsub
    (by rw [htake, quorum]; omega) (by rw [hdrop, quorum]; omega)
  refine ⟨s, h.run, h.isActive_eq, fun id hid => ?_⟩
  rw [h.mem_responded, ← List.mem_append, happend]
  exact hid

/-! ## When a slot waits for ever -/

/-- **When a slot waits for ever.**  After any run in a group, the slot collects replies although
all members have replied to its round exactly if half of them have refused it and the other half
have accepted it; no reply to any round counts from then on.  There is such a run exactly if the
number of members is even. -/
theorem stuck_iff_tied (hmembers : members.Nodup) (slot : Slot) :
    (∀ s rounds, Run members slot s rounds →
      (s.Stuck members ↔
        s.isActive = true ∧ 2 * s.acks = members.length ∧ 2 * s.nacks = members.length) ∧
      (s.Stuck members → ∀ id ∈ members, ∀ round, s.counts id round = false)) ∧
    ((∃ s rounds, Run members slot s rounds ∧ s.Stuck members) ↔ 2 ∣ members.length) := by
  refine ⟨fun s rounds hrun => ⟨(tally_of_run hrun).stuck_iff hmembers, ?_⟩, ?_, ?_⟩
  · rintro ⟨-, hall⟩ id hid round
    rw [← Bool.not_eq_true, counts_iff]
    exact fun hcounts => hcounts.2 (hall id hid)
  · rintro ⟨s, rounds, hrun, hstuck⟩
    obtain ⟨-, hacks, -⟩ := ((tally_of_run hrun).stuck_iff hmembers).mp hstuck
    exact ⟨s.acks, hacks.symm⟩
  · intro heven
    obtain ⟨s, hrun, hstuck⟩ := exists_stuck_of_even hmembers heven slot
    exact ⟨s, [0], hrun, hstuck⟩

theorem stuck_iff_tied_four :
    [1, 2, 3, 4].Nodup ∧ ∃ s rounds, Run [1, 2, 3, 4] 1 s rounds ∧ s.Stuck [1, 2, 3, 4] :=
  ⟨by decide, (stuck_iff_tied (by decide) 1).2.mpr (by decide)⟩

/-- Of two members the first refuses what the slot offers, the second accepts it, and the slot
waits for ever. -/
theorem stuck_of_refusal_and_acceptance : ∃ s₁ s₂ s₃ : SlotView,
    (ofSlot 1).propose (.ofList [1]) = (s₁, .ok s₁.proposal) ∧
      s₁.onNack 1 s₁.round (.ofList [2]) (quorum 2) = (s₂, none) ∧
      s₂.onAck 2 s₁.round (quorum 2) = (s₃, none) ∧
      Run [1, 2] 1 s₃ [s₁.round] ∧ s₃.Stuck [1, 2] := by
  obtain ⟨s₁, h₁⟩ : ∃ s, (ofSlot 1).propose (.ofList [1]) = (s, .ok s.proposal) := ⟨_, rfl⟩
  have hrun : Run [1, 2] 1 s₁ [s₁.round] := .propose _ .start h₁
  have hrefused : Run [1, 2] 1 (s₁.onNack 1 s₁.round (.ofList [2]) (quorum 2)).1 _ :=
    hrun.nack _ List.mem_cons_self List.mem_cons_self
  cases h₁
  have haccepted : Run [1, 2] 1 (SlotView.onAck _ 2 0 (quorum 2)).1 _ :=
    hrefused.ack (by decide) (by decide)
  refine ⟨_, _, _, rfl, rfl, rfl, haccepted, rfl, ?_⟩
  rw [List.forall_mem_cons, List.forall_mem_singleton]
  decide +kernel

end Groupcast.SlotView
