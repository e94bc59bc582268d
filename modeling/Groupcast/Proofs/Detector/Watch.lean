import Groupcast.Detector
import Groupcast.Proofs.Tables
import Mathlib.Data.List.Basic
import Mathlib.Data.List.Pairwise
import Mathlib.Data.List.Perm.Subperm

/-!
# What is remembered of heartbeats

The ids of heartbeats are given out in ascending order, so a new one is greater than all that are
remembered (`Watch.Upto`), and it has not been answered yet.  The window keeps the greatest of the
ids: a heartbeat survives as long as fewer are greater than the window has room for
(`not_mem_evicted_of_few`).  A check sees the heartbeats that are remembered and have been
answered, and leaves none of them (`fresh_forget_fresh`).  An answer is forgotten together with its
heartbeat, so none is left behind of a heartbeat that can not be answered any more (`Watch.Tidy`).
-/

namespace Groupcast.Watch

variable {w : Watch} {id i : UInt32} {ids : List UInt32} {window n : Nat}

/-- All ids that are remembered are at most `n`. -/
def Upto (w : Watch) (n : Nat) : Prop := ∀ i, i ∈ w.outstanding ∨ i ∈ w.answered → i.toNat ≤ n

/-! ## Lookups -/

theorem mem_outstanding_forget : i ∈ (w.forget ids).outstanding ↔ i ∈ w.outstanding ∧ i ∉ ids :=
  Tables.mem_foldl_erase

theorem mem_answered_forget : i ∈ (w.forget ids).answered ↔ i ∈ w.answered ∧ i ∉ ids :=
  Tables.mem_foldl_erase

theorem mem_fresh : i ∈ w.fresh ↔ i ∈ w.outstanding ∧ i ∈ w.answered := by
  rw [fresh, List.mem_filter, Std.ExtTreeSet.mem_toList, Std.ExtTreeSet.contains_iff_mem]

theorem fresh_eq_nil_iff : w.fresh = [] ↔ ∀ i ∈ w.outstanding, i ∉ w.answered := by
  rw [List.eq_nil_iff_forall_not_mem]
  constructor
  · intro h i hi ha
    exact h i (mem_fresh.mpr ⟨hi, ha⟩)
  · intro h i hi
    obtain ⟨ho, ha⟩ := mem_fresh.mp hi
    exact h i ho ha

theorem mem_outstanding_answer : i ∈ (w.answer id).outstanding ↔ i ∈ w.outstanding := by
  rw [answer]
  split <;> rfl

theorem mem_answered_answer :
    i ∈ (w.answer id).answered ↔ i ∈ w.answered ∨ i = id ∧ id ∈ w.outstanding := by
  rw [answer]
  split
  · rename_i hcontains
    rw [Std.ExtTreeSet.contains_iff_mem] at hcontains
    simp only [Std.ExtTreeSet.mem_insert, Std.compare_eq_iff_eq, hcontains, and_true]
    rw [or_comm, eq_comm]
  · rename_i hcontains
    rw [Std.ExtTreeSet.contains_iff_mem] at hcontains
    simp [hcontains]

/-- What is forgotten when a heartbeat has been sent. -/
def evicted (w : Watch) (id : UInt32) (window : Nat) : List UInt32 :=
  (w.outstanding.insert id).toList.take ((w.outstanding.insert id).size - window)

theorem mem_outstanding_sent : i ∈ (w.sent id window).outstanding ↔
    (i = id ∨ i ∈ w.outstanding) ∧ i ∉ w.evicted id window := by
  rw [sent]
  simp only [mem_outstanding_forget, Std.ExtTreeSet.mem_insert, Std.compare_eq_iff_eq]
  rw [eq_comm]
  rfl

theorem mem_answered_sent :
    i ∈ (w.sent id window).answered ↔ i ∈ w.answered ∧ i ∉ w.evicted id window :=
  mem_answered_forget

/-! ## Ids in ascending order -/

theorem upto_empty (n : Nat) : empty.Upto n := by
  rintro i (hi | hi) <;> exact absurd hi Std.ExtTreeSet.not_mem_empty

theorem Upto.mono {m : Nat} (h : w.Upto n) (hle : n ≤ m) : w.Upto m :=
  fun i hi => Nat.le_trans (h i hi) hle

theorem Upto.forget (h : w.Upto n) (ids : List UInt32) : (w.forget ids).Upto n := by
  rintro i (hi | hi)
  · exact h i (Or.inl (mem_outstanding_forget.mp hi).1)
  · exact h i (Or.inr (mem_answered_forget.mp hi).1)

theorem Upto.answer (h : w.Upto n) (id : UInt32) : (w.answer id).Upto n := by
  rintro i (hi | hi)
  · exact h i (Or.inl (mem_outstanding_answer.mp hi))
  · rcases mem_answered_answer.mp hi with hold | ⟨rfl, hid⟩
    · exact h i (Or.inr hold)
    · exact h i (Or.inl hid)

theorem Upto.sent (h : w.Upto n) (hid : id.toNat = n + 1) (window : Nat) :
    (w.sent id window).Upto (n + 1) := by
  rintro i (hi | hi)
  · rcases (mem_outstanding_sent.mp hi).1 with rfl | hold
    · exact Nat.le_of_eq hid
    · exact Nat.le_succ_of_le (h i (Or.inl hold))
  · exact Nat.le_succ_of_le (h i (Or.inr (mem_answered_sent.mp hi).1))

/-- A new heartbeat has not been answered yet. -/
theorem Upto.not_mem_answered (h : w.Upto n) (hid : id.toNat = n + 1) : id ∉ w.answered := by
  intro hmem
  have hle := h id (Or.inr hmem)
  omega

/-! ## What a check sees -/

/-- A check leaves nothing behind that it has seen. -/
theorem fresh_forget_fresh (w : Watch) : (w.forget w.fresh).fresh = [] := by
  rw [fresh_eq_nil_iff]
  intro i hi ha
  obtain ⟨ho, hnew⟩ := mem_outstanding_forget.mp hi
  exact hnew (mem_fresh.mpr ⟨ho, (mem_answered_forget.mp ha).1⟩)

/-- Sending a heartbeat answers none. -/
theorem fresh_sent_eq_nil (h : w.fresh = []) (hid : id ∉ w.answered) (window : Nat) :
    (w.sent id window).fresh = [] := by
  rw [fresh_eq_nil_iff] at h ⊢
  intro i hi ha
  have ha' := (mem_answered_sent.mp ha).1
  rcases (mem_outstanding_sent.mp hi).1 with rfl | hold
  · exact hid ha'
  · exact h i hold ha'

/-! ## What the window keeps -/

theorem nodup_toList (ids : Std.ExtTreeSet UInt32) : ids.toList.Nodup :=
  Tables.nodup_of_pairwise_lt ids.ordered_toList

/-- Fewer than `k` elements of a list in ascending order are greater than one that is not among the
last `k`. -/
theorem not_mem_take_of_few {l : List UInt32} (hl : l.Pairwise (· < ·)) {k : Nat}
    (hfew : (l.filter (i < ·)).length < k) : i ∉ l.take (l.length - k) := by
  intro hi
  have hsplit : ∀ y ∈ l.drop (l.length - k), i < y := by
    rw [← List.take_append_drop (l.length - k) l] at hl
    exact fun y hy => (List.pairwise_append.mp hl).2.2 i hi y hy
  have hlong : k ≤ (l.drop (l.length - k)).length := by
    have hne : l.length - k ≠ 0 := by
      intro hzero
      rw [hzero] at hi
      cases hi
    rw [List.length_drop]
    omega
  have hkept : (l.drop (l.length - k)).filter (i < ·) = l.drop (l.length - k) :=
    List.filter_eq_self.mpr fun y hy => decide_eq_true (hsplit y hy)
  have hle := ((List.drop_sublist (l.length - k) l).filter (i < ·)).length_le
  rw [hkept] at hle
  omega

/-- A heartbeat survives if there are fewer greater ones than the window has room for. -/
theorem not_mem_evicted_of_few (greater : List UInt32) (hgreater : greater.length < window)
    (hall : ∀ j, j = id ∨ j ∈ w.outstanding → i < j → j ∈ greater) : i ∉ w.evicted id window := by
  have hordered := Tables.ascending_keys (w.outstanding.insert id)
  rw [evicted, ← Std.ExtTreeSet.length_toList]
  refine not_mem_take_of_few hordered (Nat.lt_of_le_of_lt ?_ hgreater)
  have hnodup : ((w.outstanding.insert id).toList.filter (i < ·)).Nodup :=
    (nodup_toList _).filter _
  refine (List.subperm_of_subset hnodup fun j hj => ?_).length_le
  obtain ⟨hmem, hlt⟩ := List.mem_filter.mp hj
  rw [Std.ExtTreeSet.mem_toList, Std.ExtTreeSet.mem_insert, Std.compare_eq_iff_eq] at hmem
  exact hall j (hmem.imp_left Eq.symm) (of_decide_eq_true hlt)

/-- The window always has room for a new heartbeat. -/
theorem mem_outstanding_sent_self (hwindow : 1 ≤ window) (hid : ∀ j ∈ w.outstanding, j ≤ id) :
    id ∈ (w.sent id window).outstanding := by
  refine mem_outstanding_sent.mpr ⟨Or.inl rfl, not_mem_evicted_of_few [] hwindow ?_⟩
  rintro j (rfl | hj) hlt
  · exact absurd hlt (UInt32.lt_irrefl j)
  · exact absurd hlt (UInt32.not_lt.mpr (hid j hj))

/-- **A window for two heartbeats keeps the greatest one when a new one is sent.** -/
theorem not_mem_evicted_greatest (hwindow : 2 ≤ window) (hi : ∀ j ∈ w.outstanding, j ≤ i) :
    i ∉ w.evicted id window := by
  refine not_mem_evicted_of_few [id] hwindow ?_
  rintro j (rfl | hj) hlt
  · exact List.mem_singleton.mpr rfl
  · exact absurd hlt (UInt32.not_lt.mpr (hi j hj))

/-- **A window for one heartbeat forgets all others when a new one is sent.** -/
theorem eq_of_mem_outstanding_sent_one (hid : ∀ j ∈ w.outstanding, j < id)
    (hi : i ∈ (w.sent id 1).outstanding) : i = id := by
  obtain ⟨rfl | hmem, hkept⟩ := mem_outstanding_sent.mp hi
  · rfl
  refine absurd ?_ hkept
  -- All but the last element of the list are evicted, and the last one is the new heartbeat.
  let l := (w.outstanding.insert id).toList
  have hordered : l.Pairwise (· < ·) := Tables.ascending_keys _
  have hmeml : ∀ j, j ∈ l ↔ j = id ∨ j ∈ w.outstanding := by
    intro j
    rw [Std.ExtTreeSet.mem_toList, Std.ExtTreeSet.mem_insert, Std.compare_eq_iff_eq, eq_comm]
  have hil : i ∈ l := (hmeml i).mpr (Or.inr hmem)
  have hidl : id ∈ l := (hmeml id).mpr (Or.inl rfl)
  rw [evicted, ← Std.ExtTreeSet.length_toList]
  show i ∈ l.take (l.length - 1)
  rw [← List.dropLast_eq_take]
  refine List.mem_dropLast_of_mem_of_ne_getLast hil fun hlast => ?_
  have hlt := hid i hmem
  by_cases hlast' : id = l.getLast (List.ne_nil_of_mem hidl)
  · rw [hlast', ← hlast] at hlt
    exact UInt32.lt_irrefl _ hlt
  · have hfront := List.mem_dropLast_of_mem_of_ne_getLast hidl hlast'
    have hgt := hordered.rel_dropLast_getLast hfront
    rw [← hlast] at hgt
    exact UInt32.lt_irrefl _ (UInt32.lt_trans hlt hgt)

/-! ## Nothing is left behind -/

/-- Only what is outstanding counts as answered, and no more than the window has room for is
outstanding. -/
structure Tidy (w : Watch) (window : Nat) : Prop where
  outstanding_of_answered : ∀ i ∈ w.answered, i ∈ w.outstanding
  size_le : w.outstanding.size ≤ window

theorem size_le_length {s : Std.ExtTreeSet UInt32} (h : ∀ i ∈ s, i ∈ ids) :
    s.size ≤ ids.length := by
  rw [← Std.ExtTreeSet.length_toList]
  refine (List.subperm_of_subset (nodup_toList s) fun i hi => ?_).length_le
  exact h i (Std.ExtTreeSet.mem_toList.mp hi)

theorem tidy_empty (window : Nat) : empty.Tidy window where
  outstanding_of_answered _ hi := absurd hi Std.ExtTreeSet.not_mem_empty
  size_le := Nat.zero_le window

theorem Tidy.forget (h : w.Tidy window) (ids : List UInt32) : (w.forget ids).Tidy window where
  outstanding_of_answered i hi := by
    obtain ⟨ha, hkept⟩ := mem_answered_forget.mp hi
    exact mem_outstanding_forget.mpr ⟨h.outstanding_of_answered i ha, hkept⟩
  size_le := by
    have hle : (w.forget ids).outstanding.size ≤ w.outstanding.toList.length :=
      size_le_length fun i hi => Std.ExtTreeSet.mem_toList.mpr (mem_outstanding_forget.mp hi).1
    rw [Std.ExtTreeSet.length_toList] at hle
    exact Nat.le_trans hle h.size_le

theorem Tidy.answer (h : w.Tidy window) (id : UInt32) : (w.answer id).Tidy window where
  outstanding_of_answered i hi := by
    rw [mem_outstanding_answer]
    rcases mem_answered_answer.mp hi with ha | ⟨rfl, ho⟩
    · exact h.outstanding_of_answered i ha
    · exact ho
  size_le := by
    rw [Watch.answer]
    split <;> exact h.size_le

/-- Whatever has been outstanding before, sending a heartbeat makes it fit into the window. -/
theorem Tidy.sent (h : w.Tidy window) (id : UInt32) : (w.sent id window).Tidy window where
  outstanding_of_answered i hi := by
    obtain ⟨ha, hkept⟩ := mem_answered_sent.mp hi
    exact mem_outstanding_sent.mpr ⟨Or.inr (h.outstanding_of_answered i ha), hkept⟩
  size_le := by
    let l := (w.outstanding.insert id).toList
    have hkept : ∀ i ∈ (w.sent id window).outstanding, i ∈ l.drop (l.length - window) := by
      intro i hi
      obtain ⟨hmem, hkept⟩ := mem_outstanding_sent.mp hi
      have hil : i ∈ l := by
        rw [Std.ExtTreeSet.mem_toList, Std.ExtTreeSet.mem_insert, Std.compare_eq_iff_eq, eq_comm]
        exact hmem
      rw [evicted, ← Std.ExtTreeSet.length_toList] at hkept
      rw [← List.take_append_drop (l.length - window) l, List.mem_append] at hil
      exact hil.resolve_left hkept
    have hle := size_le_length hkept
    rw [List.length_drop] at hle
    omega

end Groupcast.Watch
