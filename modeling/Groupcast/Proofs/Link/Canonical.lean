import Groupcast.Proofs.Link.Window
import Groupcast.Proofs.Tables
import Mathlib.Data.Finset.Card
import Mathlib.Data.List.Induction
import Mathlib.Order.Bounds.Basic

/-!
# The form of a window of link ids

A window is in canonical form if every id that it stores one by one is beyond the gap above the
floor (`Canonical`).  Adding an id restores this form, whatever gap the id closes
(`canonical_insert`), so that the floor is as high as the ids in the window allow and a window is
determined by what it contains (`Canonical.eq_of_contains`).

The main statement says what a window is after any ids have been added, each any number of times
and in any order: the set of those ids, and nothing but that set (`exact_after_inserts`).
-/

namespace Groupcast.Window

/-- No id is stored that the floor covers. -/
def Apart (w : Window) : Prop := ∀ id ∈ w.above, w.floor < id

/-- All ids that are stored one by one are beyond the gap above the floor. -/
def Canonical (w : Window) : Prop := ∀ id ∈ w.above, w.floor.toNat + 1 < id.toNat

/-- The window with the floor raised over the id next to it. -/
def raise (w : Window) : Window := ⟨w.floor + 1, w.above.erase (w.floor + 1)⟩

variable {v w : Window} {id : UInt32} {n : Nat}

theorem Canonical.apart (h : w.Canonical) : w.Apart := fun id hid => by
  have hlt := h id hid
  rw [UInt32.lt_iff_toNat_lt]
  omega

theorem Apart.sound (h : w.Apart) : w.Sound := fun hz => UInt32.not_lt_zero (h 0 hz)

theorem canonical_empty : empty.Canonical := fun _ hid => absurd hid Std.ExtTreeSet.not_mem_empty

/-! ## Raising the floor -/

theorem Apart.toNat_floor_succ (h : w.Apart) (hnext : w.floor + 1 ∈ w.above) :
    (w.floor + 1).toNat = w.floor.toNat + 1 :=
  UInt32.toNat_succ fun hz => h.sound (hz ▸ hnext)

theorem Apart.raise (h : w.Apart) (hnext : w.floor + 1 ∈ w.above) : w.raise.Apart := by
  intro id hid
  obtain ⟨hne, hid⟩ := Std.ExtTreeSet.mem_erase.mp hid
  have hlt := UInt32.lt_iff_toNat_lt.mp (h id hid)
  have hsucc := h.toNat_floor_succ hnext
  have hne : (w.floor + 1).toNat ≠ id.toNat := fun heq =>
    hne (Std.compare_eq_iff_eq.mpr (UInt32.toNat_inj.mp heq))
  show w.floor + 1 < id
  rw [UInt32.lt_iff_toNat_lt]
  omega

theorem size_above_raise (hnext : w.floor + 1 ∈ w.above) :
    w.raise.above.size + 1 = w.above.size := Tables.size_erase_of_mem hnext

theorem Apart.size_raise (h : w.Apart) (hnext : w.floor + 1 ∈ w.above) :
    w.raise.size = w.size := by
  have hsize := size_above_raise hnext
  have hfloor : w.raise.floor.toNat = w.floor.toNat + 1 := h.toNat_floor_succ hnext
  rw [size, size]
  omega

/-- What raising the floor preserves holds when it cannot be raised any more. -/
theorem compact_induct {P : Window → Prop}
    (hraise : ∀ w, P w → w.floor + 1 ∈ w.above → P w.raise) (n : Nat) (h : P w) :
    P (compact n w) := by
  induction n generalizing w with
  | zero => exact h
  | succ n ih =>
    rw [compact]
    split
    · rename_i hnext
      exact ih (hraise w h (Std.ExtTreeSet.contains_iff_mem.mp hnext))
    · exact h

/-- Every id that is stored can be used up, and after that the floor cannot be raised. -/
theorem next_not_mem_compact (h : w.above.size ≤ n) :
    (compact n w).floor + 1 ∉ (compact n w).above := by
  induction n generalizing w with
  | zero =>
    have hempty := Std.ExtTreeSet.eq_empty_iff_size_eq_zero.mpr (Nat.le_zero.mp h)
    rw [compact, hempty]
    exact Std.ExtTreeSet.not_mem_empty
  | succ n ih =>
    rw [compact]
    split
    · rename_i hnext
      have hsize := size_above_raise (Std.ExtTreeSet.contains_iff_mem.mp hnext)
      exact ih (w := w.raise) (by omega)
    · rename_i hnext
      rwa [Std.ExtTreeSet.contains_iff_mem] at hnext

/-! ## Adding an id -/

/-- The window that stores one more id, before the floor is raised. -/
def store (w : Window) (id : UInt32) : Window := ⟨w.floor, w.above.insert id⟩

theorem insert_of_contains (h : w.contains id = true) : w.insert id = w := if_pos h

theorem insert_of_new (h : ¬ w.contains id = true) :
    w.insert id = compact (w.above.insert id).size (w.store id) := if_neg h

theorem Apart.store (h : w.Apart) (hnew : ¬ w.contains id = true) : (w.store id).Apart := by
  intro x hx
  rcases Std.ExtTreeSet.mem_insert.mp hx with heq | hx
  · rw [← Std.compare_eq_iff_eq.mp heq]
    exact UInt32.not_le.mp fun hle => hnew (contains_iff.mpr (Or.inl hle))
  · exact h x hx

theorem size_store (hnew : ¬ w.contains id = true) : (w.store id).size = w.size + 1 := by
  have hmem : ¬ w.above.contains id = true := fun hid =>
    hnew (contains_iff.mpr (Or.inr (Std.ExtTreeSet.contains_iff_mem.mp hid)))
  rw [size, size, store, Std.ExtTreeSet.size_insert, if_neg hmem]
  rfl

/-- **Adding an id keeps the canonical form**, whatever gap it closes. -/
theorem canonical_insert (h : w.Canonical) (id : UInt32) : (w.insert id).Canonical := by
  by_cases hnew : w.contains id = true
  · rwa [insert_of_contains hnew]
  · rw [insert_of_new hnew]
    have hapart := compact_induct (P := Apart) (fun w h hnext => h.raise hnext)
      (w.above.insert id).size (h.apart.store hnew)
    have hnext := next_not_mem_compact (w := w.store id) (Nat.le_refl _)
    intro x hx
    have hlt := UInt32.lt_iff_toNat_lt.mp (hapart x hx)
    have hne : x ≠ (compact (w.above.insert id).size (w.store id)).floor + 1 :=
      fun heq => hnext (heq ▸ hx)
    -- the id next to the floor would be the one whose number is greater by one
    refine Nat.lt_of_le_of_ne hlt fun heq => hne (UInt32.toNat_inj.mp ?_)
    have hmax := x.toNat_lt
    rw [UInt32.toNat_add, ← heq]
    exact (Nat.mod_eq_of_lt (by omega)).symm

theorem size_insert (h : w.Canonical) (id : UInt32) :
    (w.insert id).size = if w.contains id then w.size else w.size + 1 := by
  split
  · rename_i hold
    rw [insert_of_contains hold]
  · rename_i hnew
    rw [insert_of_new hnew]
    have hsize := compact_induct (P := fun v => v.Apart ∧ v.size = w.size + 1)
      (fun v hv hnext => ⟨hv.1.raise hnext, (hv.1.size_raise hnext).trans hv.2⟩)
      (w.above.insert id).size ⟨h.apart.store hnew, size_store hnew⟩
    exact hsize.2

/-! ## What determines a window -/

/-- The floor is as high as the ids in the window allow. -/
theorem Canonical.le_floor_iff (h : w.Canonical) {f : UInt32} :
    f ≤ w.floor ↔ ∀ x, 0 < x → x ≤ f → w.contains x = true := by
  constructor
  · exact fun hf x _ hx => contains_iff.mpr (Or.inl (UInt32.le_trans hx hf))
  · intro hall
    refine UInt32.not_lt.mp fun hlt => ?_
    -- the id next to the floor is in the gap
    have hf := UInt32.lt_iff_toNat_lt.mp hlt
    have hmax := f.toNat_lt
    have hnext : (w.floor + 1).toNat = w.floor.toNat + 1 :=
      (UInt32.toNat_add _ _).trans (Nat.mod_eq_of_lt (by simp; omega))
    have hcontains := hall (w.floor + 1) (by rw [UInt32.lt_iff_toNat_lt, hnext]; simp)
      (by rw [UInt32.le_iff_toNat_le, hnext]; omega)
    rcases contains_iff.mp hcontains with hle | hmem
    · rw [UInt32.le_iff_toNat_le, hnext] at hle
      omega
    · have hgap := h _ hmem
      omega

theorem Canonical.mem_above_iff (h : w.Canonical) :
    id ∈ w.above ↔ w.contains id = true ∧ ¬ id ≤ w.floor := by
  rw [contains_iff]
  constructor
  · exact fun hid => ⟨Or.inr hid, UInt32.not_le.mpr (h.apart id hid)⟩
  · exact fun ⟨hor, hnot⟩ => hor.resolve_left hnot

/-- **Windows in canonical form with the same ids are equal.** -/
theorem Canonical.eq_of_contains (hv : v.Canonical) (hw : w.Canonical)
    (h : ∀ x, v.contains x = true ↔ w.contains x = true) : v = w := by
  have hle : ∀ f, f ≤ v.floor ↔ f ≤ w.floor := fun f => by
    rw [hv.le_floor_iff, hw.le_floor_iff]
    simp only [h]
  have hfloor : v.floor = w.floor :=
    UInt32.le_antisymm ((hle _).mp UInt32.le_rfl) ((hle _).mpr UInt32.le_rfl)
  have habove : v.above = w.above := Std.ExtTreeSet.ext_mem fun id => by
    rw [hv.mem_above_iff, hw.mem_above_iff, h, hfloor]
  rcases v with ⟨f, a⟩
  rcases w with ⟨g, b⟩
  exact congr (congrArg mk hfloor) habove

/-! ## Windows after additions -/

/-- The window to which ids have been added in order. -/
def ofIds (ids : List UInt32) : Window := ids.foldl (fun w id => (w.insertNew id).1) empty

/-- The ids that count: all that are added, apart from zero. -/
def counted (ids : List UInt32) : Finset UInt32 := ids.toFinset.erase 0

variable {ids : List UInt32}

theorem mem_counted : id ∈ counted ids ↔ id ≠ 0 ∧ id ∈ ids := by
  rw [counted, Finset.mem_erase, List.mem_toFinset]

theorem counted_append_zero (ids : List UInt32) : counted (ids ++ [0]) = counted ids := by
  ext x
  rw [mem_counted, mem_counted, List.mem_append, List.mem_singleton]
  exact and_congr_right fun hx => or_iff_left hx

theorem counted_append (hpos : id ≠ 0) : counted (ids ++ [id]) = counted ids ∪ {id} := by
  ext x
  rw [Finset.mem_union, Finset.mem_singleton, mem_counted, mem_counted, List.mem_append,
    List.mem_singleton, and_or_left]
  exact or_congr_right (and_iff_right_of_imp fun hx => hx ▸ hpos)

theorem ofIds_append (ids : List UInt32) (id : UInt32) :
    ofIds (ids ++ [id]) = (ofIds ids).insert id := by
  rw [ofIds, List.foldl_append]
  rfl

theorem canonical_ofIds (ids : List UInt32) : (ofIds ids).Canonical := by
  induction ids using List.reverseRecOn with
  | nil => exact canonical_empty
  | append_singleton ids id ih =>
    rw [ofIds_append]
    exact canonical_insert ih id

theorem contains_ofIds : (ofIds ids).contains id = true ↔ id = 0 ∨ id ∈ counted ids := by
  induction ids using List.reverseRecOn with
  | nil => simp [ofIds, counted]
  | append_singleton ids x ih =>
    rw [ofIds_append, contains_insert (canonical_ofIds ids).apart.sound, ih, mem_counted,
      mem_counted, List.mem_append, List.mem_singleton]
    by_cases hid : id = 0
    · simp [hid]
    · simp [hid, or_comm]

theorem size_ofIds (ids : List UInt32) : (ofIds ids).size = (counted ids).card := by
  induction ids using List.reverseRecOn with
  | nil => rfl
  | append_singleton ids id ih =>
    rw [ofIds_append, size_insert (canonical_ofIds ids), ih]
    by_cases hzero : id = 0
    · rw [hzero, contains_zero, if_pos rfl, counted_append_zero]
    · rw [counted_append hzero]
      split
      · rename_i hold
        have hmem := (contains_ofIds.mp hold).resolve_left hzero
        rw [Finset.union_eq_left.mpr (Finset.singleton_subset_iff.mpr hmem)]
      · rename_i hnew
        rw [contains_ofIds, not_or] at hnew
        rw [Finset.card_union_of_disjoint (Finset.disjoint_singleton_right.mpr hnew.2),
          Finset.card_singleton]

/-- **A window is exactly the set of the ids that have been added**, apart from the id zero, in
canonical form.

Let any ids be added one after the other.  Then the window contains zero and those ids; adding one
more id reports that it is new exactly if it is neither zero nor among them; the floor is the
greatest number up to which all ids have been added, and every id that is stored one by one is
beyond the gap above it; the size is the number of different ids; and the same ids, in whatever
order and however often they are added, make up the same window. -/
theorem exact_after_inserts (ids : List UInt32) :
    let w := ofIds ids
    (∀ x, w.contains x = true ↔ x = 0 ∨ x ∈ counted ids) ∧
      (∀ x, (w.insertNew x).2 = true ↔ x ≠ 0 ∧ x ∉ counted ids) ∧
      IsGreatest {f | ∀ x, 0 < x → x ≤ f → x ∈ counted ids} w.floor ∧
      (∀ x ∈ w.above, w.floor.toNat + 1 < x.toNat) ∧
      w.size = (counted ids).card ∧
      ∀ ids', counted ids' = counted ids → ofIds ids' = w := by
  intro w
  have hcanonical : w.Canonical := canonical_ofIds ids
  have hcontains : ∀ x, w.contains x = true ↔ x = 0 ∨ x ∈ counted ids := fun _ => contains_ofIds
  have hfloor : ∀ f, f ≤ w.floor ↔ ∀ x, 0 < x → x ≤ f → x ∈ counted ids := fun f => by
    rw [hcanonical.le_floor_iff]
    refine forall₂_congr fun x hpos => imp_congr_right fun _ => ?_
    rw [hcontains, or_iff_right (UInt32.pos_iff_ne_zero.mp hpos)]
  refine ⟨hcontains, fun x => ?_, ⟨(hfloor _).mp UInt32.le_rfl, fun f => (hfloor f).mpr⟩,
    hcanonical, size_ofIds ids, fun ids' heq => ?_⟩
  · rw [insertNew, Bool.not_eq_true', ← Bool.not_eq_true, hcontains, not_or]
  · refine (canonical_ofIds ids').eq_of_contains hcanonical fun x => ?_
    rw [contains_ofIds, heq, hcontains]

/-- The gaps at 1 and at 3 are closed in turn, and the second one takes 4 and 5 along. -/
example : let w := ofIds [5, 2, 4, 1, 2, 0, 3, 7]
    w.floor = 5 ∧ w.above.toList = [7] ∧ w.size = 6 := by decide +kernel

end Groupcast.Window
