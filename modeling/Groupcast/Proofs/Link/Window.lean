import Groupcast.Link.Window

/-!
# Membership in a window of link ids

A window stores the ids up to its floor only as that floor, and raises the floor whenever the id
next to it has come in.  Raising changes what is stored and not what the window contains
(`contains_raise`), so an id that is added is the only one that comes to be in it
(`contains_insert`).

All of this rests on `Sound`: the id zero, which counts as present without having been added, is
never stored, and so the floor cannot be raised past the greatest id.
-/

namespace Groupcast

theorem UInt32.toNat_succ {a : UInt32} (h : a + 1 ≠ 0) : (a + 1).toNat = a.toNat + 1 := by
  have hlt := a.toNat_lt
  have hadd : (a + 1).toNat = (a.toNat + 1) % 2 ^ 32 := UInt32.toNat_add a 1
  have hne : (a + 1).toNat ≠ 0 := fun hz => h (UInt32.toNat_inj.mp hz)
  omega

namespace Window

/-- The id zero is not stored. -/
def Sound (w : Window) : Prop := (0 : UInt32) ∉ w.above

theorem contains_iff {w : Window} {id : UInt32} :
    w.contains id = true ↔ id ≤ w.floor ∨ id ∈ w.above := by
  simp [contains]

@[simp] theorem contains_zero (w : Window) : w.contains 0 = true :=
  contains_iff.mpr (Or.inl (UInt32.le_iff_toNat_le.mpr (Nat.zero_le _)))

@[simp] theorem contains_empty {id : UInt32} : empty.contains id = true ↔ id = 0 := by
  rw [contains_iff]
  simp [empty]

theorem sound_empty : empty.Sound := by
  simp [Sound, empty]

/-! ## Raising the floor -/

/-- Raising the floor over the id next to it leaves the same ids in the window. -/
theorem contains_raise {w : Window} (h : w.Sound) (hnext : w.floor + 1 ∈ w.above) (id : UInt32) :
    (⟨w.floor + 1, w.above.erase (w.floor + 1)⟩ : Window).contains id = true ↔
      w.contains id = true := by
  have hne : w.floor + 1 ≠ 0 := fun hz => h (hz ▸ hnext)
  have hsucc : (w.floor + 1).toNat = w.floor.toNat + 1 := UInt32.toNat_succ hne
  rw [contains_iff, contains_iff]
  simp only [Std.ExtTreeSet.mem_erase, UInt32.le_iff_toNat_le, hsucc]
  by_cases hid : id = w.floor + 1
  · subst hid
    simp [hsucc, hnext]
  · have hid' : id.toNat ≠ w.floor.toNat + 1 := fun hn => hid (UInt32.toNat_inj.mp (hsucc ▸ hn))
    have hcmp : compare (w.floor + 1) id ≠ .eq := fun hc => hid (Std.compare_eq_iff_eq.mp hc).symm
    have hle : id.toNat ≤ w.floor.toNat + 1 ↔ id.toNat ≤ w.floor.toNat := by omega
    rw [hle]
    simp [hcmp]

theorem sound_raise {w : Window} (h : w.Sound) :
    (⟨w.floor + 1, w.above.erase (w.floor + 1)⟩ : Window).Sound := by
  intro hz
  exact h (Std.ExtTreeSet.mem_of_mem_erase hz)

theorem contains_compact (n : Nat) {w : Window} (h : w.Sound) (id : UInt32) :
    (compact n w).contains id = true ↔ w.contains id = true := by
  induction n generalizing w with
  | zero => rfl
  | succ n ih =>
    rw [compact]
    split
    · rename_i hnext
      rw [ih (sound_raise h), contains_raise h (Std.ExtTreeSet.contains_iff_mem.mp hnext)]
    · rfl

theorem sound_compact (n : Nat) {w : Window} (h : w.Sound) : (compact n w).Sound := by
  induction n generalizing w with
  | zero => exact h
  | succ n ih =>
    rw [compact]
    split
    · exact ih (sound_raise h)
    · exact h

/-! ## Adding an id -/

/-- Storing an id that is not in the window keeps the window sound. -/
theorem sound_store {w : Window} (h : w.Sound) {id : UInt32} (hnew : w.contains id = false) :
    (⟨w.floor, w.above.insert id⟩ : Window).Sound := by
  intro hz
  rcases Std.ExtTreeSet.mem_insert.mp hz with heq | hmem
  · rw [Std.compare_eq_iff_eq.mp heq, contains_zero] at hnew
    cases hnew
  · exact h hmem

theorem sound_insert {w : Window} (h : w.Sound) (id : UInt32) : (w.insert id).Sound := by
  rw [insert]
  split
  · exact h
  · rename_i hnew
    exact sound_compact _ (sound_store h (by simpa using hnew))

/-- **Adding an id adds that id and no other.** -/
theorem contains_insert {w : Window} (h : w.Sound) (id x : UInt32) :
    (w.insert id).contains x = true ↔ x = id ∨ w.contains x = true := by
  rw [insert]
  split
  · rename_i hold
    constructor
    · exact Or.inr
    · rintro (rfl | hx)
      · exact hold
      · exact hx
  · rename_i hnew
    rw [contains_compact _ (sound_store h (by simpa using hnew)), contains_iff, contains_iff]
    simp only [Std.ExtTreeSet.mem_insert, Std.compare_eq_iff_eq]
    constructor
    · rintro (hx | rfl | hx)
      · exact Or.inr (Or.inl hx)
      · exact Or.inl rfl
      · exact Or.inr (Or.inr hx)
    · rintro (rfl | hx | hx)
      · exact Or.inr (Or.inl rfl)
      · exact Or.inl hx
      · exact Or.inr (Or.inr hx)

end Window

end Groupcast
