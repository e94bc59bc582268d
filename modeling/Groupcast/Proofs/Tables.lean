import Mathlib.Data.List.Sort
import Std.Data.ExtTreeMap
import Std.Data.ExtTreeSet

/-!
# Listing the values of a table

A table lists its values in the order of their keys (`values_eq_map_snd`), so a value is listed
exactly if some key has it (`mem_values_iff`).  `getElem?_foldl_insert` says what a table holds
into which the elements of a list have been entered under keys that are pairwise distinct.

Entries in ascending order of their numbers are the same if they are the same in any order
(`eq_of_ascending`), and so the entry with the least number of a table is listed before the rest of
it (`toList_eq_cons`).  So it is with the keys of a set, in the order of their type
(`eq_of_pairwise_lt`).  Without one of its keys a set or a table is smaller by one
(`size_erase_of_mem`, `size_erase_of_getElem?`).
-/

namespace Groupcast.Tables

open Std

variable {κ α β : Type} [Ord κ] [TransOrd κ]

theorem values_eq_map_snd (m : ExtTreeMap κ α) : m.values = m.toList.map Prod.snd := by
  obtain ⟨⟨m⟩⟩ := m
  induction m using Quotient.ind with
  | _ m =>
    show m.inner.values = (DTreeMap.Internal.Impl.Const.toList m.inner).map Prod.snd
    rw [DTreeMap.Internal.Impl.values_eq_map_snd,
      DTreeMap.Internal.Impl.Const.toList_eq_toListModel_map]
    simp

theorem mem_values_iff [LawfulEqOrd κ] {m : ExtTreeMap κ α} {a : α} :
    a ∈ m.values ↔ ∃ k : κ, m[k]? = some a := by
  rw [values_eq_map_snd, List.mem_map]
  constructor
  · rintro ⟨⟨k, b⟩, hmem, rfl⟩
    exact ⟨k, ExtTreeMap.mem_toList_iff_getElem?_eq_some.mp hmem⟩
  · rintro ⟨k, hk⟩
    exact ⟨(k, a), ExtTreeMap.mem_toList_iff_getElem?_eq_some.mpr hk, rfl⟩

/-- All that comes to be in a table has been entered. -/
theorem mem_of_getElem?_foldl_insert [LawfulEqOrd κ] [DecidableEq κ] {key : α → κ} {f : α → β}
    {as : List α} {m : ExtTreeMap κ β} {k : κ} {b : β}
    (h : (as.foldl (fun m a => m.insert (key a) (f a)) m)[k]? = some b) :
    m[k]? = some b ∨ ∃ a ∈ as, f a = b := by
  induction as generalizing m with
  | nil => exact Or.inl h
  | cons a as ih =>
    rcases ih h with hold | ⟨a', ha', hb⟩
    · rw [ExtTreeMap.getElem?_insert] at hold
      split at hold
      · cases hold
        exact Or.inr ⟨a, List.mem_cons_self, rfl⟩
      · exact Or.inl hold
    · exact Or.inr ⟨a', List.mem_cons_of_mem a ha', hb⟩

/-- A table with the elements of a list, each under a key of its own. -/
theorem getElem?_foldl_insert [LawfulEqOrd κ] [DecidableEq κ] (key : α → κ) (f : α → β)
    (as : List α) (m : ExtTreeMap κ β) (hdistinct : (as.map key).Nodup) (k : κ) :
    (as.foldl (fun m a => m.insert (key a) (f a)) m)[k]? =
      ((as.find? fun a => key a = k).map f).or m[k]? := by
  induction as generalizing m with
  | nil => simp
  | cons a as ih =>
    rw [List.map_cons, List.nodup_cons] at hdistinct
    rw [List.foldl_cons, ih _ hdistinct.2, ExtTreeMap.getElem?_insert, List.find?_cons]
    by_cases hk : key a = k
    · have hnone : (as.find? fun b => key b = k) = none := by
        rw [List.find?_eq_none]
        intro b hb hbk
        refine hdistinct.1 (List.mem_map.mpr ⟨b, hb, ?_⟩)
        rw [hk]
        exact of_decide_eq_true hbk
      simp [hk, hnone]
    · simp [hk]

/-! ## Listing entries -/

theorem mem_of_mem_toList [LawfulEqOrd κ] {m : ExtTreeMap κ α} {e : κ × α} (h : e ∈ m.toList) :
    e.1 ∈ m := by
  rw [ExtTreeMap.mem_iff_isSome_getElem?, ExtTreeMap.mem_toList_iff_getElem?_eq_some.mp h]
  rfl

theorem mem_toList_insert [LawfulEqOrd κ] {m : ExtTreeMap κ α} {k : κ} {a : α} {e : κ × α} :
    e ∈ (m.insert k a).toList ↔ e = (k, a) ∨ e.1 ≠ k ∧ e ∈ m.toList := by
  obtain ⟨k', b⟩ := e
  rw [ExtTreeMap.mem_toList_iff_getElem?_eq_some, ExtTreeMap.mem_toList_iff_getElem?_eq_some,
    ExtTreeMap.getElem?_insert, Prod.mk.injEq]
  by_cases hk : k = k'
  · simp [hk, eq_comm]
  · simp [hk, Ne.symm hk]

theorem mem_toList_erase [LawfulEqOrd κ] {m : ExtTreeMap κ α} {k : κ} {e : κ × α} :
    e ∈ (m.erase k).toList ↔ e.1 ≠ k ∧ e ∈ m.toList := by
  obtain ⟨k', b⟩ := e
  rw [ExtTreeMap.mem_toList_iff_getElem?_eq_some, ExtTreeMap.mem_toList_iff_getElem?_eq_some,
    ExtTreeMap.getElem?_erase]
  by_cases hk : k = k'
  · simp [hk]
  · simp [hk, Ne.symm hk]

theorem ascending_toList (m : ExtTreeMap UInt32 α) : m.toList.Pairwise (·.1 < ·.1) :=
  m.ordered_keys_toList.imp compare_eq_lt.mp

/-- In ascending order there is one list of the same entries. -/
theorem eq_of_ascending {l l' : List (UInt32 × α)} (h : l.Pairwise (·.1 < ·.1))
    (h' : l'.Pairwise (·.1 < ·.1)) (hmem : ∀ e, e ∈ l ↔ e ∈ l') : l = l' := by
  have : Std.Irrefl fun a b : UInt32 × α => a.1 < b.1 := ⟨fun a => UInt32.lt_irrefl a.1⟩
  have : Std.Antisymm fun a b : UInt32 × α => a.1 < b.1 :=
    ⟨fun _ _ hab hba => absurd hab (UInt32.lt_asymm hba)⟩
  exact h.eq_of_mem_iff h' hmem

/-- The entry with the least number comes first. -/
theorem toList_eq_cons {m : ExtTreeMap UInt32 α} {k : UInt32} {a : α} (hk : m[k]? = some a)
    (hleast : ∀ k' ∈ m, k ≤ k') : m.toList = (k, a) :: (m.erase k).toList := by
  refine eq_of_ascending (ascending_toList m)
    (List.pairwise_cons.mpr ⟨fun e he => ?_, ascending_toList _⟩) fun e => ?_
  · obtain ⟨hne, he⟩ := mem_toList_erase.mp he
    exact UInt32.lt_of_le_of_ne (hleast e.1 (mem_of_mem_toList he)) hne.symm
  · have hmem : (k, a) ∈ m.toList := ExtTreeMap.mem_toList_iff_getElem?_eq_some.mpr hk
    rw [List.mem_cons, mem_toList_erase]
    constructor
    · intro he
      by_cases hek : e.1 = k
      · have hget : m[e.1]? = some e.2 := ExtTreeMap.mem_toList_iff_getElem?_eq_some.mp he
        rw [hek, hk] at hget
        exact Or.inl (Prod.ext hek (Option.some.inj hget).symm)
      · exact Or.inr ⟨hek, he⟩
    · rintro (rfl | ⟨-, he⟩)
      · exact hmem
      · exact he

/-! ## Sets of keys -/

/-- Keys in the order of their type are pairwise distinct. -/
theorem nodup_of_pairwise_lt {ks : List κ} (h : ks.Pairwise fun a b => compare a b = .lt) :
    ks.Nodup := h.imp fun {a b} hlt heq => by
  rw [heq, compare_self] at hlt
  cases hlt

/-- In the order of their type there is one list of the same keys. -/
theorem eq_of_pairwise_lt [LawfulEqOrd κ] {ks ks' : List κ}
    (h : ks.Pairwise fun a b => compare a b = .lt) (h' : ks'.Pairwise fun a b => compare a b = .lt)
    (hmem : ∀ k, k ∈ ks ↔ k ∈ ks') : ks = ks' := by
  have : Std.Irrefl fun a b : κ => compare a b = .lt :=
    ⟨fun _ ha => by rw [compare_self] at ha; cases ha⟩
  have : Std.Antisymm fun a b : κ => compare a b = .lt :=
    ⟨fun _ _ hab hba => absurd hba (OrientedCmp.not_lt_of_lt hab)⟩
  exact h.eq_of_mem_iff h' hmem

theorem ascending_keys (s : ExtTreeSet UInt32) : s.toList.Pairwise (· < ·) :=
  s.ordered_toList.imp compare_eq_lt.mp

/-! ## Taking keys out -/

theorem mem_foldl_erase [LawfulEqOrd κ] {s : ExtTreeSet κ} {ks : List κ} {k : κ} :
    k ∈ ks.foldl ExtTreeSet.erase s ↔ k ∈ s ∧ k ∉ ks := by
  induction ks generalizing s with
  | nil => simp
  | cons k' ks ih =>
    rw [List.foldl_cons, ih, ExtTreeSet.mem_erase, ne_eq, Std.compare_eq_iff_eq, List.mem_cons,
      not_or, and_comm (a := ¬ k' = k), and_assoc, eq_comm]

theorem size_erase_of_mem {s : ExtTreeSet κ} {k : κ} (h : k ∈ s) :
    (s.erase k).size + 1 = s.size := by
  have hpos : s.size ≠ 0 := fun hz => by
    rw [ExtTreeSet.eq_empty_iff_size_eq_zero.mpr hz] at h
    exact ExtTreeSet.not_mem_empty h
  rw [ExtTreeSet.size_erase, if_pos (ExtTreeSet.contains_iff_mem.mpr h)]
  omega

theorem size_erase_of_getElem? {m : ExtTreeMap κ α} {k : κ} {a : α} (h : m[k]? = some a) :
    (m.erase k).size + 1 = m.size := by
  have hmem : k ∈ m := ExtTreeMap.mem_iff_isSome_getElem?.mpr (h ▸ rfl)
  have hpos : m.size ≠ 0 := fun hz => by
    rw [ExtTreeMap.eq_empty_iff_size_eq_zero.mpr hz] at hmem
    exact ExtTreeMap.not_mem_empty hmem
  rw [ExtTreeMap.size_erase, if_pos (ExtTreeMap.contains_iff_mem.mpr hmem)]
  omega

end Groupcast.Tables
