import Groupcast.Host
import Mathlib.Data.List.Nodup
import Mathlib.Data.List.Perm.Subperm

/-!
# Choices from a group

Lists of distinct members of a group, counted.  A choice is all of the group exactly if it is as
long (`forall_mem_iff_length_eq`), and two majorities share a member (`exists_mem_of_quorum`).
-/

namespace Groupcast

variable {members A B : List HostId}

/-- Distinct members are no more than the members. -/
theorem length_le_of_nodup (hA : A.Nodup) (hsub : ∀ id ∈ A, id ∈ members) :
    A.length ≤ members.length :=
  (List.subperm_of_subset hA hsub).length_le

/-- Distinct members are all members exactly if they are as many. -/
theorem forall_mem_iff_length_eq (hmembers : members.Nodup) (hA : A.Nodup)
    (hsub : ∀ id ∈ A, id ∈ members) :
    (∀ id ∈ members, id ∈ A) ↔ A.length = members.length := by
  have hle := length_le_of_nodup hA hsub
  constructor
  · intro hall
    exact Nat.le_antisymm hle (length_le_of_nodup hmembers hall)
  · intro heq id hid
    have hperm := (List.subperm_of_subset hA hsub).perm_of_length_le (Nat.le_of_eq heq.symm)
    exact hperm.mem_iff.mpr hid

/-- **Two majorities share a member.** -/
theorem exists_mem_of_quorum (hA : A.Nodup) (hB : B.Nodup) (hAsub : ∀ id ∈ A, id ∈ members)
    (hBsub : ∀ id ∈ B, id ∈ members) (hAquorum : quorum members.length ≤ A.length)
    (hBquorum : quorum members.length ≤ B.length) : ∃ id ∈ A, id ∈ B := by
  by_contra hdisjoint
  push Not at hdisjoint
  have hnodup : (A ++ B).Nodup := by
    refine List.nodup_append.mpr ⟨hA, hB, ?_⟩
    rintro a ha b hb rfl
    exact hdisjoint a ha hb
  have hle : (A ++ B).length ≤ members.length := by
    refine length_le_of_nodup hnodup ?_
    intro id hid
    rcases List.mem_append.mp hid with h | h
    · exact hAsub id h
    · exact hBsub id h
  rw [List.length_append] at hle
  rw [quorum] at hAquorum hBquorum
  omega

end Groupcast
