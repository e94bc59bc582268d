import Mathlib.Data.List.Forall2

/-!
# The first fault in a list

A list is read element by element up to the first one that is at fault.  `First good a as` says that
`a` is that element: those before it are good, and it is not.  A list either is good all through or
has a first fault (`forall_or_first`).

A reader that stops at the first fault has a value to give only in the first case
(`exists_forall₂`), and in the second one the error of that element.
-/

namespace Groupcast

variable {α β : Type}

/-- The element `a` is the first one of a list that is not good. -/
inductive First (good : α → Prop) (a : α) : List α → Prop
  | here {as : List α} (hbad : ¬ good a) : First good a (a :: as)
  | later {b : α} {as : List α} (hgood : good b) (hfirst : First good a as) :
      First good a (b :: as)

variable {good : α → Prop} {a : α} {as : List α}

theorem First.not_good (h : First good a as) : ¬ good a := by
  induction h with
  | here hbad => exact hbad
  | later _ _ ih => exact ih

theorem First.congr {good' : α → Prop} (h : First good a as) (hiff : ∀ a, good a ↔ good' a) :
    First good' a as := by
  induction h with
  | here hbad => exact .here ((hiff _).not.mp hbad)
  | later hgood _ ih => exact .later ((hiff _).mp hgood) ih

theorem forall_or_first (good : α → Prop) (as : List α) :
    (∀ a ∈ as, good a) ∨ ∃ a, First good a as := by
  induction as with
  | nil => exact Or.inl nofun
  | cons a as ih =>
    by_cases ha : good a
    · rcases ih with hall | ⟨b, hb⟩
      · exact Or.inl (List.forall_mem_cons.mpr ⟨ha, hall⟩)
      · exact Or.inr ⟨b, .later ha hb⟩
    · exact Or.inr ⟨a, .here ha⟩

/-- Related values for all elements make up a list. -/
theorem exists_forall₂ {R : α → β → Prop} (h : ∀ a ∈ as, ∃ b, R a b) :
    ∃ bs, List.Forall₂ R as bs := by
  induction as with
  | nil => exact ⟨[], .nil⟩
  | cons a as ih =>
    obtain ⟨⟨b, hb⟩, has⟩ := List.forall_mem_cons.mp h
    obtain ⟨bs, hbs⟩ := ih has
    exact ⟨b :: bs, .cons hb hbs⟩

end Groupcast
