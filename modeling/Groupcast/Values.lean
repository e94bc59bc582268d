import Std.Data.ExtTreeSet

/-!
# Value sets

What a group agrees on: finite sets of values, ordered by inclusion and joined by union.  A set
lists its members in ascending order, and two sets with the same members are equal.
-/

namespace Groupcast

/-- The number of an instance of agreement. -/
abbrev Slot := UInt32

/-- A value that can be proposed. -/
abbrev Value := UInt32

/-- A finite set of values. -/
abbrev ValueSet := Std.ExtTreeSet Value

namespace ValueSet

/-- The set of the listed values; order and repetition are immaterial. -/
def ofList (values : List Value) : ValueSet := Std.ExtTreeSet.ofList values

/-- Whether every member of `small` is a member of `large`. -/
def includes (large small : ValueSet) : Bool := small.toList.all fun v => large.contains v

@[simp] theorem mem_ofList {values : List Value} {v : Value} : v ∈ ofList values ↔ v ∈ values := by
  simp [ofList]

@[simp] theorem includes_eq_true {large small : ValueSet} :
    large.includes small = true ↔ ∀ v ∈ small, v ∈ large := by
  simp [includes]

end ValueSet

end Groupcast
