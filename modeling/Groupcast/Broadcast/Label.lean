import Groupcast.Message
import Std.Data.ExtTreeSet

/-!
# Labels

A broadcast message is known by the host that it comes from and the number that this host has given
it; members that relay it never change either.  Labels are ordered by host and then by number.
-/

namespace Groupcast

/-- The name of a broadcast message. -/
structure Label where
  host : HostId
  number : UInt32
  deriving Repr, DecidableEq

namespace Label

instance : Ord Label := ⟨compareLex (compareOn host) (compareOn number)⟩

instance : Std.TransOrd Label :=
  inferInstanceAs (Std.TransCmp (compareLex (compareOn host) (compareOn number)))

instance : Std.LawfulEqOrd Label where
  compare_self {a} := by
    change (compare a.host a.host).then (compare a.number a.number) = .eq
    simp
  eq_of_compare {a b} h := by
    change (compare a.host b.host).then (compare a.number b.number) = .eq at h
    rw [Ordering.then_eq_eq, Std.compare_eq_iff_eq, Std.compare_eq_iff_eq] at h
    cases a
    cases b
    simp_all

/-- The label of a message that its origin has given an id. -/
def ofMessage (m : Message) : Label := ⟨m.sender, m.id⟩

end Label

end Groupcast
