import Std.Data.ExtTreeSet

/-!
# Windows of link ids

A window is a set of link ids.  Ids are handed out densely from one, so all ids up to the floor
are members and need not be stored; only those above it are.  Membership is exact, and nothing is
ever forgotten.
-/

namespace Groupcast

/-- A set of link ids: those up to `floor`, and those in `above`. -/
structure Window where
  floor : UInt32
  above : Std.ExtTreeSet UInt32
  deriving DecidableEq

namespace Window

/-- The window without ids. -/
def empty : Window := ⟨0, ∅⟩

/-- Whether an id is in the window.  The id zero, which is never handed out, always is. -/
def contains (w : Window) (id : UInt32) : Bool := id ≤ w.floor || w.above.contains id

/-- Raises the floor over ids that are stored next to it, at most `n` times. -/
def compact : Nat → Window → Window
  | 0, w => w
  | n + 1, w =>
    if w.above.contains (w.floor + 1) then
      compact n ⟨w.floor + 1, w.above.erase (w.floor + 1)⟩
    else w

/-- Adds an id. -/
def insert (w : Window) (id : UInt32) : Window :=
  if w.contains id then w
  else
    let above := w.above.insert id
    compact above.size ⟨w.floor, above⟩

/-- Adds an id, and tells whether it is new. -/
def insertNew (w : Window) (id : UInt32) : Window × Bool := (w.insert id, !w.contains id)

/-- Adds ids in order, and counts those that are new. -/
def insertAll (w : Window) : List UInt32 → Window × Nat
  | [] => (w, 0)
  | id :: ids =>
    let (w', n) := (w.insert id).insertAll ids
    (w', if w.contains id then n else n + 1)

/-- The number of ids. -/
def size (w : Window) : Nat := w.floor.toNat + w.above.size

/-- The number of ids that are stored one by one. -/
def sparse (w : Window) : Nat := w.above.size

end Window

end Groupcast
