import Std.Data.ExtTreeMap
import Std.Data.ExtTreeSet

/-!
# Recurring timers

A table of timers that fire once every period.  It never looks at a clock: its owner asks for the
earliest deadline, waits for it by whatever means, and then passes the time in.  All times are in
milliseconds.

`due` lists the keys that have come due, by deadline and then by key, and `advance` arms them again.
A timer that missed periods fires once and goes on from the present.
-/

namespace Groupcast

/-- When a key comes due.  Deadlines are ordered by time and then by key. -/
structure Deadline (κ : Type) where
  time : Nat
  key : κ
  deriving Repr, DecidableEq

namespace Deadline

variable {κ : Type} [Ord κ]

instance : Ord (Deadline κ) := ⟨compareLex (compareOn time) (compareOn key)⟩

instance [Std.TransOrd κ] : Std.TransOrd (Deadline κ) :=
  inferInstanceAs (Std.TransCmp (compareLex (compareOn time) (compareOn key)))

instance [Std.LawfulEqOrd κ] : Std.LawfulEqOrd (Deadline κ) where
  compare_self {a} := by
    change (compare a.time a.time).then (compare a.key a.key) = .eq
    simp
  eq_of_compare {a b} h := by
    change (compare a.time b.time).then (compare a.key b.key) = .eq at h
    rw [Ordering.then_eq_eq, Std.compare_eq_iff_eq, Std.compare_eq_iff_eq] at h
    cases a
    cases b
    simp_all

end Deadline

/-- A recurring timer. -/
structure Timer where
  period : Nat
  /-- When it fires next. -/
  deadline : Nat
  deriving Repr, DecidableEq

/-- A table of timers, and the same timers in the order in which they come due. -/
structure Timers (κ : Type) [Ord κ] where
  tasks : Std.ExtTreeMap κ Timer
  queue : Std.ExtTreeSet (Deadline κ)

namespace Timers

variable {κ : Type} [Ord κ] [Std.TransOrd κ]

/-- No timers. -/
def empty : Timers κ := ⟨∅, ∅⟩

/-- Whether there is a timer with a key. -/
def contains (t : Timers κ) (k : κ) : Bool := t.tasks.contains k

/-- The period of a timer. -/
def period? (t : Timers κ) (k : κ) : Option Nat := t.tasks[k]?.map Timer.period

/-- The number of timers. -/
def size (t : Timers κ) : Nat := t.tasks.size

/-- When the next timer comes due. -/
def nextDeadline? (t : Timers κ) : Option Nat := t.queue.min?.map Deadline.time

/-- Removes a timer, and tells whether there was one with that key. -/
def cancel (t : Timers κ) (k : κ) : Timers κ × Bool :=
  match t.tasks[k]? with
  | some task => ({ tasks := t.tasks.erase k, queue := t.queue.erase ⟨task.deadline, k⟩ }, true)
  | none => (t, false)

/-- Arms a timer to fire at `first` and then every period.  It replaces one with the same key. -/
def schedule (t : Timers κ) (k : κ) (first period : Nat) : Timers κ :=
  let rest := (t.cancel k).1
  { tasks := rest.tasks.insert k ⟨period, first⟩, queue := rest.queue.insert ⟨first, k⟩ }

/-- Changes the period of a timer, which then fires a new period from `now`, and tells whether there
is one with that key. -/
def reschedule (t : Timers κ) (k : κ) (period now : Nat) : Timers κ × Bool :=
  if t.contains k then (t.schedule k (now + period) period, true) else (t, false)

/-- The deadlines up to `now`, in order. -/
def fired (t : Timers κ) (now : Nat) : List (Deadline κ) :=
  t.queue.toList.takeWhile fun d => d.time ≤ now

/-- The keys that are due at `now`, in the order of their deadlines. -/
def due (t : Timers κ) (now : Nat) : List κ := (t.fired now).map Deadline.key

/-- The deadline after one that has passed: a period later, but not in the past. -/
def nextAfter (deadline period now : Nat) : Nat :=
  if deadline + period ≤ now then now + period else deadline + period

/-- Arms a timer again whose deadline has passed. -/
def rearm (now : Nat) (t : Timers κ) (d : Deadline κ) : Timers κ :=
  let queue := t.queue.erase d
  match t.tasks[d.key]? with
  | some task =>
    let next := nextAfter d.time task.period now
    { tasks := t.tasks.insert d.key ⟨task.period, next⟩, queue := queue.insert ⟨next, d.key⟩ }
  | none => { t with queue }

/-- Arms all timers again that are due at `now`. -/
def advance (t : Timers κ) (now : Nat) : Timers κ := (t.fired now).foldl (rearm now) t

end Timers

end Groupcast
