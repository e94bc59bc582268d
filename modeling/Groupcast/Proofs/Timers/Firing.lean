import Groupcast.Proofs.Timers.Regular
import Mathlib.Order.Bounds.Basic

/-!
# How timers fire

Timers fire in two passes (`Fires`).  First the earliest deadline is taken out of the queue as long
as it has come (`Drains`), and only then are the timers that have fired armed again; a timer with
the period zero is due again at once and still fires once.  The first pass ends because the queue
gets shorter (`exists_drains`), and the two together do what `due` and `advance` say (`fires_iff`).

The main statement says what a table of timers is after any calls, with times that may go
backwards and periods that may be zero, and what fires then (`exact_after_calls`).
-/

namespace Groupcast

/-- What a timer that fires at `now` is armed as. -/
structure Timer.Rearmed (now : Nat) (task task' : Timer) : Prop where
  period : task'.period = task.period
  /-- It fires a period after its last deadline, or if that has passed, a period from now. -/
  deadline : task'.deadline =
    if now < task.deadline + task.period then task.deadline + task.period else now + task.period
  later : 0 < task.period → now < task'.deadline ∧ task'.deadline ≤ now + task.period
  atOnce : task.period = 0 → task'.deadline = now

theorem Timer.rearmed_advance {task : Timer} {now : Nat} (h : task.deadline ≤ now) :
    task.Rearmed now (task.advance now) := by
  have hdeadline : (task.advance now).deadline =
      if now < task.deadline + task.period then task.deadline + task.period
      else now + task.period := by
    rw [advance, if_pos h]
    show Timers.nextAfter task.deadline task.period now = _
    rw [Timers.nextAfter]
    split <;> split <;> omega
  refine ⟨task.period_advance now, hdeadline, fun hpos => ?_, fun hzero => ?_⟩
  · refine ⟨Timer.lt_deadline_advance hpos now, ?_⟩
    rw [hdeadline]
    split <;> omega
  · rw [hdeadline]
    split <;> omega

namespace Timers

variable {κ : Type} [Ord κ] [Std.TransOrd κ]

/-! ## Firing and the other calls -/

/-- The first deadline is taken out of a queue again and again, as long as it has come. -/
inductive Drains (now : Nat) : Std.ExtTreeSet (Deadline κ) → List (Deadline κ) →
    Std.ExtTreeSet (Deadline κ) → Prop
  | done {queue : Std.ExtTreeSet (Deadline κ)} (hahead : ∀ d ∈ queue.min?, now < d.time) :
      Drains now queue [] queue
  | next {queue rest : Std.ExtTreeSet (Deadline κ)} {d : Deadline κ} {ds : List (Deadline κ)}
      (hfirst : queue.min? = some d) (hdue : d.time ≤ now)
      (hrest : Drains now (queue.erase d) ds rest) : Drains now queue (d :: ds) rest

/-- Arms a timer again whose deadline has been taken out of the queue. -/
def restart (now : Nat) (t : Timers κ) (d : Deadline κ) : Timers κ :=
  match t.tasks[d.key]? with
  | some task =>
    let next := nextAfter d.time task.period now
    { tasks := t.tasks.insert d.key ⟨task.period, next⟩, queue := t.queue.insert ⟨next, d.key⟩ }
  | none => t

/-- The timers with these keys fire at `now`, in this order, and the table is `t'` after that. -/
inductive Fires (now : Nat) (t : Timers κ) : List κ → Timers κ → Prop
  | mk {ds : List (Deadline κ)} {rest : Std.ExtTreeSet (Deadline κ)}
      (hdrains : Drains now t.queue ds rest) :
      Fires now t (ds.map Deadline.key) (ds.foldl (restart now) { t with queue := rest })

/-- A call to a table of timers, with any arguments. -/
inductive Call (κ : Type) where
  | schedule (k : κ) (first period : Nat)
  | reschedule (k : κ) (period now : Nat)
  | cancel (k : κ)
  | cancelAll
  | advance (now : Nat)
  deriving DecidableEq

/-- The table after a call. -/
def take (t : Timers κ) : Call κ → Timers κ
  | .schedule k first period => t.schedule k first period
  | .reschedule k period now => (t.reschedule k period now).1
  | .cancel k => (t.cancel k).1
  | .cancelAll => empty
  | .advance now => t.advance now

/-- The table after a run of calls. -/
def ofCalls (calls : List (Call κ)) : Timers κ := calls.foldl take empty

variable {now : Nat} {queue rest : Std.ExtTreeSet (Deadline κ)} {ds : List (Deadline κ)}
  {d : Deadline κ} {t t' : Timers κ} {keys : List κ}

/-! ## Taking deadlines out of the queue -/

theorem Drains.rest_eq (h : Drains now queue ds rest) :
    rest = ds.foldl Std.ExtTreeSet.erase queue := by
  induction h with
  | done _ => rfl
  | next _ _ _ ih => exact ih

variable [Std.LawfulEqOrd κ]

/-- A queue runs out of deadlines that have come, since it gets shorter with each. -/
theorem exists_drains (now : Nat) (queue : Std.ExtTreeSet (Deadline κ)) :
    ∃ ds rest, Drains now queue ds rest := by
  cases hmin : queue.min? with
  | none => exact ⟨[], queue, .done fun d hd => by rw [hmin] at hd; cases hd⟩
  | some d =>
    by_cases hdue : d.time ≤ now
    · have hshrinks := Tables.size_erase_of_mem
        (Std.ExtTreeSet.min?_eq_some_iff_mem_and_forall.mp hmin).1
      obtain ⟨ds, rest, hrest⟩ := exists_drains now (queue.erase d)
      exact ⟨d :: ds, rest, .next hmin hdue hrest⟩
    · refine ⟨[], queue, .done fun e he => ?_⟩
      rw [hmin] at he
      cases he
      exact Nat.lt_of_not_le hdue
termination_by queue.size
decreasing_by omega

/-- What is taken out are the deadlines that have come. -/
theorem Drains.mem_iff (h : Drains now queue ds rest) : d ∈ ds ↔ d ∈ queue ∧ d.time ≤ now := by
  induction h with
  | @done queue hahead =>
    refine iff_of_false List.not_mem_nil fun ⟨hmem, hdue⟩ => ?_
    obtain ⟨first, hfirst⟩ := Option.isSome_iff_exists.mp (Std.ExtTreeSet.isSome_min?_of_mem hmem)
    have hle := (Std.ExtTreeSet.min?_eq_some_iff_mem_and_forall.mp hfirst).2 d hmem
    have hlt := hahead first hfirst
    have htime := Deadline.time_le_of_isLE hle
    omega
  | @next queue _ first _ hfirst hdue _ ih =>
    have hmem := (Std.ExtTreeSet.min?_eq_some_iff_mem_and_forall.mp hfirst).1
    rw [List.mem_cons, ih, Std.ExtTreeSet.mem_erase, ne_eq, Std.compare_eq_iff_eq]
    constructor
    · rintro (rfl | ⟨⟨-, hold⟩, htime⟩)
      · exact ⟨hmem, hdue⟩
      · exact ⟨hold, htime⟩
    · rintro ⟨hold, htime⟩
      by_cases hd : first = d
      · exact Or.inl hd.symm
      · exact Or.inr ⟨⟨hd, hold⟩, htime⟩

/-- Deadlines are taken out in their order. -/
theorem Drains.pairwise (h : Drains now queue ds rest) :
    ds.Pairwise fun a b => compare a b = .lt := by
  induction h with
  | done _ => exact .nil
  | @next queue _ first _ hfirst _ hrest ih =>
    refine List.pairwise_cons.mpr ⟨fun e he => ?_, ih⟩
    obtain ⟨hne, hold⟩ := Std.ExtTreeSet.mem_erase.mp (hrest.mem_iff.mp he).1
    have hle := (Std.ExtTreeSet.min?_eq_some_iff_mem_and_forall.mp hfirst).2 e hold
    exact (Ordering.isLE_iff_eq_lt_or_eq_eq.mp hle).resolve_right hne

theorem Drains.eq_fired (h : Drains now t.queue ds rest) : ds = t.fired now :=
  Tables.eq_of_pairwise_lt h.pairwise (pairwise_fired t now) fun _ =>
    h.mem_iff.trans mem_fired_iff.symm

/-! ## Arming timers again in a pass of its own -/

omit [Std.LawfulEqOrd κ] in
theorem rearm_eq_restart (now : Nat) (t : Timers κ) (d : Deadline κ) :
    rearm now t d = restart now { t with queue := t.queue.erase d } d := by
  cases htask : t.tasks[d.key]? <;> simp only [rearm, restart, htask]

/-- Taking out the deadlines of other timers before a timer is armed comes to the same as taking
them out after that. -/
theorem erase_restart (hother : ∀ e ∈ ds, e.key ≠ d.key) :
    { restart now t d with queue := ds.foldl Std.ExtTreeSet.erase (restart now t d).queue } =
      restart now { t with queue := ds.foldl Std.ExtTreeSet.erase t.queue } d := by
  cases htask : t.tasks[d.key]? with
  | none => simp only [restart, htask]
  | some task =>
    simp only [restart, htask]
    -- the deadline that is entered is none of those that are taken out
    have hnew : ∀ time, (⟨time, d.key⟩ : Deadline κ) ∉ ds := fun _ hmem => hother _ hmem rfl
    refine congrArg (Timers.mk _) (Std.ExtTreeSet.ext_mem fun e => ?_)
    simp only [Tables.mem_foldl_erase, Std.ExtTreeSet.mem_insert, Std.compare_eq_iff_eq,
      or_and_right]
    exact or_congr_left (and_iff_left_of_imp fun heq => heq ▸ hnew _)

/-- Arming timers again one after the other is the same as taking all their deadlines out first. -/
theorem foldl_rearm_eq (hnodup : (ds.map Deadline.key).Nodup) : ds.foldl (rearm now) t =
    ds.foldl (restart now) { t with queue := ds.foldl Std.ExtTreeSet.erase t.queue } := by
  induction ds generalizing t with
  | nil => rfl
  | cons d ds ih =>
    rw [List.map_cons, List.nodup_cons] at hnodup
    have hother : ∀ e ∈ ds, e.key ≠ d.key := fun e he hkey =>
      hnodup.1 (hkey ▸ List.mem_map_of_mem he)
    rw [List.foldl_cons, ih hnodup.2, rearm_eq_restart, erase_restart hother]
    rfl

/-- **Firing comes to an end, and does what `due` and `advance` say.** -/
theorem fires_iff (h : t.Consistent) :
    Fires now t keys t' ↔ keys = t.due now ∧ t' = t.advance now := by
  have hresult : ∀ {ds rest}, Drains now t.queue ds rest → ds.map Deadline.key = t.due now ∧
      ds.foldl (restart now) { t with queue := rest } = t.advance now := by
    intro ds rest hdrains
    rw [hdrains.rest_eq, hdrains.eq_fired]
    exact ⟨rfl, (foldl_rearm_eq (nodup_due h now)).symm⟩
  constructor
  · rintro ⟨hdrains⟩
    exact hresult hdrains
  · rintro ⟨rfl, rfl⟩
    obtain ⟨ds, rest, hdrains⟩ := exists_drains now t.queue
    obtain ⟨hkeys, htable⟩ := hresult hdrains
    rw [← hkeys, ← htable]
    exact .mk hdrains

/-! ## Any calls -/

/-- Every live timer is in the queue once. -/
theorem perm_keys_queue (h : t.Consistent) :
    (t.queue.toList.map Deadline.key).Perm t.tasks.keys := by
  have hnodup := nodup_map_key h t.queue.ordered_toList fun _ => Std.ExtTreeSet.mem_toList.mp
  refine (List.perm_ext_iff_of_nodup hnodup Std.ExtTreeMap.nodup_keys).mpr fun k => ?_
  rw [List.mem_map, Std.ExtTreeMap.mem_keys, Std.ExtTreeMap.mem_iff_isSome_getElem?,
    Option.isSome_iff_exists]
  constructor
  · rintro ⟨d, hd, rfl⟩
    obtain ⟨task, htask, -⟩ :=
      Option.map_eq_some_iff.mp ((h d).mp (Std.ExtTreeSet.mem_toList.mp hd))
    exact ⟨task, htask⟩
  · rintro ⟨task, htask⟩
    refine ⟨⟨task.deadline, k⟩, Std.ExtTreeSet.mem_toList.mpr ((h _).mpr ?_), rfl⟩
    rw [htask]
    rfl

/-- The next deadline is the least one. -/
theorem nextDeadline?_eq_some_iff (h : t.Consistent) {time : Nat} : t.nextDeadline? = some time ↔
    IsLeast {time | ∃ (k : κ) (task : Timer), t.tasks[k]? = some task ∧ task.deadline = time}
      time := by
  constructor
  · intro hnext
    refine ⟨h.exists_task hnext, ?_⟩
    rintro _ ⟨k, task, htask, rfl⟩
    obtain ⟨time', hnext', hle⟩ := nextDeadline?_le h htask
    rw [hnext] at hnext'
    cases hnext'
    exact hle
  · rintro ⟨⟨k, task, htask, rfl⟩, hleast⟩
    obtain ⟨time, hnext, hle⟩ := nextDeadline?_le h htask
    rw [hnext, Nat.le_antisymm hle (hleast (h.exists_task hnext))]

/-- What is due is in the order of the deadlines and then of the keys. -/
theorem pairwise_due (h : t.Consistent) (now : Nat) : (t.due now).Pairwise fun i j =>
    ∀ a b : Timer, t.tasks[i]? = some a → t.tasks[j]? = some b →
      a.deadline < b.deadline ∨ a.deadline = b.deadline ∧ compare i j = .lt := by
  rw [due, List.pairwise_map]
  refine (pairwise_fired t now).imp_of_mem fun {d e} hd he hlt a b ha hb => ?_
  have hda := (h d).mp (mem_fired_iff.mp hd).1
  have heb := (h e).mp (mem_fired_iff.mp he).1
  rw [ha, Option.map_some, Option.some.injEq] at hda
  rw [hb, Option.map_some, Option.some.injEq] at heb
  rw [hda, heb]
  exact Deadline.compare_eq_lt_iff.mp hlt

variable [DecidableEq κ]

theorem consistent_take (h : t.Consistent) (c : Call κ) : (t.take c).Consistent := by
  cases c with
  | schedule k first period => exact consistent_schedule h k first period
  | reschedule k period now => exact consistent_reschedule h k period now
  | cancel k => exact consistent_cancel h
  | cancelAll => exact consistent_empty
  | advance now => exact consistent_advance h now

theorem consistent_ofCalls (calls : List (Call κ)) : (ofCalls calls).Consistent :=
  List.foldlRecOn calls take consistent_empty fun _ h c _ => consistent_take h c

/-- All that fires is armed again. -/
theorem exists_rearmed (h : t.Consistent) {k : κ} (hk : k ∈ t.due now) :
    ∃ task task', t.tasks[k]? = some task ∧ (t.advance now).tasks[k]? = some task' ∧
      task.Rearmed now task' := by
  obtain ⟨task, htask, hdue⟩ := (mem_due_iff h).mp hk
  refine ⟨task, task.advance now, htask, ?_, Timer.rearmed_advance hdue⟩
  rw [getElem?_tasks_advance h, htask]
  rfl

/-- What does not fire stays as it is. -/
theorem getElem?_tasks_advance_of_not_mem (h : t.Consistent) {k : κ} (hk : k ∉ t.due now) :
    (t.advance now).tasks[k]? = t.tasks[k]? := by
  rw [getElem?_tasks_advance h]
  cases htask : t.tasks[k]? with
  | none => rfl
  | some task =>
    have hlate : now < task.deadline := Nat.lt_of_not_le fun hdue =>
      hk ((mem_due_iff h).mpr ⟨task, htask, hdue⟩)
    rw [Option.map_some, Timer.advance_of_lt hlate]

/-- If all that fires has a positive period, then nothing fires twice. -/
theorem due_advance_eq_nil (h : t.Consistent)
    (hpos : ∀ k ∈ t.due now, ∀ task, t.tasks[k]? = some task → 0 < task.period) :
    (t.advance now).due now = [] := by
  refine List.eq_nil_iff_forall_not_mem.mpr fun k hk => ?_
  obtain ⟨task', htask', hdue'⟩ := (mem_due_iff (consistent_advance h now)).mp hk
  by_cases hfires : k ∈ t.due now
  · obtain ⟨task, task'', htask, htask'', hrearmed⟩ := exists_rearmed h hfires
    have hlater := (hrearmed.later (hpos k hfires task htask)).1
    rw [htask''] at htask'
    cases htask'
    omega
  · rw [getElem?_tasks_advance_of_not_mem h hfires] at htask'
    exact hfires ((mem_due_iff h).mpr ⟨task', htask', hdue'⟩)

/-- **A table of timers after any calls, and what fires then.**

Let a table be called with anything, times that go backwards and periods that are zero included.
Then its queue holds the deadlines of the timers in the table and nothing else, every timer is in
it once, and the next deadline is the least one.

When the timers are to fire at any time, then this comes to an end, and only the keys `t.due now`
fire: those of the timers whose deadlines have come, each once, in the order of the deadlines and
then of the keys.  Each of them is armed again as `Timer.Rearmed` says, and no other timer changes.
If those that have fired have positive periods, then nothing fires if they are to fire at the same
time again. -/
theorem exact_after_calls (calls : List (Call κ)) (now : Nat) :
    let t := ofCalls calls
    (∀ d, d ∈ t.queue ↔ ∃ task, t.tasks[d.key]? = some task ∧ task.deadline = d.time) ∧
      (t.queue.toList.map Deadline.key).Perm t.tasks.keys ∧
      (∀ time, t.nextDeadline? = some time ↔ IsLeast
        {time | ∃ (k : κ) (task : Timer), t.tasks[k]? = some task ∧ task.deadline = time} time) ∧
      (∀ keys t', Fires now t keys t' ↔ keys = t.due now ∧ t' = t.advance now) ∧
      (∀ k, k ∈ t.due now ↔ ∃ task, t.tasks[k]? = some task ∧ task.deadline ≤ now) ∧
      (t.due now).Nodup ∧
      ((t.due now).Pairwise fun i j => ∀ a b : Timer, t.tasks[i]? = some a → t.tasks[j]? = some b →
        a.deadline < b.deadline ∨ a.deadline = b.deadline ∧ compare i j = .lt) ∧
      (∀ k ∈ t.due now, ∃ task task', t.tasks[k]? = some task ∧
        (t.advance now).tasks[k]? = some task' ∧ task.Rearmed now task') ∧
      (∀ k, k ∉ t.due now → (t.advance now).tasks[k]? = t.tasks[k]?) ∧
      ((∀ k ∈ t.due now, ∀ task, t.tasks[k]? = some task → 0 < task.period) →
        (t.advance now).due now = []) := by
  intro t
  have h : t.Consistent := consistent_ofCalls calls
  exact ⟨fun d => (h d).trans Option.map_eq_some_iff, perm_keys_queue h,
    fun _ => nextDeadline?_eq_some_iff h, fun _ _ => fires_iff h, fun _ => mem_due_iff h,
    nodup_due h now, pairwise_due h now, fun _ => exists_rearmed h,
    fun _ => getElem?_tasks_advance_of_not_mem h, due_advance_eq_nil h⟩

/-- Three timers fire late, one of them with the period zero, and then the time goes back. -/
def backwards : List (Call UInt32) :=
  [.schedule 1 0 10, .schedule 2 35 0, .schedule 3 20 20, .advance 40, .reschedule 3 5 30]

/-- At 50 all three fire again, and the second one is due at once.  At 35 only the third one fires,
and not twice. -/
theorem exact_after_calls_backwards :
    let t := ofCalls backwards
    Fires 50 t [3, 2, 1] (t.advance 50) ∧
      (∃ task task', t.tasks[(2 : UInt32)]? = some task ∧
        (t.advance 50).tasks[(2 : UInt32)]? = some task' ∧ task.Rearmed 50 task') ∧
      (t.advance 35).due 35 = [] := by
  obtain ⟨-, -, -, hfires, -, -, -, hrearmed, -, -⟩ := exact_after_calls backwards 50
  obtain ⟨-, -, -, -, -, -, -, -, -, hagain⟩ := exact_after_calls backwards 35
  refine ⟨(hfires _ _).mpr ⟨by decide, rfl⟩, hrearmed 2 (by decide), hagain ?_⟩
  intro k hk task htask
  have hdue : (ofCalls backwards).due 35 = [3] := by decide
  have hthird : (ofCalls backwards).tasks[(3 : UInt32)]? = some ⟨5, 35⟩ := by decide
  rw [hdue, List.mem_singleton] at hk
  rw [hk, hthird] at htask
  cases htask
  decide

end Timers

end Groupcast
