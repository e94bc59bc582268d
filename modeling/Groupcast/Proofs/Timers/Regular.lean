import Groupcast.Proofs.Timers

/-!
# Timers that keep pace

Before its next deadline a table of timers has nothing to do (`fired_of_lt`, `advance_of_lt`).  If
its queue says the same as the table and no timer has the period zero (`Timers.Regular`), then all
that is due is put off into the future when the timers are advanced, however late this happens
(`Regular.ahead_advance`), so that its owner never finds the same deadline passed twice.
-/

namespace Groupcast

/-- A timer that was due fires again later. -/
theorem Timer.lt_deadline_advance {task : Timer} (h : 0 < task.period) (now : Nat) :
    now < (task.advance now).deadline := by
  rw [advance]
  split
  · simp only [Timers.nextAfter]
    split <;> omega
  · omega

namespace Timers

variable {κ : Type} [Ord κ] [Std.TransOrd κ] {t : Timers κ} {k : κ} {now : Nat}

/-! ## Before the next deadline -/

/-- Nothing fires before the next deadline. -/
theorem fired_of_lt (h : ∀ deadline ∈ t.nextDeadline?, now < deadline) : t.fired now = [] := by
  rw [nextDeadline?_eq_head?] at h
  rw [fired]
  cases hqueue : t.queue.toList with
  | nil => rfl
  | cons d ds =>
    rw [hqueue] at h
    refine List.takeWhile_cons_of_neg ?_
    have hlt := h d.time rfl
    simpa using hlt

theorem due_of_lt (h : ∀ deadline ∈ t.nextDeadline?, now < deadline) : t.due now = [] := by
  rw [due, fired_of_lt h, List.map_nil]

theorem advance_of_lt (h : ∀ deadline ∈ t.nextDeadline?, now < deadline) : t.advance now = t := by
  rw [advance, fired_of_lt h, List.foldl_nil]

@[simp] theorem nextDeadline?_empty : (empty : Timers κ).nextDeadline? = none := by
  rw [nextDeadline?, Option.map_eq_none_iff, Std.ExtTreeSet.min?_eq_none_iff]
  rfl

/-- Once a timer is armed there is a deadline. -/
theorem nextDeadline?_schedule_ne_none (first period : Nat) :
    (t.schedule k first period).nextDeadline? ≠ none := by
  rw [← Option.isSome_iff_ne_none, nextDeadline?, Option.isSome_map]
  exact Std.ExtTreeSet.isSome_min?_insert

variable [Std.LawfulEqOrd κ]

/-! ## Whose deadline is the next one -/

/-- The next deadline is that of some timer. -/
theorem Consistent.exists_task (h : t.Consistent) {deadline : Nat}
    (hnext : t.nextDeadline? = some deadline) :
    ∃ (k : κ) (task : Timer), t.tasks[k]? = some task ∧ task.deadline = deadline := by
  obtain ⟨d, hd, rfl⟩ := Option.map_eq_some_iff.mp hnext
  have hmem : d ∈ t.queue := (Std.ExtTreeSet.min?_eq_some_iff_mem_and_forall.mp hd).1
  obtain ⟨task, htask, htime⟩ := Option.map_eq_some_iff.mp ((h d).mp hmem)
  exact ⟨d.key, task, htask, htime⟩

/-- There is no deadline exactly if there is no timer. -/
theorem Consistent.nextDeadline?_eq_none_iff (h : t.Consistent) :
    t.nextDeadline? = none ↔ ∀ k : κ, t.tasks[k]? = none := by
  constructor
  · intro hnone k
    cases htask : t.tasks[k]? with
    | none => rfl
    | some task =>
      obtain ⟨deadline, hnext, -⟩ := nextDeadline?_le h htask
      rw [hnone] at hnext
      cases hnext
  · intro hnone
    cases hnext : t.nextDeadline? with
    | none => rfl
    | some deadline =>
      obtain ⟨k, task, htask, -⟩ := h.exists_task hnext
      rw [hnone] at htask
      cases htask

/-! ## All deadlines in the future -/

/-- No timer is due at `now`. -/
def Ahead (now : Nat) (t : Timers κ) : Prop :=
  ∀ (k : κ) (task : Timer), t.tasks[k]? = some task → now < task.deadline

theorem Ahead.lt_nextDeadline? (h : t.Ahead now) (hconsistent : t.Consistent) :
    ∀ deadline ∈ t.nextDeadline?, now < deadline := by
  intro deadline hnext
  obtain ⟨k, task, htask, rfl⟩ := hconsistent.exists_task hnext
  exact h k task htask

/-- The queue agrees with the table, and every timer lets some time pass before it fires again. -/
structure Regular (t : Timers κ) : Prop where
  consistent : t.Consistent
  period_pos : ∀ (k : κ) (task : Timer), t.tasks[k]? = some task → 0 < task.period

omit [Std.LawfulEqOrd κ] in
theorem regular_empty : (empty : Timers κ).Regular where
  consistent := consistent_empty
  period_pos k task htask := by
    rw [show (empty : Timers κ).tasks[k]? = none from Std.ExtTreeMap.getElem?_empty] at htask
    cases htask

variable [DecidableEq κ]

theorem Regular.cancel (h : t.Regular) (k : κ) : (t.cancel k).1.Regular where
  consistent := consistent_cancel h.consistent
  period_pos i task htask := by
    rw [getElem?_tasks_cancel] at htask
    split at htask
    · cases htask
    · exact h.period_pos i task htask

theorem Ahead.cancel (h : t.Ahead now) (k : κ) : (t.cancel k).1.Ahead now := by
  intro i task htask
  rw [getElem?_tasks_cancel] at htask
  split at htask
  · cases htask
  · exact h i task htask

theorem Regular.schedule (h : t.Regular) (k : κ) (first : Nat) {period : Nat} (hpos : 0 < period) :
    (t.schedule k first period).Regular where
  consistent := consistent_schedule h.consistent k first period
  period_pos i task htask := by
    rw [getElem?_tasks_schedule] at htask
    split at htask
    · cases htask
      exact hpos
    · exact h.period_pos i task htask

theorem Regular.reschedule (h : t.Regular) (k : κ) {period : Nat} (hpos : 0 < period) (now : Nat) :
    (t.reschedule k period now).1.Regular := by
  rw [Timers.reschedule]
  split
  · exact h.schedule k (now + period) hpos
  · exact h

theorem Ahead.reschedule (h : t.Ahead now) (k : κ) {period : Nat} (hpos : 0 < period) :
    (t.reschedule k period now).1.Ahead now := by
  intro i task htask
  rw [getElem?_tasks_reschedule] at htask
  split at htask
  · obtain ⟨_, -, rfl⟩ := Option.map_eq_some_iff.mp htask
    exact Nat.lt_add_of_pos_right hpos
  · exact h i task htask

theorem Regular.advance (h : t.Regular) (now : Nat) : (t.advance now).Regular where
  consistent := consistent_advance h.consistent now
  period_pos k task htask := by
    rw [getElem?_tasks_advance h.consistent] at htask
    obtain ⟨task₀, htask₀, rfl⟩ := Option.map_eq_some_iff.mp htask
    rw [Timer.period_advance]
    exact h.period_pos k task₀ htask₀

/-- **Once the timers are advanced none of them is due, however late this has happened.** -/
theorem Regular.ahead_advance (h : t.Regular) (now : Nat) : (t.advance now).Ahead now := by
  intro k task htask
  rw [getElem?_tasks_advance h.consistent] at htask
  obtain ⟨task₀, htask₀, rfl⟩ := Option.map_eq_some_iff.mp htask
  exact Timer.lt_deadline_advance (h.period_pos k task₀ htask₀) now

end Timers

end Groupcast
