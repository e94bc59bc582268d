import Groupcast.Proofs.Tables
import Groupcast.Timers
import Mathlib.Data.List.Nodup

/-!
# What recurring timers do

A table of timers keeps its deadlines in a queue besides.  The two say the same as long as only the
operations on tables change them (`Timers.Consistent`), and then the table alone says what is due:
the timers whose deadlines have passed (`mem_due_iff`), each once, and in the order of their
deadlines and then of their keys (`pairwise_fired`).  What each operation does to a timer is said
by a lookup after it; in particular all timers that are due are armed again at once
(`getElem?_tasks_advance`).  An operation on a key without a timer says so and does nothing
(`refuses_unknown_key`).
-/

namespace Groupcast

namespace Deadline

variable {κ : Type} [Ord κ] {a b : Deadline κ}

theorem compare_eq (a b : Deadline κ) :
    compare a b = (compare a.time b.time).then (compare a.key b.key) := rfl

theorem compare_eq_lt_iff : compare a b = .lt ↔
    a.time < b.time ∨ a.time = b.time ∧ compare a.key b.key = .lt := by
  rw [compare_eq, Ordering.then_eq_lt, Nat.compare_eq_lt, Nat.compare_eq_eq]

theorem time_le_of_isLE (h : (compare a b).isLE = true) : a.time ≤ b.time := by
  rw [compare_eq, Ordering.isLE_then_iff_or, Nat.compare_eq_lt, Nat.compare_eq_eq] at h
  rcases h with hlt | ⟨heq, -⟩
  · exact Nat.le_of_lt hlt
  · exact Nat.le_of_eq heq

end Deadline

/-- What becomes of a timer at a time: if its deadline has passed, it is armed again. -/
def Timer.advance (task : Timer) (now : Nat) : Timer :=
  if task.deadline ≤ now then
    { task with deadline := Timers.nextAfter task.deadline task.period now }
  else task

@[simp] theorem Timer.period_advance (task : Timer) (now : Nat) :
    (task.advance now).period = task.period := by
  rw [advance]
  split <;> rfl

theorem Timer.advance_of_lt {task : Timer} {now : Nat} (h : now < task.deadline) :
    task.advance now = task := if_neg (Nat.not_le.mpr h)

/-- A timer that fires on time is armed again a period later. -/
theorem Timer.advance_deadline (task : Timer) :
    task.advance task.deadline = ⟨task.period, task.deadline + task.period⟩ := by
  rw [advance, if_pos (Nat.le_refl _), Timers.nextAfter]
  split <;> rfl

namespace Timers

variable {κ : Type} [Ord κ]

/-- In a list that is in order, what is early comes first. -/
theorem takeWhile_eq_filter {ds : List (Deadline κ)}
    (h : ds.Pairwise fun a b => compare a b = .lt) (now : Nat) :
    (ds.takeWhile fun d => d.time ≤ now) = ds.filter fun d => d.time ≤ now := by
  induction ds with
  | nil => rfl
  | cons d ds ih =>
    obtain ⟨hd, hds⟩ := List.pairwise_cons.mp h
    by_cases hdue : d.time ≤ now
    · rw [List.takeWhile_cons_of_pos (by simpa using hdue),
        List.filter_cons_of_pos (by simpa using hdue), ih hds]
    · have hnone : (ds.filter fun d => d.time ≤ now) = [] := by
        refine List.filter_eq_nil_iff.mpr fun e he => ?_
        have hle : d.time ≤ e.time :=
          Deadline.time_le_of_isLE (Ordering.isLE_of_eq_lt (hd e he))
        rw [decide_eq_true_eq]
        omega
      rw [List.takeWhile_cons_of_neg (by simpa using hdue),
        List.filter_cons_of_neg (by simpa using hdue), hnone]

variable [Std.TransOrd κ] {t : Timers κ} {k i : κ} {now : Nat} {d : Deadline κ} {task : Timer}

/-- The queue holds the deadlines of the timers in the table, and nothing else. -/
def Consistent (t : Timers κ) : Prop :=
  ∀ d : Deadline κ, d ∈ t.queue ↔ t.tasks[d.key]?.map Timer.deadline = some d.time

theorem consistent_empty : (empty : Timers κ).Consistent := by
  intro d
  simp [empty]

/-- A timer has one deadline. -/
theorem eq_of_mem_queue (h : t.Consistent) {e : Deadline κ} (hd : d ∈ t.queue) (he : e ∈ t.queue)
    (hkey : d.key = e.key) : d = e := by
  have htime := (h d).mp hd
  rw [hkey, (h e).mp he] at htime
  cases d
  cases e
  cases htime
  cases hkey
  rfl

/-- Different deadlines in the queue are those of different timers. -/
theorem nodup_map_key (h : t.Consistent) {ds : List (Deadline κ)}
    (hds : ds.Pairwise fun a b => compare a b = .lt) (hqueue : ∀ d ∈ ds, d ∈ t.queue) :
    (ds.map Deadline.key).Nodup := by
  refine List.Nodup.map_on (fun d hd e he hkey => ?_) (Tables.nodup_of_pairwise_lt hds)
  exact eq_of_mem_queue h (hqueue d hd) (hqueue e he) hkey

/-- **A key without a timer is refused, and the table stays as it is**, whether the timer is to be
removed or to get another period. -/
theorem refuses_unknown_key (t : Timers κ) (k : κ) (period now : Nat) :
    (t.cancel k).2 = t.contains k ∧ (t.reschedule k period now).2 = t.contains k ∧
      (t.contains k = false → (t.cancel k).1 = t ∧ (t.reschedule k period now).1 = t) := by
  have hcontains : t.contains k = t.tasks[k]?.isSome :=
    Std.ExtTreeMap.contains_eq_isSome_getElem?
  rw [cancel, reschedule, hcontains]
  cases t.tasks[k]? with
  | none => exact ⟨rfl, rfl, fun _ => ⟨rfl, rfl⟩⟩
  | some task => exact ⟨rfl, rfl, nofun⟩

/-! ## What is due -/

/-- The next deadline is the first one in the queue. -/
theorem nextDeadline?_eq_head? (t : Timers κ) :
    t.nextDeadline? = t.queue.toList.head?.map Deadline.time := by
  rw [nextDeadline?, Std.ExtTreeSet.min?_eq_head?_toList]

theorem fired_eq (t : Timers κ) (now : Nat) :
    t.fired now = t.queue.toList.filter fun d => d.time ≤ now :=
  takeWhile_eq_filter t.queue.ordered_toList now

/-- What is due is in the order of the deadlines and then of the keys. -/
theorem pairwise_fired (t : Timers κ) (now : Nat) :
    (t.fired now).Pairwise fun a b => compare a b = .lt := by
  rw [fired_eq]
  exact t.queue.ordered_toList.filter _

variable [Std.LawfulEqOrd κ]

theorem mem_fired_iff : d ∈ t.fired now ↔ d ∈ t.queue ∧ d.time ≤ now := by
  rw [fired_eq, List.mem_filter, Std.ExtTreeSet.mem_toList, decide_eq_true_eq]

/-- **What is due are the timers whose deadlines have passed.** -/
theorem mem_due_iff (h : t.Consistent) :
    k ∈ t.due now ↔ ∃ task, t.tasks[k]? = some task ∧ task.deadline ≤ now := by
  rw [due, List.mem_map]
  constructor
  · rintro ⟨d, hd, rfl⟩
    obtain ⟨hqueue, htime⟩ := mem_fired_iff.mp hd
    obtain ⟨task, htask, heq⟩ := Option.map_eq_some_iff.mp ((h d).mp hqueue)
    exact ⟨task, htask, heq ▸ htime⟩
  · rintro ⟨task, htask, htime⟩
    refine ⟨⟨task.deadline, k⟩, mem_fired_iff.mpr ⟨(h _).mpr ?_, htime⟩, rfl⟩
    rw [htask]
    rfl

/-- Each timer that is due is due once. -/
theorem nodup_due (h : t.Consistent) (now : Nat) : (t.due now).Nodup :=
  nodup_map_key h (pairwise_fired t now) fun _ hd => (mem_fired_iff.mp hd).1

/-- The next deadline is no later than that of any timer. -/
theorem nextDeadline?_le (h : t.Consistent) (htask : t.tasks[k]? = some task) :
    ∃ deadline, t.nextDeadline? = some deadline ∧ deadline ≤ task.deadline := by
  have hmem : (⟨task.deadline, k⟩ : Deadline κ) ∈ t.queue := by
    rw [h, htask]
    rfl
  obtain ⟨d, hd⟩ := Option.isSome_iff_exists.mp (Std.ExtTreeSet.isSome_min?_of_mem hmem)
  refine ⟨d.time, by rw [nextDeadline?, hd]; rfl, ?_⟩
  have hle := (Std.ExtTreeSet.min?_eq_some_iff_mem_and_forall.mp hd).2 _ hmem
  exact Deadline.time_le_of_isLE hle

theorem mem_queue_rearm (h : t.Consistent) (hd : d ∈ t.queue) {e : Deadline κ}
    (hne : e.key ≠ d.key) : e ∈ (rearm now t d).queue ↔ e ∈ t.queue := by
  obtain ⟨task, htask, -⟩ := Option.map_eq_some_iff.mp ((h d).mp hd)
  simp only [rearm, htask, Std.ExtTreeSet.mem_insert, Std.ExtTreeSet.mem_erase,
    Std.compare_eq_iff_eq, ne_eq]
  constructor
  · rintro (rfl | ⟨-, hold⟩)
    · exact absurd rfl hne
    · exact hold
  · intro hold
    refine Or.inr ⟨?_, hold⟩
    rintro rfl
    exact hne rfl

variable [DecidableEq κ]

/-! ## Changing one timer -/

theorem getElem?_tasks_cancel : (t.cancel k).1.tasks[i]? = if k = i then none else t.tasks[i]? := by
  rw [cancel]
  split
  · simp only [Std.ExtTreeMap.getElem?_erase, Std.compare_eq_iff_eq]
  · rename_i hnone
    by_cases hi : k = i
    · rw [if_pos hi, ← hi, hnone]
    · rw [if_neg hi]

theorem consistent_cancel (h : t.Consistent) : (t.cancel k).1.Consistent := by
  intro d
  rw [getElem?_tasks_cancel, cancel]
  cases hk : t.tasks[k]? with
  | none =>
    rw [h d]
    by_cases hd : k = d.key
    · rw [if_pos hd, ← hd, hk]
    · rw [if_neg hd]
  | some task =>
    simp only [Std.ExtTreeSet.mem_erase, Std.compare_eq_iff_eq, ne_eq]
    rw [h d]
    by_cases hd : k = d.key
    · subst hd
      rw [if_pos rfl, hk]
      constructor
      · rintro ⟨hne, htime⟩
        refine absurd ?_ hne
        rw [Option.some.inj htime]
      · intro hnone
        cases hnone
    · rw [if_neg hd]
      refine and_iff_right ?_
      rintro rfl
      exact hd rfl

theorem getElem?_tasks_schedule {first period : Nat} : (t.schedule k first period).tasks[i]? =
    if k = i then some ⟨period, first⟩ else t.tasks[i]? := by
  simp only [schedule, Std.ExtTreeMap.getElem?_insert, Std.compare_eq_iff_eq,
    getElem?_tasks_cancel]
  split <;> rfl

theorem consistent_schedule (h : t.Consistent) (k : κ) (first period : Nat) :
    (t.schedule k first period).Consistent := by
  intro d
  have hcancel := consistent_cancel (k := k) h d
  rw [getElem?_tasks_schedule]
  show d ∈ (t.cancel k).1.queue.insert ⟨first, k⟩ ↔ _
  rw [Std.ExtTreeSet.mem_insert, Std.compare_eq_iff_eq, hcancel, getElem?_tasks_cancel]
  by_cases hd : k = d.key
  · rw [if_pos hd, if_pos hd, hd]
    simp only [Option.map_none, reduceCtorEq, or_false, Option.map_some, Option.some.injEq]
    constructor
    · intro heq
      exact congrArg Deadline.time heq
    · rintro rfl
      rfl
  · rw [if_neg hd, if_neg hd]
    refine or_iff_right ?_
    rintro rfl
    exact hd rfl

theorem getElem?_tasks_reschedule {period : Nat} : (t.reschedule k period now).1.tasks[i]? =
    if k = i then t.tasks[i]?.map fun _ => ⟨period, now + period⟩ else t.tasks[i]? := by
  rw [reschedule, contains]
  by_cases hk : t.tasks.contains k = true
  · rw [if_pos hk, getElem?_tasks_schedule]
    by_cases hi : k = i
    · subst hi
      rw [Std.ExtTreeMap.contains_eq_isSome_getElem?] at hk
      obtain ⟨task, htask⟩ := Option.isSome_iff_exists.mp hk
      rw [if_pos rfl, if_pos rfl, htask]
      rfl
    · rw [if_neg hi, if_neg hi]
  · rw [if_neg hk]
    by_cases hi : k = i
    · subst hi
      rw [if_pos rfl, Std.ExtTreeMap.getElem?_eq_none hk]
      rfl
    · rw [if_neg hi]

theorem consistent_reschedule (h : t.Consistent) (k : κ) (period now : Nat) :
    (t.reschedule k period now).1.Consistent := by
  rw [reschedule]
  split
  · exact consistent_schedule h k (now + period) period
  · exact h

/-! ## Arming what is due again -/

theorem getElem?_tasks_rearm (h : t.Consistent) (hd : d ∈ t.queue) (htime : d.time ≤ now) :
    (rearm now t d).tasks[i]? =
      if d.key = i then t.tasks[i]?.map (·.advance now) else t.tasks[i]? := by
  obtain ⟨task, htask, heq⟩ := Option.map_eq_some_iff.mp ((h d).mp hd)
  simp only [rearm, htask, Std.ExtTreeMap.getElem?_insert, Std.compare_eq_iff_eq]
  by_cases hi : d.key = i
  · subst hi
    rw [if_pos rfl, if_pos rfl, htask, Option.map_some, Timer.advance, heq, if_pos htime]
  · rw [if_neg hi, if_neg hi]

theorem consistent_rearm (h : t.Consistent) (hd : d ∈ t.queue) (htime : d.time ≤ now) :
    (rearm now t d).Consistent := by
  intro e
  rw [getElem?_tasks_rearm h hd htime]
  by_cases hkey : d.key = e.key
  · obtain ⟨task, htask, heq⟩ := Option.map_eq_some_iff.mp ((h d).mp hd)
    have hsame : ∀ e : Deadline κ, e.key = d.key → e ∈ t.queue → e = d :=
      fun e hkey he => eq_of_mem_queue h he hd hkey
    have hadvance : task.advance now =
        { task with deadline := nextAfter d.time task.period now } := by
      rw [Timer.advance, heq, if_pos htime]
    rw [if_pos hkey, ← hkey, htask, Option.map_some, hadvance, Option.map_some, Option.some.injEq]
    simp only [rearm, htask, Std.ExtTreeSet.mem_insert, Std.ExtTreeSet.mem_erase,
      Std.compare_eq_iff_eq, ne_eq]
    constructor
    · rintro (rfl | ⟨hne, hold⟩)
      · rfl
      · exact absurd (hsame e hkey.symm hold).symm hne
    · intro hnext
      refine Or.inl ?_
      rw [hnext, hkey]
  · rw [if_neg hkey, mem_queue_rearm h hd (fun heq => hkey heq.symm), h e]

/-- Timers are armed again one after the other. -/
theorem foldl_rearm {ds : List (Deadline κ)} (h : t.Consistent) (hds : ∀ d ∈ ds, d ∈ t.queue)
    (htimes : ∀ d ∈ ds, d.time ≤ now) (hnodup : (ds.map Deadline.key).Nodup) :
    (ds.foldl (rearm now) t).Consistent ∧ ∀ i : κ, (ds.foldl (rearm now) t).tasks[i]? =
      if i ∈ ds.map Deadline.key then t.tasks[i]?.map (·.advance now) else t.tasks[i]? := by
  induction ds generalizing t with
  | nil => exact ⟨h, fun i => by simp⟩
  | cons d ds ih =>
    rw [List.map_cons, List.nodup_cons] at hnodup
    have hd := hds d List.mem_cons_self
    have htime := htimes d List.mem_cons_self
    have hkeep : ∀ e ∈ ds, e ∈ (rearm now t d).queue := by
      intro e he
      refine (mem_queue_rearm h hd fun hkey => hnodup.1 ?_).mpr (hds e (List.mem_cons_of_mem d he))
      exact hkey ▸ List.mem_map_of_mem he
    obtain ⟨hrest, hlookup⟩ := ih (consistent_rearm h hd htime) hkeep
      (fun e he => htimes e (List.mem_cons_of_mem d he)) hnodup.2
    refine ⟨hrest, fun i => ?_⟩
    rw [List.foldl_cons, hlookup, getElem?_tasks_rearm h hd htime, List.map_cons]
    by_cases hi : d.key = i
    · subst hi
      rw [if_neg hnodup.1, if_pos rfl, if_pos List.mem_cons_self]
    · have hiff : i ∈ d.key :: ds.map Deadline.key ↔ i ∈ ds.map Deadline.key := by
        rw [List.mem_cons]
        exact or_iff_right fun heq => hi heq.symm
      rw [if_neg hi]
      simp only [hiff]

theorem consistent_advance (h : t.Consistent) (now : Nat) : (t.advance now).Consistent :=
  (foldl_rearm h (fun _ hd => (mem_fired_iff.mp hd).1) (fun _ hd => (mem_fired_iff.mp hd).2)
    (nodup_due h now)).1

/-- **All timers that are due are armed again, and no others.** -/
theorem getElem?_tasks_advance (h : t.Consistent) (now : Nat) (i : κ) :
    (t.advance now).tasks[i]? = t.tasks[i]?.map (·.advance now) := by
  have hlookup := (foldl_rearm h (fun _ hd => (mem_fired_iff.mp hd).1)
    (fun _ hd => (mem_fired_iff.mp hd).2) (nodup_due h now)).2 i
  rw [advance, hlookup]
  split
  · rfl
  · rename_i hnot
    cases htask : t.tasks[i]? with
    | none => rfl
    | some task =>
      have hlate : ¬ task.deadline ≤ now := fun hle =>
        hnot ((mem_due_iff h).mpr ⟨task, htask, hle⟩)
      rw [Option.map_some, Timer.advance, if_neg hlate]

end Timers

end Groupcast
