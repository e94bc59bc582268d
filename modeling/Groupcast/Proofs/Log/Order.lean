import Groupcast.Proofs.Log
import Groupcast.Proofs.Trace

/-!
# The order of the lines in a log

A log of lines may be called in any way: events are recorded under indices that come late, come
again or are far ahead, and the log is flushed in between, which makes the run of indices go on
after a gap.  Each line that is written under an index moves the run to the index after it
(`OutputLog.put`), and no line is written under an index that the run has passed.  So `Tidy`, what
every call keeps, ties three things together: what is written is in order and behind the run, and
what waits is beyond its next index.

The main statement (`lines_in_order`) says this for every run of calls, and what each call of it
writes.  The only thing that is asked of the owner is that no index is the greatest one, since there
is no index after that.
-/

namespace Groupcast.OutputLog

/-! ## Calls -/

/-- A call to a log, with any arguments. -/
inductive Call where
  | record (e : Event)
  | recordIndexed (index : UInt32) (e : Event)
  | flush
  deriving DecidableEq

/-- The index that a call records an event under. -/
def Call.index? : Call → Option UInt32
  | .recordIndexed index _ => some index
  | .record _ | .flush => none

/-- The line of the event that a call records without an index. -/
def Call.note? : Call → Option String
  | .record e => some e.line
  | .recordIndexed _ _ | .flush => none

/-- There is an index after the one that a call uses. -/
def Call.Bounded (c : Call) : Prop := ∀ index ∈ c.index?, index.toNat + 1 < UInt32.size

instance : DecidablePred Call.Bounded
  | .recordIndexed index _ =>
    decidable_of_iff (index.toNat + 1 < UInt32.size) (by simp [Call.Bounded, Call.index?])
  | .record _ | .flush => .isTrue nofun

/-- What a call does to a log. -/
def effect (l : OutputLog) : Call → OutputLog
  | .record e => l.record e
  | .recordIndexed index e => l.recordIndexed index e
  | .flush => l.flush

/-- The log after a run of calls. -/
def after (calls : List Call) : OutputLog := calls.foldl effect empty

theorem after_append (calls : List Call) (c : Call) :
    after (calls ++ [c]) = (after calls).effect c := by
  rw [after, List.foldl_append]
  rfl

variable {l : OutputLog} {index : UInt32} {text : String} {d : UInt32 × String} {n : Nat}

/-! ## Writing lines under indices -/

/-- The line of an entry. -/
def lineOf (d : UInt32 × String) : LogLine := ⟨some d.1, d.2⟩

/-- The log after an entry has been written, which the run goes on from. -/
def put (l : OutputLog) (d : UInt32 × String) : OutputLog :=
  { l.write (some d.1) d.2 with next := d.1 + 1 }

/-- The lines under indices are in order, and behind the run. -/
structure Settled (l : OutputLog) : Prop where
  ascending : (l.decisions.map Prod.fst).Pairwise (· < ·)
  behind : ∀ d ∈ l.decisions, d.1 < l.next

theorem toNat_succ_index (h : index.toNat + 1 < UInt32.size) :
    (index + 1).toNat = index.toNat + 1 :=
  (UInt32.toNat_add _ _).trans (Nat.mod_eq_of_lt h)

/-- An entry that the run has not passed may be written. -/
theorem Settled.put (h : l.Settled) (hnext : l.next ≤ d.1) (hd : d.1.toNat + 1 < UInt32.size) :
    (l.put d).Settled := by
  have hdecisions : (l.put d).decisions = l.decisions ++ [d] := decisions_write_some l d.1 d.2
  have hpassed : d.1 < d.1 + 1 := by
    rw [UInt32.lt_iff_toNat_lt, toNat_succ_index hd]
    omega
  refine ⟨?_, fun d' hd' => ?_⟩
  · rw [hdecisions, List.map_append, List.pairwise_append]
    refine ⟨h.ascending, List.pairwise_singleton _ _, fun i hi j hj => ?_⟩
    obtain ⟨d', hd', rfl⟩ := List.mem_map.mp hi
    rw [List.mem_singleton.mp hj]
    exact UInt32.lt_of_lt_of_le (h.behind d' hd') hnext
  · rw [hdecisions, List.mem_append, List.mem_singleton] at hd'
    rcases hd' with hd' | rfl
    · exact UInt32.lt_trans (UInt32.lt_of_lt_of_le (h.behind d' hd') hnext) hpassed
    · exact hpassed

/-! ## Draining -/

/-- A row of entries is the longest one without a gap that begins with an index. -/
structure IsRun (waiting : Std.ExtTreeMap UInt32 String) (next : UInt32)
    (run : List (UInt32 × String)) : Prop where
  contiguous : run.map (·.1.toNat) = List.range' next.toNat run.length
  waits : ∀ d ∈ run, waiting[d.1]? = some d.2
  maximal : ∀ index : UInt32, index.toNat = next.toNat + run.length → index ∉ waiting

/-- The log comes to write the longest run of waiting entries that it can go on with. -/
structure Drains (l l' : OutputLog) (run : List (UInt32 × String)) : Prop where
  isRun : IsRun l.pending l.next run
  written : l'.written = l.written ++ run.map lineOf
  next : l'.next.toNat = l.next.toNat + run.length
  rest : ∀ index : UInt32,
    l'.pending[index]? = if index ∈ run.map Prod.fst then none else l.pending[index]?

variable {l' : OutputLog} {run : List (UInt32 × String)}

theorem Drains.refl (h : l.next ∉ l.pending) : Drains l l [] where
  isRun := ⟨rfl, nofun, fun _ heq hmem => h (UInt32.toNat_inj.mp heq ▸ hmem)⟩
  written := (List.append_nil _).symm
  next := rfl
  rest _ := (if_neg List.not_mem_nil).symm

theorem getElem?_pending_advance (l : OutputLog) (text : String) (index : UInt32) :
    (l.advance text).pending[index]? = if l.next = index then none else l.pending[index]? := by
  rw [advance, Std.ExtTreeMap.getElem?_erase]
  simp only [Std.compare_eq_iff_eq]

theorem Drains.cons (hnext : l.pending[l.next]? = some text)
    (hbounded : l.next.toNat + 1 < UInt32.size) (h : Drains (l.advance text) l' run) :
    Drains l l' ((l.next, text) :: run) := by
  have hsucc : (l.advance text).next.toNat = l.next.toNat + 1 := toNat_succ_index hbounded
  refine ⟨⟨?_, fun d hd => ?_, fun index heq hmem => ?_⟩, ?_, ?_, fun index => ?_⟩
  · rw [List.map_cons, h.isRun.contiguous, hsucc, List.length_cons, List.range'_succ]
  · rcases List.mem_cons.mp hd with rfl | hd
    · exact hnext
    · have hget := h.isRun.waits d hd
      rw [getElem?_pending_advance] at hget
      split at hget
      · cases hget
      · exact hget
  · rw [List.length_cons] at heq
    refine h.isRun.maximal index (by omega) (Std.ExtTreeMap.mem_erase.mpr ⟨fun hc => ?_, hmem⟩)
    rw [Std.compare_eq_iff_eq.mp hc] at heq
    omega
  · rw [h.written, advance, write, List.map_cons, List.append_assoc]
    rfl
  · rw [h.next, hsucc, List.length_cons]
    omega
  · rw [h.rest, getElem?_pending_advance, List.map_cons]
    by_cases hrun : index ∈ run.map Prod.fst
    · rw [if_pos hrun, if_pos (List.mem_cons_of_mem _ hrun)]
    · simp only [List.mem_cons, hrun, or_false, if_false, eq_comm]

theorem size_pending_advance (hnext : l.pending[l.next]? = some text) :
    (l.advance text).pending.size + 1 = l.pending.size := Tables.size_erase_of_getElem? hnext

/-- **Draining writes the longest run**, if it may write as many lines as wait. -/
theorem exists_drains (hsize : l.pending.size ≤ n)
    (hbounded : ∀ index ∈ l.pending, index.toNat + 1 < UInt32.size) :
    ∃ run, Drains l (drain n l) run := by
  induction n generalizing l with
  | zero =>
    have hempty := Std.ExtTreeMap.eq_empty_iff_size_eq_zero.mpr (Nat.le_zero.mp hsize)
    exact ⟨[], .refl (hempty ▸ Std.ExtTreeMap.not_mem_empty)⟩
  | succ n ih =>
    rw [drain]
    split
    · rename_i text hnext
      have hshrinks := size_pending_advance hnext
      obtain ⟨run, hrun⟩ := ih (l := l.advance text) (by omega) fun index hindex =>
        hbounded index (Std.ExtTreeMap.mem_of_mem_erase hindex)
      have hmem : l.next ∈ l.pending :=
        Std.ExtTreeMap.mem_iff_isSome_getElem?.mpr (hnext ▸ rfl)
      exact ⟨_, .cons hnext (hbounded l.next hmem) hrun⟩
    · rename_i hnext
      refine ⟨[], .refl fun hmem => ?_⟩
      rw [Std.ExtTreeMap.mem_iff_isSome_getElem?, hnext] at hmem
      cases hmem

/-- A log that has been drained cannot go on. -/
theorem Drains.next_not_mem (h : Drains l l' run) : l'.next ∉ l'.pending := by
  have hwaits := Std.ExtTreeMap.getElem?_eq_none (h.isRun.maximal l'.next h.next)
  rw [Std.ExtTreeMap.mem_iff_isSome_getElem?, h.rest, hwaits, ite_self]
  exact Bool.false_ne_true

/-! ## What every call keeps -/

/-- What a log is like while it is being drained. -/
structure Ready (l : OutputLog) : Prop where
  settled : l.Settled
  ahead : ∀ index ∈ l.pending, l.next ≤ index
  bounded : ∀ index ∈ l.pending, index.toNat + 1 < UInt32.size

/-- What a log is like between two calls: it has written all that it can go on with. -/
structure Tidy (l : OutputLog) : Prop extends l.Ready where
  next_not_mem : l.next ∉ l.pending

theorem Tidy.lt_of_mem (h : l.Tidy) (hindex : index ∈ l.pending) : l.next < index :=
  UInt32.lt_of_le_of_ne (h.ahead index hindex) fun heq => h.next_not_mem (heq ▸ hindex)

theorem tidy_empty : empty.Tidy where
  settled := ⟨List.Pairwise.nil, nofun⟩
  ahead _ h := absurd h Std.ExtTreeMap.not_mem_empty
  bounded _ h := absurd h Std.ExtTreeMap.not_mem_empty
  next_not_mem := Std.ExtTreeMap.not_mem_empty

theorem Tidy.record (h : l.Tidy) (e : Event) : (l.record e).Tidy where
  settled := ⟨by rw [decisions_record]; exact h.settled.ascending,
    by rw [decisions_record]; exact h.settled.behind⟩
  ahead := h.ahead
  bounded := h.bounded
  next_not_mem := h.next_not_mem

/-- The next line of the run leaves a log ready. -/
theorem Ready.advance (h : l.Ready) (hnext : l.pending[l.next]? = some text) :
    (l.advance text).Ready := by
  have hmem : l.next ∈ l.pending := Std.ExtTreeMap.mem_iff_isSome_getElem?.mpr (hnext ▸ rfl)
  have hsucc := toNat_succ_index (h.bounded l.next hmem)
  have hput := h.settled.put (d := (l.next, text)) UInt32.le_rfl (h.bounded l.next hmem)
  refine ⟨⟨hput.ascending, hput.behind⟩, fun index hindex => ?_, fun index hindex =>
    h.bounded index (Std.ExtTreeMap.mem_of_mem_erase hindex)⟩
  obtain ⟨hne, hindex⟩ := Std.ExtTreeMap.mem_erase.mp hindex
  have hle := UInt32.le_iff_toNat_le.mp (h.ahead index hindex)
  have hne : l.next.toNat ≠ index.toNat := fun heq =>
    hne (Std.compare_eq_iff_eq.mpr (UInt32.toNat_inj.mp heq))
  show l.next + 1 ≤ index
  rw [UInt32.le_iff_toNat_le]
  omega

/-- The entries that wait when an event has been recorded under an index: one that the run has
passed is ignored. -/
def waitingWith (l : OutputLog) (index : UInt32) (e : Event) : Std.ExtTreeMap UInt32 String :=
  if index < l.next then l.pending else l.pending.insert index e.line

theorem Ready.await (h : l.Ready) (hnext : ¬ index < l.next)
    (hindex : index.toNat + 1 < UInt32.size) : (l.await index text).Ready := by
  refine ⟨⟨h.settled.ascending, h.settled.behind⟩, fun k hk => ?_, fun k hk => ?_⟩
  · rcases Std.ExtTreeMap.mem_insert.mp hk with heq | hk
    · rw [← Std.compare_eq_iff_eq.mp heq]
      exact UInt32.not_lt.mp hnext
    · exact h.ahead k hk
  · rcases Std.ExtTreeMap.mem_insert.mp hk with heq | hk
    · rwa [← Std.compare_eq_iff_eq.mp heq]
    · exact h.bounded k hk

/-- **Recording an event under an index writes the longest run** of what waits then. -/
theorem Tidy.exists_drains_recordIndexed (h : l.Tidy) (hindex : index.toNat + 1 < UInt32.size)
    (e : Event) :
    ∃ run, Drains { l with pending := l.waitingWith index e } (l.recordIndexed index e) run := by
  unfold OutputLog.recordIndexed waitingWith
  split
  · exact ⟨[], .refl h.next_not_mem⟩
  · rename_i hnext
    exact exists_drains (Nat.le_refl _) (h.await hnext hindex).bounded

theorem Tidy.recordIndexed (h : l.Tidy) (hindex : index.toNat + 1 < UInt32.size) (e : Event) :
    (l.recordIndexed index e).Tidy := by
  obtain ⟨run, hrun⟩ := h.exists_drains_recordIndexed hindex e
  refine ⟨?_, hrun.next_not_mem⟩
  unfold OutputLog.recordIndexed
  split
  · exact h.toReady
  · rename_i hnext
    exact drain_induct (fun l text h hget => h.advance hget) _ (h.await hnext hindex)

theorem foldl_put (waiting : List (UInt32 × String)) (l : OutputLog) :
    (waiting.foldl put l).written = l.written ++ waiting.map lineOf ∧
      (waiting.foldl put l).pending = l.pending := by
  induction waiting generalizing l with
  | nil => exact ⟨(List.append_nil _).symm, rfl⟩
  | cons d waiting ih =>
    obtain ⟨hwritten, hpending⟩ := ih (l.put d)
    refine ⟨hwritten.trans ?_, hpending⟩
    rw [List.map_cons, List.append_cons]
    rfl

theorem Settled.foldl_put {waiting : List (UInt32 × String)} (h : l.Settled)
    (hascending : waiting.Pairwise (·.1 < ·.1))
    (hwaiting : ∀ d ∈ waiting, l.next ≤ d.1 ∧ d.1.toNat + 1 < UInt32.size) :
    (waiting.foldl OutputLog.put l).Settled := by
  induction waiting generalizing l with
  | nil => exact h
  | cons d waiting ih =>
    obtain ⟨⟨hnext, hd⟩, hwaiting⟩ := List.forall_mem_cons.mp hwaiting
    obtain ⟨hfirst, hascending⟩ := List.pairwise_cons.mp hascending
    refine ih (h.put hnext hd) hascending fun d' hd' => ⟨?_, (hwaiting d' hd').2⟩
    have hlt := UInt32.lt_iff_toNat_lt.mp (hfirst d' hd')
    show d.1 + 1 ≤ d'.1
    rw [UInt32.le_iff_toNat_le, toNat_succ_index hd]
    exact hlt

theorem Tidy.flush (h : l.Tidy) : l.flush.Tidy := by
  have hempty : l.flush.pending = ∅ := (OutputLog.foldl_put _ _).2
  have hnot : ∀ index, index ∉ l.flush.pending := fun index =>
    hempty ▸ Std.ExtTreeMap.not_mem_empty
  refine ⟨⟨?_, fun index hindex => absurd hindex (hnot index), fun index hindex =>
    absurd hindex (hnot index)⟩, hnot _⟩
  have hsettled : ({ l with pending := ∅ } : OutputLog).Settled :=
    ⟨h.settled.ascending, h.settled.behind⟩
  exact hsettled.foldl_put (Tables.ascending_toList _) fun d hd =>
    ⟨h.ahead _ (Tables.mem_of_mem_toList hd), h.bounded _ (Tables.mem_of_mem_toList hd)⟩

variable {c : Call} {calls : List Call}

/-- Every call keeps a log tidy. -/
theorem Tidy.effect (h : l.Tidy) (hc : c.Bounded) : (l.effect c).Tidy := by
  cases c with
  | record e => exact h.record e
  | recordIndexed index e => exact h.recordIndexed (hc index rfl) e
  | flush => exact h.flush

theorem tidy_after (hcalls : ∀ c ∈ calls, c.Bounded) : (after calls).Tidy := by
  induction calls using List.reverseRecOn with
  | nil => exact tidy_empty
  | append_singleton calls c ih =>
    rw [after_append]
    obtain ⟨hcalls, hc⟩ := List.forall_mem_append.mp hcalls
    exact (ih hcalls).effect (hc c List.mem_cons_self)

theorem notes_effect (l : OutputLog) (c : Call) :
    (l.effect c).notes = l.notes ++ c.note?.toList := by
  cases c with
  | record e => exact notes_record l e
  | recordIndexed index e => exact (notes_recordIndexed l index e).trans (List.append_nil _).symm
  | flush => exact (written_flush l).2.trans (List.append_nil _).symm

theorem notes_after (calls : List Call) : (after calls).notes = calls.filterMap Call.note? := by
  induction calls using List.reverseRecOn with
  | nil => rfl
  | append_singleton calls c ih =>
    rw [after_append, notes_effect, ih, List.filterMap_append]
    cases c <;> rfl

/-- What a call writes, and what it leaves waiting. -/
def Writes (l : OutputLog) (c : Call) : Prop :=
  match c with
  | .record e => l.effect c = { l with written := l.written ++ [⟨none, e.line⟩] }
  | .recordIndexed index e =>
    ∃ run, Drains { l with pending := l.waitingWith index e } (l.effect c) run
  | .flush => (l.effect c).written = l.written ++ l.pending.toList.map lineOf ∧
      (l.effect c).pending = ∅

theorem Tidy.writes (h : l.Tidy) (hc : c.Bounded) : l.Writes c := by
  cases c with
  | record e => rfl
  | recordIndexed index e => exact h.exists_drains_recordIndexed (hc index rfl) e
  | flush => exact OutputLog.foldl_put _ _

/-- **A log writes its lines in order**, whatever it is called with.

Let events be recorded with and without indices, and the log be flushed, in any order and any number
of times, where no index is the greatest one.  Then the lines that are written under indices have
strictly ascending indices; the lines of all other events are there in the order of the calls; and
what waits is beyond the next index.  Recording an event without an index writes its line at once;
recording one under an index writes the longest run of what then waits from the next index on; and
flushing writes all that waits, so that nothing waits any more. -/
theorem lines_in_order (calls : List Call) (hcalls : ∀ c ∈ calls, c.Bounded) :
    ((after calls).decisions.map Prod.fst).Pairwise (· < ·) ∧
      (after calls).notes = calls.filterMap Call.note? ∧
      (∀ index ∈ (after calls).pending, (after calls).next < index) ∧
      Throughout (fun earlier c => (after earlier).Writes c) calls := by
  have htidy := tidy_after hcalls
  refine ⟨htidy.settled.ascending, notes_after calls, fun index => htidy.lt_of_mem, ?_⟩
  rintro earlier c ⟨rest, rfl⟩
  rw [List.append_assoc, List.forall_mem_append, List.singleton_append,
    List.forall_mem_cons] at hcalls
  exact (tidy_after hcalls.1).writes hcalls.2.1

/-- Slots 3, 2 and 5 wait, the log is flushed, and slot 4 comes too late; then slot 6 does not. -/
def lateCalls : List Call :=
  [.recordIndexed 3 (.decide 3 (.ofList [3])), .record (.broadcast 1),
    .recordIndexed 2 (.decide 2 (.ofList [2])), .recordIndexed 5 (.decide 5 (.ofList [5])), .flush,
    .recordIndexed 4 (.decide 4 (.ofList [4])), .recordIndexed 6 (.decide 6 (.ofList [6])),
    .recordIndexed 3 (.decide 3 (.ofList [9]))]

theorem lines_in_order_lateCalls :
    (∀ c ∈ lateCalls, c.Bounded) ∧
      ((after lateCalls).decisions.map Prod.fst).Pairwise (· < ·) ∧
      (after lateCalls).notes = ["b 1"] ∧
      Throughout (fun earlier c => (after earlier).Writes c) lateCalls ∧
      (after lateCalls).text = "b 1\n2\n3\n5\n6\n" := by
  have hbounded : ∀ c ∈ lateCalls, c.Bounded := by decide
  obtain ⟨hascending, hnotes, -, hwrites⟩ := lines_in_order lateCalls hbounded
  exact ⟨hbounded, hascending, hnotes, hwrites, by decide +kernel⟩

end Groupcast.OutputLog
