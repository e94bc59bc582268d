import Groupcast.Agreement.Lattice
import Groupcast.Log
import Groupcast.Proofs.HostTable
import Groupcast.Proofs.Tables

/-!
# What the logs keep

A log of lines is compared with a log of events that has recorded the same.  The line of a decision
is written as soon as it extends the run of slots, or else when the log is flushed.  Neither changes
what the log comes to in the end, the decisions that are written followed by those that wait
(`OutputLog.entries`), and so it is enough to say what a new decision does to these
(`OutputLog.Keeps.recordIndexed`).

The run begins with slot 1.  A decision for slot 0 is taken for one that the run has passed, and is
ignored: a member that decides slot 0 logs no line (`OutputLog.loses_slot_zero`).  All other
decisions are kept, and slot 0 is logged only if it comes last of all `2 ^ 32` slots, when the
numbers of the run have wrapped.
-/

namespace Groupcast

namespace Event

/-- The slot that an event decides. -/
def slot? : Event → Option Slot
  | .decide slot _ => some slot
  | .broadcast _ | .deliver _ _ => none

/-- The slots that are decided in a row of events. -/
def decidedSlots (events : List Event) : List Slot := events.filterMap slot?

end Event

namespace Sink

variable {σ : Type} [Sink σ]

/-- Records events in order, and completes what has been recorded. -/
def recordAll (s : σ) (events : List Event) : Except SinkError σ := do
  flush (← events.foldlM recordEvent s)

theorem recordAll_of_total {add : σ → Event → σ} (hadd : ∀ s e, recordEvent s e = .ok (add s e))
    (s : σ) (events : List Event) : recordAll s events = flush (events.foldl add s) := by
  have hrecord : (recordEvent : σ → Event → Except SinkError σ) = fun s e => pure (add s e) :=
    funext fun s => funext (hadd s)
  rw [recordAll, hrecord, List.foldlM_pure]
  rfl

end Sink

/-! ## Memory -/

namespace MemoryLog

variable {l : MemoryLog} {slot : Slot} {e : Event}

/-- The log after an event. -/
def add (l : MemoryLog) (e : Event) : MemoryLog :=
  match e.slot? with
  | some slot => l.recordIndexed slot e
  | none => l.record e

theorem recordEvent_eq (l : MemoryLog) (e : Event) : Sink.recordEvent l e = .ok (l.add e) := by
  cases e <;> rfl

theorem events_foldl_add (events : List Event) (l : MemoryLog) :
    (events.foldl add l).events = l.events ++ events.filter (·.slot?.isNone) := by
  induction events generalizing l with
  | nil => exact (List.append_nil _).symm
  | cons e events ih =>
    rw [List.foldl_cons, ih, add]
    cases hslot : e.slot? with
    | some slot => simp [recordIndexed, hslot]
    | none => simp [record, hslot]

theorem getElem?_recordIndexed (l : MemoryLog) (slot k : Slot) (e : Event) :
    (l.recordIndexed slot e).indexed[k]? =
      l.indexed[k]?.or (if slot = k then some e else none) := by
  rw [recordIndexed, Std.ExtTreeMap.getElem?_insertIfNew]
  simp only [Std.compare_eq_iff_eq]
  by_cases hk : slot = k
  · subst hk
    cases hget : l.indexed[slot]? with
    | some e' => simp [Std.ExtTreeMap.mem_iff_isSome_getElem?, hget]
    | none => simp [Std.ExtTreeMap.mem_iff_isSome_getElem?, hget]
  · simp [hk]

/-- The first event for a slot is kept. -/
theorem getElem?_foldl_add (events : List Event) (l : MemoryLog) (k : Slot) :
    (events.foldl add l).indexed[k]? =
      l.indexed[k]?.or (events.find? (·.slot? = some k)) := by
  induction events generalizing l with
  | nil => exact (Option.or_none).symm
  | cons e events ih =>
    rw [List.foldl_cons, ih, add]
    cases hslot : e.slot? with
    | some slot =>
      simp only [getElem?_recordIndexed]
      by_cases hk : slot = k
      · simp [hslot, hk]
      · simp [hslot, hk]
    | none => simp [record, hslot]

theorem mem_indexed_foldl_add {events : List Event} :
    slot ∈ (events.foldl add empty).indexed ↔ slot ∈ Event.decidedSlots events := by
  rw [Std.ExtTreeMap.mem_iff_isSome_getElem?, getElem?_foldl_add, Event.decidedSlots,
    List.mem_filterMap]
  simp [empty]

/-- The slots that are decided, in ascending order, and the lines of their decisions. -/
def decisions (l : MemoryLog) : List (Slot × String) :=
  l.indexed.toList.map fun (slot, e) => (slot, e.line)

theorem mem_decisions {text : String} :
    (slot, text) ∈ l.decisions ↔ ∃ e, l.indexed[slot]? = some e ∧ e.line = text := by
  rw [decisions, List.mem_map]
  constructor
  · rintro ⟨⟨k, e⟩, hmem, heq⟩
    cases heq
    exact ⟨e, Std.ExtTreeMap.mem_toList_iff_getElem?_eq_some.mp hmem, rfl⟩
  · rintro ⟨e, hget, rfl⟩
    exact ⟨(slot, e), Std.ExtTreeMap.mem_toList_iff_getElem?_eq_some.mpr hget, rfl⟩

theorem ascending_decisions (l : MemoryLog) : l.decisions.Pairwise (·.1 < ·.1) :=
  List.pairwise_map.mpr (Tables.ascending_toList l.indexed)

theorem mem_indexed_of_mem_decisions {d : Slot × String} (h : d ∈ l.decisions) :
    d.1 ∈ l.indexed := by
  obtain ⟨e, he, rfl⟩ := List.mem_map.mp h
  exact Tables.mem_of_mem_toList he

theorem mem_decisions_recordIndexed (hfresh : slot ∉ l.indexed) {d : Slot × String} :
    d ∈ (l.recordIndexed slot e).decisions ↔ d = (slot, e.line) ∨ d ∈ l.decisions := by
  obtain ⟨k, text⟩ := d
  have hfresh := Std.ExtTreeMap.getElem?_eq_none hfresh
  rw [mem_decisions, mem_decisions, getElem?_recordIndexed, Prod.mk.injEq]
  by_cases hk : slot = k
  · subst hk
    simp [hfresh, eq_comm]
  · simp [hk, Ne.symm hk]

theorem mem_recordIndexed {k : Slot} (hk : k ∈ l.indexed) :
    k ∈ (l.recordIndexed slot e).indexed :=
  Std.ExtTreeMap.mem_insertIfNew.mpr (Or.inr hk)

end MemoryLog

/-! ## Lines -/

namespace OutputLog

variable {l : OutputLog} {memory memory' : MemoryLog} {slot next : Slot} {e : Event}
  {text : String} {written : List (Slot × String)}

/-- The log after an event. -/
def add (l : OutputLog) (e : Event) : OutputLog :=
  match e.slot? with
  | some slot => l.recordIndexed slot e
  | none => l.record e

theorem recordEvent_eq (l : OutputLog) (e : Event) : Sink.recordEvent l e = .ok (l.add e) := by
  cases e <;> rfl

/-- The slots of the decisions that are written, and their lines. -/
def decisions (l : OutputLog) : List (Slot × String) :=
  l.written.filterMap fun line => line.index.map (·, line.text)

/-- The lines of all other events. -/
def notes (l : OutputLog) : List String :=
  (l.written.filter (·.index.isNone)).map LogLine.text

theorem decisions_write_some (l : OutputLog) (slot : Slot) (text : String) :
    (l.write (some slot) text).decisions = l.decisions ++ [(slot, text)] := by
  simp [decisions, write]

theorem notes_write_some (l : OutputLog) (slot : Slot) (text : String) :
    (l.write (some slot) text).notes = l.notes := by
  simp [notes, write]

theorem decisions_record (l : OutputLog) (e : Event) : (l.record e).decisions = l.decisions := by
  simp [decisions, record, write]

theorem notes_record (l : OutputLog) (e : Event) : (l.record e).notes = l.notes ++ [e.line] := by
  simp [notes, record, write]

/-- The decisions that are written, and after them those that wait. -/
def entries (l : OutputLog) : List (Slot × String) := l.decisions ++ l.pending.toList

/-- Flushing writes the decisions that wait, and nothing else. -/
theorem written_flush (l : OutputLog) :
    l.flush.decisions = l.entries ∧ l.flush.notes = l.notes := by
  have hwrite : ∀ (waiting : List (Slot × String)) (l : OutputLog),
      let l' := waiting.foldl
        (fun l (index, text) => { l.write (some index) text with next := index + 1 }) l
      l'.decisions = l.decisions ++ waiting ∧ l'.notes = l.notes := by
    intro waiting
    induction waiting with
    | nil => exact fun l => ⟨(List.append_nil _).symm, rfl⟩
    | cons d waiting ih =>
      intro l
      obtain ⟨hdecisions, hnotes⟩ := ih { l.write (some d.1) d.2 with next := d.1 + 1 }
      refine ⟨hdecisions.trans ?_, hnotes.trans (notes_write_some l d.1 d.2)⟩
      rw [List.append_cons]
      exact congrArg (· ++ waiting) (decisions_write_some l d.1 d.2)
  exact hwrite l.pending.toList { l with pending := ∅ }

/-- The log after the next line of the run has been written. -/
def advance (l : OutputLog) (text : String) : OutputLog :=
  { l.write (some l.next) text with next := l.next + 1, pending := l.pending.erase l.next }

theorem decisions_advance (l : OutputLog) (text : String) :
    (l.advance text).decisions = l.decisions ++ [(l.next, text)] :=
  decisions_write_some l l.next text

theorem entries_advance (hahead : ∀ slot ∈ l.pending, l.next ≤ slot)
    (hnext : l.pending[l.next]? = some text) : (l.advance text).entries = l.entries := by
  rw [entries, entries, decisions_advance, Tables.toList_eq_cons hnext hahead,
    List.append_assoc]
  rfl

/-- The log after a line has been put with those that wait. -/
def await (l : OutputLog) (slot : Slot) (text : String) : OutputLog :=
  { l with pending := l.pending.insert slot text }

/-- What each line of the run preserves holds when the run has come to its end. -/
theorem drain_induct {P : OutputLog → Prop}
    (hstep : ∀ l text, P l → l.pending[l.next]? = some text → P (l.advance text)) (n : Nat)
    (h : P l) : P (drain n l) := by
  induction n generalizing l with
  | zero => exact h
  | succ n ih =>
    rw [drain]
    split
    · rename_i text hnext
      exact ih (hstep l text h hnext)
    · exact h

theorem notes_recordIndexed (l : OutputLog) (slot : Slot) (e : Event) :
    (l.recordIndexed slot e).notes = l.notes := by
  unfold recordIndexed
  split
  · rfl
  · exact drain_induct (P := fun l' => l'.notes = l.notes)
      (fun l' text h _ => (notes_write_some l' l'.next text).trans h) _ rfl

theorem notes_foldl_add (events : List Event) (l : OutputLog) :
    (events.foldl add l).notes =
      l.notes ++ (events.filter (·.slot?.isNone)).map Event.line := by
  induction events generalizing l with
  | nil => exact (List.append_nil _).symm
  | cons e events ih =>
    rw [List.foldl_cons, ih, add]
    cases hslot : e.slot? with
    | some slot => simp [notes_recordIndexed, hslot]
    | none => simp [notes_record, hslot]

/-! ## The run of slots -/

/-- How far the run of slots has come, which is to go on with `next`. -/
inductive Run (memory : MemoryLog) (next : Slot) (written : List (Slot × String)) : Prop
  /-- The slots before `next` have been decided, and nothing else is written. -/
  | going (hpos : 0 < next) (hpassed : ∀ slot, 0 < slot → slot < next → slot ∈ memory.indexed)
      (hwritten : ∀ d ∈ written, 0 < d.1 ∧ d.1 < next)
  /-- All slots but 0 have been decided, and what is written does not begin with slot 0. -/
  | complete (hpassed : ∀ slot, 0 < slot → slot ∈ memory.indexed)
      (hhead : ∃ d rest, written = d :: rest ∧ 0 < d.1)

theorem Run.mono (h : Run memory slot written) (hgrow : ∀ k ∈ memory.indexed, k ∈ memory'.indexed) :
    Run memory' slot written :=
  match h with
  | .going hpos hpassed hwritten =>
    .going hpos (fun k hk hlt => hgrow k (hpassed k hk hlt)) hwritten
  | .complete hpassed hhead => .complete (fun k hk => hgrow k (hpassed k hk)) hhead

theorem Run.mem_indexed (h : Run memory next written) (hpos : 0 < slot) (hlt : slot < next) :
    slot ∈ memory.indexed :=
  match h with
  | .going _ hpassed _ => hpassed slot hpos hlt
  | .complete hpassed _ => hpassed slot hpos

/-- A slot that the run goes on with has been decided.  After the last slot the numbers wrap. -/
theorem Run.advance (h : Run memory next written) (hnext : next ∈ memory.indexed) (text : String) :
    Run memory (next + 1) (written ++ [(next, text)]) := by
  cases h with
  | going hpos hpassed hwritten =>
    have hle : ∀ slot, 0 < slot → slot ≤ next → slot ∈ memory.indexed := fun slot hslot hle => by
      rcases UInt32.le_iff_lt_or_eq.mp hle with hlt | rfl
      · exact hpassed slot hslot hlt
      · exact hnext
    by_cases hwrap : next + 1 = 0
    · refine .complete (fun slot hslot => hle slot hslot (by grind)) ?_
      cases written with
      | nil => exact ⟨_, [], rfl, hpos⟩
      | cons d rest =>
        exact ⟨d, rest ++ [(next, text)], rfl, (hwritten d List.mem_cons_self).1⟩
    · refine .going (by grind) (fun slot hslot hlt => hle slot hslot (by grind)) fun d hd => ?_
      rcases List.mem_append.mp hd with hd | hd
      · exact ⟨(hwritten d hd).1, by grind⟩
      · rw [List.mem_singleton.mp hd]
        exact ⟨hpos, by grind⟩
  | complete hpassed hhead =>
    obtain ⟨d, rest, rfl, hd⟩ := hhead
    exact .complete hpassed ⟨d, rest ++ [(next, text)], rfl, hd⟩

/-- A log of lines keeps what a log of events has recorded, apart from slot 0: the entries are
decisions in memory, and those for slots from 1 on are all of these, in ascending order. -/
structure Keeps (l : OutputLog) (memory : MemoryLog) : Prop where
  ahead : ∀ slot ∈ l.pending, l.next ≤ slot
  sound : ∀ d ∈ l.entries, d ∈ memory.decisions
  kept : ∀ d ∈ memory.decisions, 0 < d.1 → d ∈ l.entries
  ascending : (l.entries.filter (0 < ·.1)).Pairwise (·.1 < ·.1)
  run : Run memory l.next l.decisions

theorem keeps_empty : Keeps empty .empty where
  ahead := fun slot h => absurd h Std.ExtTreeMap.not_mem_empty
  sound := by simp [entries, decisions, empty]
  kept := by simp [MemoryLog.decisions, MemoryLog.empty]
  ascending := (Tables.ascending_toList (∅ : Std.ExtTreeMap Slot String)).filter _
  run := by
    refine .going (by decide) (fun slot hpos hlt => ?_) (by simp [decisions, empty])
    have hlt : slot < 1 := hlt
    grind

/-- The next line of the run changes nothing about what the log keeps. -/
theorem Keeps.advance (h : Keeps l memory) (hnext : l.pending[l.next]? = some text) :
    Keeps (l.advance text) memory := by
  have hentries := entries_advance h.ahead hnext
  refine ⟨fun slot hslot => ?_, hentries ▸ h.sound, hentries ▸ h.kept, hentries ▸ h.ascending, ?_⟩
  · obtain ⟨hne, hslot⟩ := Std.ExtTreeMap.mem_erase.mp hslot
    have hle := h.ahead slot hslot
    have hne : l.next ≠ slot := fun heq => hne (Std.compare_eq_iff_eq.mpr heq)
    show l.next + 1 ≤ slot
    grind
  · have hwaits : (l.next, text) ∈ l.pending.toList :=
      Std.ExtTreeMap.mem_toList_iff_getElem?_eq_some.mpr hnext
    rw [decisions_advance]
    exact h.run.advance (MemoryLog.mem_indexed_of_mem_decisions
      (h.sound _ (List.mem_append_right _ hwaits))) text

theorem Keeps.mem_entries_await (h : Keeps l memory) (hfresh : slot ∉ memory.indexed)
    {d : Slot × String} :
    d ∈ (l.await slot text).entries ↔ d = (slot, text) ∨ d ∈ l.entries := by
  have hnew : d ∈ l.pending.toList → d.1 ≠ slot := fun hd heq =>
    hfresh (heq ▸ MemoryLog.mem_indexed_of_mem_decisions (h.sound d (List.mem_append_right _ hd)))
  rw [entries, List.mem_append, await, Tables.mem_toList_insert, and_iff_right_of_imp hnew,
    or_left_comm, ← List.mem_append]
  rfl

theorem Keeps.ascending_await (h : Keeps l memory) (hfresh : slot ∉ memory.indexed)
    (hnext : ¬ slot < l.next) :
    ((l.await slot text).entries.filter (0 < ·.1)).Pairwise (·.1 < ·.1) := by
  have hascending := h.ascending
  rw [entries, List.filter_append, List.pairwise_append] at hascending ⊢
  obtain ⟨hwritten, -, hbefore⟩ := hascending
  refine ⟨hwritten, (Tables.ascending_toList _).filter _, fun d hd d' hd' => ?_⟩
  obtain ⟨hd', hpos⟩ := List.mem_filter.mp hd'
  rcases Tables.mem_toList_insert.mp hd' with rfl | ⟨-, hwaits⟩
  · -- the run has not passed the slot, and nothing from there on has been written
    cases h.run with
    | going _ _ hwritten =>
      exact UInt32.lt_of_lt_of_le (hwritten d (List.mem_filter.mp hd).1).2 (UInt32.not_lt.mp hnext)
    | complete hpassed _ => exact absurd (hpassed slot (of_decide_eq_true hpos)) hfresh
  · exact hbefore d hd d' (List.mem_filter.mpr ⟨hwaits, hpos⟩)

/-- A line of a slot that the run has not passed may wait. -/
theorem Keeps.await (h : Keeps l memory) (hfresh : slot ∉ memory.indexed)
    (hnext : ¬ slot < l.next) : Keeps (l.await slot e.line) (memory.recordIndexed slot e) := by
  have hmemory := fun d => MemoryLog.mem_decisions_recordIndexed (e := e) (d := d) hfresh
  refine ⟨fun k hk => ?_, fun d hd => ?_, fun d hd hpos => ?_, h.ascending_await hfresh hnext,
    h.run.mono fun k => MemoryLog.mem_recordIndexed⟩
  · rcases Std.ExtTreeMap.mem_insert.mp hk with heq | hk
    · rw [← Std.compare_eq_iff_eq.mp heq]
      exact UInt32.not_lt.mp hnext
    · exact h.ahead k hk
  · exact (hmemory d).mpr (((h.mem_entries_await hfresh).mp hd).imp_right (h.sound d))
  · exact (h.mem_entries_await hfresh).mpr
      (((hmemory d).mp hd).imp_right fun hd => h.kept d hd hpos)

/-- **A decision for a slot that has not been decided before is kept**, unless the slot is 0. -/
theorem Keeps.recordIndexed (h : Keeps l memory) (hfresh : slot ∉ memory.indexed) :
    Keeps (l.recordIndexed slot e) (memory.recordIndexed slot e) := by
  unfold OutputLog.recordIndexed
  split
  · rename_i hlt
    -- the run has passed the slot, which has not been decided: it is slot 0
    have hzero : ¬ 0 < slot := fun hpos => hfresh (h.run.mem_indexed hpos hlt)
    have hmemory := fun d => MemoryLog.mem_decisions_recordIndexed (e := e) (d := d) hfresh
    refine ⟨h.ahead, fun d hd => (hmemory d).mpr (Or.inr (h.sound d hd)), fun d hd hpos => ?_,
      h.ascending, h.run.mono fun k => MemoryLog.mem_recordIndexed⟩
    rcases (hmemory d).mp hd with rfl | hd
    · exact absurd hpos hzero
    · exact h.kept d hd hpos
  · rename_i hnext
    exact drain_induct (P := (Keeps · _)) (fun l text h hget => h.advance hget) _
      (h.await hfresh hnext)

theorem Keeps.record (h : Keeps l memory) : Keeps (l.record e) (memory.record e) := by
  have hdecisions := decisions_record l e
  have hentries : (l.record e).entries = l.entries := congrArg (· ++ l.pending.toList) hdecisions
  exact ⟨h.ahead, hentries ▸ h.sound, hentries ▸ h.kept, hentries ▸ h.ascending,
    hdecisions ▸ h.run.mono fun _ => id⟩

/-- **A row of events is kept** in which no slot is decided twice, apart from slot 0. -/
theorem Keeps.foldl_add {events : List Event} (h : Keeps l memory)
    (hdecided : (Event.decidedSlots events).Nodup)
    (hfresh : ∀ slot ∈ Event.decidedSlots events, slot ∉ memory.indexed) :
    Keeps (events.foldl add l) (events.foldl .add memory) := by
  induction events generalizing l memory with
  | nil => exact h
  | cons e events ih =>
    rw [List.foldl_cons, List.foldl_cons, add, MemoryLog.add]
    rw [Event.decidedSlots, List.filterMap_cons] at hdecided hfresh
    cases hslot : e.slot? with
    | none =>
      rw [hslot] at hdecided hfresh
      exact ih h.record hdecided hfresh
    | some slot =>
      rw [hslot] at hdecided hfresh
      obtain ⟨hnew, hdecided⟩ := List.nodup_cons.mp hdecided
      refine ih (h.recordIndexed (hfresh slot List.mem_cons_self)) hdecided fun k hk hmem => ?_
      rcases Std.ExtTreeMap.mem_insertIfNew.mp hmem with heq | hmem
      · exact hnew (Std.compare_eq_iff_eq.mp heq ▸ hk)
      · exact hfresh k (List.mem_cons_of_mem slot hk) hmem

/-- Unless all other slots have been decided, slot 0 is not logged, and it never comes first. -/
theorem Keeps.zero_last (h : Keeps l memory) : (∀ d ∈ l.entries, 0 < d.1) ∨
    (∀ slot, 0 < slot → slot ∈ memory.indexed) ∧ ∃ d rest, l.entries = d :: rest ∧ 0 < d.1 := by
  cases h.run with
  | going hpos _ hwritten =>
    refine Or.inl fun d hd => ?_
    rcases List.mem_append.mp hd with hd | hd
    · exact (hwritten d hd).1
    · exact UInt32.lt_of_lt_of_le hpos (h.ahead d.1 (Tables.mem_of_mem_toList hd))
  | complete hpassed hhead =>
    obtain ⟨d, rest, heq, hd⟩ := hhead
    exact Or.inr ⟨hpassed, d, rest ++ l.pending.toList, by rw [entries, heq]; rfl, hd⟩

theorem Keeps.filter_entries (h : Keeps l memory) :
    l.entries.filter (0 < ·.1) = memory.decisions.filter (0 < ·.1) := by
  refine Tables.eq_of_ascending h.ascending (memory.ascending_decisions.filter _) fun d => ?_
  rw [List.mem_filter, List.mem_filter]
  constructor
  · exact fun ⟨hd, hpos⟩ => ⟨h.sound d hd, hpos⟩
  · exact fun ⟨hd, hpos⟩ => ⟨h.kept d hd (of_decide_eq_true hpos), hpos⟩

theorem Keeps.entries_eq_iff (h : Keeps l memory) :
    l.entries = memory.decisions ↔ 0 ∉ memory.indexed := by
  constructor
  · intro heq hzero
    obtain ⟨e, he⟩ := Option.isSome_iff_exists.mp
      (Std.ExtTreeMap.mem_iff_isSome_getElem?.mp hzero)
    have hfirst : l.entries = (0, e.line) ::
        (memory.indexed.erase 0).toList.map fun (slot, e) => (slot, e.line) := by
      rw [heq, MemoryLog.decisions, Tables.toList_eq_cons he fun _ _ => UInt32.zero_le]
      rfl
    rcases h.zero_last with hpos | ⟨-, d, rest, hentries, hd⟩
    · have hzero : (0, e.line) ∈ l.entries := hfirst ▸ List.mem_cons_self
      exact UInt32.lt_irrefl 0 (hpos _ hzero)
    · obtain ⟨rfl, -⟩ := List.cons.inj (hfirst.symm.trans hentries)
      exact UInt32.lt_irrefl 0 hd
  · intro hzero
    have hpos : ∀ d ∈ memory.decisions, decide (0 < d.1) = true := fun d hd =>
      decide_eq_true (UInt32.pos_iff_ne_zero.mpr fun heq =>
        hzero (heq ▸ MemoryLog.mem_indexed_of_mem_decisions hd))
    rw [← List.filter_eq_self.mpr hpos, ← h.filter_entries,
      List.filter_eq_self.mpr fun d hd => hpos d (h.sound d hd)]

/-- **A log of lines keeps all decisions exactly if slot 0 is not among them.**

Take any row of events in which no slot is decided twice, record it in a log of lines and in a log
of events, and flush.  The log of events has the decision for each slot and all other events in
order.  The log of lines has the lines of these other events in the same order, and the lines of the
decisions for all slots from 1 on, once each and in ascending order of the slots.  If no decision is
for slot 0, these are all decisions; otherwise the lines of the decisions are not those in memory,
and there is none for slot 0 unless all `2 ^ 32` slots are decided. -/
theorem keeps_decisions_iff (events : List Event)
    (hdecided : (Event.decidedSlots events).Nodup) :
    ∃ (l : OutputLog) (memory : MemoryLog),
      Sink.recordAll OutputLog.empty events = .ok l ∧
      Sink.recordAll MemoryLog.empty events = .ok memory ∧
      memory.events = events.filter (·.slot?.isNone) ∧
      (∀ slot : Slot, memory.indexed[slot]? = events.find? (·.slot? = some slot)) ∧
      l.notes = memory.events.map Event.line ∧
      l.decisions.filter (0 < ·.1) = memory.decisions.filter (0 < ·.1) ∧
      (l.decisions = memory.decisions ↔ 0 ∉ Event.decidedSlots events) ∧
      (0 ∈ l.decisions.map Prod.fst → ∀ slot, slot ∈ Event.decidedSlots events) := by
  have hkeeps := keeps_empty.foldl_add hdecided fun slot _ => Std.ExtTreeMap.not_mem_empty
  obtain ⟨hdecisions, hnotes⟩ := written_flush (events.foldl add empty)
  have hslots : ∀ slot, slot ∈ (events.foldl MemoryLog.add .empty).indexed ↔
      slot ∈ Event.decidedSlots events := fun slot => MemoryLog.mem_indexed_foldl_add
  have hevents := MemoryLog.events_foldl_add events .empty
  refine ⟨_, _, Sink.recordAll_of_total recordEvent_eq empty events,
    Sink.recordAll_of_total MemoryLog.recordEvent_eq .empty events, hevents,
    MemoryLog.getElem?_foldl_add events .empty, ?_, ?_, ?_, fun hzero slot => ?_⟩
  · rw [hnotes, notes_foldl_add, hevents]
    rfl
  · rw [hdecisions, hkeeps.filter_entries]
  · rw [hdecisions, hkeeps.entries_eq_iff, hslots]
  · obtain ⟨d, hd, hfst⟩ := List.mem_map.mp hzero
    rw [hdecisions] at hd
    rcases hkeeps.zero_last with hpos | ⟨hpassed, -⟩
    · exact absurd (hpos d hd) (hfst ▸ UInt32.lt_irrefl 0)
    · rw [← hslots]
      by_cases hslot : 0 < slot
      · exact hpassed slot hslot
      · have heq : slot = d.1 := by grind
        exact heq ▸ MemoryLog.mem_indexed_of_mem_decisions (hkeeps.sound d hd)

/-- Slot 3 is decided before slot 1, and slot 2 is not decided. -/
def gapEvents : List Event := [.decide 3 (.ofList [5]), .broadcast 1, .decide 1 (.ofList [7, 2])]

theorem keeps_decisions_iff_gapEvents :
    (Event.decidedSlots gapEvents).Nodup ∧
      ∃ (l : OutputLog) (memory : MemoryLog),
        Sink.recordAll OutputLog.empty gapEvents = .ok l ∧
        Sink.recordAll MemoryLog.empty gapEvents = .ok memory ∧
        l.notes = memory.events.map Event.line ∧ l.decisions = memory.decisions ∧
        l.text = "b 1\n2 7\n5\n" := by
  have hdecided : (Event.decidedSlots gapEvents).Nodup := by decide
  obtain ⟨l, memory, hl, hmemory, -, -, hnotes, -, hdecisions, -⟩ :=
    keeps_decisions_iff gapEvents hdecided
  have htext : (Sink.recordAll OutputLog.empty gapEvents).map OutputLog.text =
      .ok "b 1\n2 7\n5\n" := by decide +kernel
  rw [hl] at htext
  exact ⟨hdecided, l, memory, hl, hmemory, hnotes, hdecisions.mpr (by decide),
    Except.ok.inj htext⟩

/-- What member 1 of two reports that proposes 7 for slot 0, when both have accepted it. -/
def slotZeroEvents : List Event :=
  match (LatticeAgreement.ofHosts 1 .pair {}).onCommand ⟨0, .ofList [7]⟩ 0 with
  | .ok step =>
    let own := step.state.onMessage 1 ⟨.data, 1, 1, 2, 0, (AgreementMessage.ack 0 0).encode⟩ 0
    let other := own.state.onMessage 2 ⟨.data, 2, 1, 1, 0, (AgreementMessage.ack 0 0).encode⟩ 0
    step.result ++ own.result ++ other.result
  | .error _ => []

/-- **A decision for slot 0 is lost** by the log of lines, and kept in memory. -/
theorem loses_slot_zero :
    slotZeroEvents = [.decide 0 (.ofList [7])] ∧
      (Sink.recordAll OutputLog.empty slotZeroEvents).map OutputLog.text = .ok "" ∧
      (Sink.recordAll MemoryLog.empty slotZeroEvents).map MemoryLog.decisions =
        .ok [(0, "7")] := by
  decide +kernel

end OutputLog

end Groupcast
