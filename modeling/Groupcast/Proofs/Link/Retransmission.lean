import Groupcast.Proofs.Link.Schedule
import Groupcast.Proofs.Trace
import Mathlib.Data.Set.List

/-!
# What a stubborn link sends again

A stubborn link may be given anything to send, may be handed any message whether or not it is meant
for it, may be woken at any time, also late or with a clock that runs backwards, and may be stopped.
Whatever it is made to do, it loses sight of no data message that it has sent (`Posting`).  Until it
is stopped, such a message waits, with a timer of its own (`Posting.InFlight.waits`), exactly until
an acknowledgement of its id comes in (`Posting.contains_acked_iff`), and nothing else waits
(`Posting.exists_inFlight`).  So what a link sends when it is woken can be told from what it has
been made to do (`Posting.exists_sent_onTimeout`): the messages in flight whose deadlines have
passed, each once, in the order of their deadlines and then of their ids, and as they were sent at
first.

All of this is for links that are given too few messages for their ids to wrap.
-/

namespace Groupcast

open PerfectLink (Move)

namespace PerfectLink.Move

/-- The move hands the link an acknowledgement of an id. -/
def Acks (id : UInt32) (mv : Move) : Prop :=
  ∃ m, mv = .deliver m ∧ m.kind = .ack ∧ m.ackedId = .ok id

/-- The move makes the link forget the message with an id. -/
def Ends (id : UInt32) (mv : Move) : Prop := mv = .stop ∨ mv.Acks id

/-- What a move does to a timer that is not taken away: if the link is woken and the timer is due,
it is armed again. -/
def advance (task : Timer) : Move → Timer
  | .timeout now => task.advance now
  | .rest | .send _ _ | .deliver _ | .stop => task

end PerfectLink.Move

namespace StubbornLink

/-- Makes a link do something. -/
def move (l : StubbornLink) : Move → Step StubbornLink Unit
  | .rest => ⟨l, [], ()⟩
  | .send m now => ⟨(l.send m now).state, (l.send m now).sent, ()⟩
  | .deliver m => ⟨(l.deliver m).state, (l.deliver m).sent, ()⟩
  | .timeout now => l.onTimeout now
  | .stop => ⟨l.stop, [], ()⟩

/-- What becomes of a link that is made to do one thing after the other. -/
def after (l : StubbornLink) (moves : List Move) : StubbornLink :=
  moves.foldl (fun l mv => (l.move mv).state) l

/-- The number of messages that moves give a link to send. -/
def sends : List Move → Nat
  | [] => 0
  | mv :: moves => mv.sends + sends moves

/-- The link has a timer for each message that waits, and has been given `n` messages to send. -/
def Scheduled (l : StubbornLink) (n : Nat) : Prop := PerfectLink.Scheduled ⟨l, n, .empty⟩

variable {l : StubbornLink} {mv : Move} {moves : List Move} {i : UInt32} {n now : Nat} {m : Message}

/-! ## What a link keeps up -/

/-- A perfect link moves the stubborn link that it sits on. -/
theorem link_move (l : PerfectLink) (mv : Move) :
    (l.move mv).state.link = (l.link.move mv).state := by
  cases mv with
  | deliver m =>
    cases hkind : m.kind with
    | ack =>
      rw [PerfectLink.move, (PerfectLink.deliver_of_ack hkind).2.2]
      simp only [move, deliver, hkind]
      cases m.ackedId <;> rfl
    | data =>
      rw [PerfectLink.move, (PerfectLink.deliver_of_data hkind).2.2]
      simp only [move, deliver, hkind]
    | heartbeat | heartbeatAck =>
      rw [PerfectLink.move, PerfectLink.deliver_of_isControl (by rw [hkind]; rfl)]
      simp only [move, deliver, hkind]
  | rest | send m now | timeout now | stop => rfl

theorem peer_move (mv : Move) : (l.move mv).state.peer = l.peer := by
  have h := PerfectLink.move_peer (l := ⟨l, 0, .empty⟩) mv
  rwa [link_move] at h

theorem interval_move (mv : Move) : (l.move mv).state.interval = l.interval := by
  have h := PerfectLink.move_interval (l := ⟨l, 0, .empty⟩) mv
  rwa [link_move] at h

theorem Scheduled.move (h : l.Scheduled n) (hids : n + mv.sends < UInt32.size) :
    (l.move mv).state.Scheduled (n + mv.sends) := by
  have hmoved : ((⟨l, n, .empty⟩ : PerfectLink).move mv).state.Scheduled :=
    PerfectLink.Scheduled.move h (by rwa [PerfectLink.move_sentCount])
  rw [Scheduled, ← link_move ⟨l, n, .empty⟩, ← PerfectLink.move_sentCount (l := ⟨l, n, .empty⟩)]
  exact { hmoved with }

theorem after_append (l : StubbornLink) (moves : List Move) (mv : Move) :
    l.after (moves ++ [mv]) = ((l.after moves).move mv).state := List.foldl_concat ..

theorem sends_append (moves moves' : List Move) :
    sends (moves ++ moves') = sends moves + sends moves' := by
  induction moves with
  | nil => exact (Nat.zero_add _).symm
  | cons mv moves ih => rw [List.cons_append, sends, sends, ih, Nat.add_assoc]

theorem peer_after (moves : List Move) : (l.after moves).peer = l.peer := by
  induction moves using List.reverseRecOn with
  | nil => rfl
  | append_singleton moves mv ih => rw [after_append, peer_move, ih]

theorem interval_after (moves : List Move) : (l.after moves).interval = l.interval := by
  induction moves using List.reverseRecOn with
  | nil => rfl
  | append_singleton moves mv ih => rw [after_append, interval_move, ih]

theorem Scheduled.after (h : l.Scheduled n) (hids : n + sends moves < UInt32.size) :
    (l.after moves).Scheduled (n + sends moves) := by
  induction moves using List.reverseRecOn with
  | nil => exact h
  | append_singleton moves mv ih =>
    rw [sends_append, sends, sends, Nat.add_zero] at hids ⊢
    rw [after_append, ← Nat.add_assoc]
    exact (ih (by omega)).move (by omega)

/-! ## What a move does to the messages that wait -/

theorem move_send_of_data (hkind : m.kind = .data) (now : Nat) :
    (l.move (.send m now)).state = { l with
      lastId := l.lastId + 1
      sent := l.sent.insert (l.lastId + 1) (l.stamp m)
      timers := l.timers.schedule (l.lastId + 1) (now + l.interval) l.interval } :=
  if_pos (show (l.stamp m).kind = .data from hkind)

/-- What is not data is not kept. -/
theorem move_send_of_ne_data (hkind : m.kind ≠ .data) (now : Nat) :
    (l.move (.send m now)).state = { l with lastId := l.lastId + 1 } :=
  if_neg (show (l.stamp m).kind ≠ .data from hkind)

/-- A message that is handed to a link changes what waits only if it is an acknowledgement. -/
theorem deliver_cases (l : StubbornLink) (m : Message) :
    (∃ id, Move.Acks id (.deliver m) ∧ (l.move (.deliver m)).state = l.acknowledge id) ∨
      (∀ id, ¬ Move.Acks id (.deliver m)) ∧ (l.move (.deliver m)).state = l := by
  by_cases hacks : ∃ id, Move.Acks id (.deliver m)
  · obtain ⟨id, _, ⟨rfl⟩, hkind, hid⟩ := hacks
    refine Or.inl ⟨id, ⟨m, rfl, hkind, hid⟩, ?_⟩
    simp only [StubbornLink.move, deliver, hkind, hid]
  · refine Or.inr ⟨fun id h => hacks ⟨id, h⟩, ?_⟩
    simp only [StubbornLink.move, deliver]
    cases hkind : m.kind with
    | ack =>
      cases hid : m.ackedId with
      | ok id => exact absurd ⟨id, m, rfl, hkind, hid⟩ hacks
      | error e => rfl
    | data | heartbeat | heartbeatAck => rfl

/-- A message names one id as acknowledged. -/
theorem acks_inj {id : UInt32} (h : mv.Acks id) : mv.Acks i ↔ id = i := by
  obtain ⟨m, rfl, hkind, hid⟩ := h
  constructor
  · rintro ⟨_, ⟨rfl⟩, -, hid'⟩
    rw [hid] at hid'
    exact Except.ok.inj hid'
  · rintro rfl
    exact ⟨m, rfl, hkind, hid⟩

/-- What a link sends when it is woken are the messages that are due. -/
theorem Scheduled.sent_onTimeout (h : l.Scheduled n) (now : Nat) :
    (l.onTimeout now).sent =
      (l.timers.fired now).filterMap fun d => l.sent[d.key]?.map l.datagram := by
  have hall : (l.timers.due now).filter (fun id => !l.acked.contains id) = l.timers.due now := by
    refine List.filter_eq_self.mpr fun id hid => ?_
    simpa using List.filter_eq_nil_iff.mp (h.filter_due now) id hid
  rw [show (l.onTimeout now).sent = List.filterMap _ (List.filter _ _) from rfl, hall,
    Timers.due, List.filterMap_map]
  rfl

theorem mem_sent (h : l.sent[i]? = some m) : i ∈ l.sent := by
  rw [Std.ExtTreeMap.mem_iff_isSome_getElem?, h]
  rfl

/-- No message waits under the next id. -/
theorem Scheduled.ne_succ_lastId (h : l.Scheduled n) (hi : i ∈ l.sent) : i ≠ l.lastId + 1 := by
  rintro rfl
  by_cases hzero : l.lastId + 1 = 0
  · have hunacked := h.unacked _ hi
    rw [hzero, Window.contains_zero] at hunacked
    cases hunacked
  · have hle : (l.lastId + 1).toNat ≤ n := h.le_of_mem _ hi
    have hlast : l.lastId.toNat = n := h.lastId_eq
    rw [UInt32.toNat_succ hzero, hlast] at hle
    omega

/-- Acknowledging an id that does not wait changes nothing. -/
theorem acknowledge_of_not_mem (h : i ∉ l.sent) : l.acknowledge i = l := by
  rw [acknowledge, if_neg]
  rwa [Std.ExtTreeMap.contains_iff_mem]

/-- A message comes to wait by being sent, and waits until the link is to forget it. -/
theorem Scheduled.getElem?_sent_move (h : l.Scheduled n) (mv : Move) :
    (l.move mv).state.sent[i]? = some m ↔
      (l.sent[i]? = some m ∧ ¬ mv.Ends i) ∨
        ∃ m₀ now, mv = .send m₀ now ∧ m₀.kind = .data ∧ i = l.lastId + 1 ∧ m = l.stamp m₀ := by
  cases mv with
  | send m₀ now =>
    have hkeep : ¬ Move.Ends i (.send m₀ now) := by simp [Move.Ends, Move.Acks]
    rw [and_iff_left hkeep]
    by_cases hkind : m₀.kind = .data
    · rw [move_send_of_data hkind, Std.ExtTreeMap.getElem?_insert]
      by_cases hi : i = l.lastId + 1
      · have hnew : l.sent[i]? ≠ some m := fun hold => h.ne_succ_lastId (mem_sent hold) hi
        simp [hi, hkind, hi ▸ hnew, eq_comm]
      · simp [hi, Ne.symm hi]
    · rw [move_send_of_ne_data hkind]
      simp [hkind]
  | deliver m₀ =>
    simp only [reduceCtorEq, false_and, exists_false, or_false, Move.Ends, false_or]
    rcases l.deliver_cases m₀ with ⟨id, hacks, hstate⟩ | ⟨hacks, hstate⟩
    · rw [hstate, getElem?_sent_acknowledge, acks_inj hacks]
      by_cases hi : id = i
      · simp [hi]
      · simp [hi]
    · rw [hstate, and_iff_left (hacks i)]
  | rest | timeout now => simp [StubbornLink.move, Move.Ends, Move.Acks, onTimeout]
  | stop => simp [StubbornLink.move, Move.Ends, stop]

/-- An id comes to count as acknowledged if its message waits when the acknowledgement comes in. -/
theorem Scheduled.contains_acked_move (h : l.Scheduled n) (mv : Move) :
    (l.move mv).state.acked.contains i = true ↔
      l.acked.contains i = true ∨ mv.Acks i ∧ i ∈ l.sent := by
  cases mv with
  | deliver m =>
    rcases l.deliver_cases m with ⟨id, hacks, hstate⟩ | ⟨hacks, hstate⟩
    · rw [hstate, acks_inj hacks]
      by_cases hid : id ∈ l.sent
      · rw [acknowledge, if_pos (Std.ExtTreeMap.contains_iff_mem.mpr hid),
          Window.contains_insert h.sound, or_comm]
        refine or_congr_right ⟨?_, fun heq => heq.1.symm⟩
        rintro rfl
        exact ⟨rfl, hid⟩
      · rw [acknowledge_of_not_mem hid]
        refine (or_iff_left ?_).symm
        rintro ⟨rfl, hmem⟩
        exact hid hmem
    · rw [hstate]
      exact (or_iff_left fun h => hacks i h.1).symm
  | send m now =>
    by_cases hkind : m.kind = .data
    · simp [move_send_of_data hkind, Move.Acks]
    · simp [move_send_of_ne_data hkind, Move.Acks]
  | rest | timeout now | stop => simp [StubbornLink.move, onTimeout, stop, Move.Acks]

/-- The timer of a message that goes on waiting is armed again whenever it is due. -/
theorem Scheduled.getElem?_tasks_move (h : l.Scheduled n) (hi : i ∈ l.sent) (hkeep : ¬ mv.Ends i) :
    (l.move mv).state.timers.tasks[i]? = l.timers.tasks[i]?.map (Move.advance · mv) := by
  have hsame : l.timers.tasks[i]? = l.timers.tasks[i]?.map fun task => task :=
    Option.map_id'.symm
  cases mv with
  | send m now =>
    have hne := h.ne_succ_lastId hi
    by_cases hkind : m.kind = .data
    · rw [move_send_of_data hkind, Timers.getElem?_tasks_schedule, if_neg hne.symm]
      exact hsame
    · rw [move_send_of_ne_data hkind]
      exact hsame
  | deliver m =>
    rcases l.deliver_cases m with ⟨id, hacks, hstate⟩ | ⟨hacks, hstate⟩
    · have hne : id ≠ i := fun heq => hkeep (Or.inr ((acks_inj hacks).mpr heq))
      rw [hstate, acknowledge]
      split
      · rw [Timers.getElem?_tasks_cancel, if_neg hne]
        exact hsame
      · exact hsame
    · rw [hstate]
      exact hsame
  | timeout now =>
    have hfilter : (l.timers.due now).filter l.acked.contains = [] := h.filter_due now
    rw [StubbornLink.move, onTimeout, hfilter]
    exact Timers.getElem?_tasks_advance h.consistent now i
  | rest => exact hsame
  | stop => exact absurd (Or.inl rfl) hkeep

end StubbornLink

open StubbornLink (sends)

/-! ## Messages in a run -/

/-- A data message that a link is given to send, with all that the link is made to do before and
after that. -/
structure Posting where
  earlier : List Move
  message : Message
  time : Nat
  later : List Move
  kind_eq : message.kind = .data

namespace Posting

variable {l : StubbornLink} {p q : Posting} {mv : Move} {n now : Nat}

/-- All that the link is made to do. -/
def moves (p : Posting) : List Move := p.earlier ++ .send p.message p.time :: p.later

/-- The same, and one thing more. -/
def append (p : Posting) (mv : Move) : Posting := { p with later := p.later ++ [mv] }

/-- The id under which the link sends the message. -/
def id (p : Posting) (l : StubbornLink) : UInt32 :=
  ((l.after p.earlier).send p.message p.time).result

/-- What the link emits when it is given the message to send. -/
def transmission (p : Posting) (l : StubbornLink) : List Datagram :=
  ((l.after p.earlier).send p.message p.time).sent

/-- An acknowledgement of the message has come in since it was sent. -/
def Acked (p : Posting) (l : StubbornLink) : Prop := ∃ mv ∈ p.later, mv.Acks (p.id l)

/-- Since the message was sent, neither has it been acknowledged nor the link stopped. -/
def InFlight (p : Posting) (l : StubbornLink) : Prop := .stop ∉ p.later ∧ ¬ p.Acked l

/-- The timer of the message, which is armed when the message is sent, and again whenever it is
due. -/
def timer (p : Posting) (l : StubbornLink) : Timer :=
  p.later.foldl Move.advance ⟨l.interval, p.time + l.interval⟩

/-- When the message is to be sent again. -/
def deadline (p : Posting) (l : StubbornLink) : Deadline UInt32 := ⟨(p.timer l).deadline, p.id l⟩

/-- The posting at the end of a run, and then one thing more that the link is made to do. -/
theorem induction {P : Posting → Prop}
    (last : ∀ earlier message time kind_eq, P ⟨earlier, message, time, [], kind_eq⟩)
    (append : ∀ p mv, P p → P (p.append mv)) (p : Posting) : P p := by
  obtain ⟨earlier, message, time, later, kind_eq⟩ := p
  induction later using List.reverseRecOn with
  | nil => exact last earlier message time kind_eq
  | append_singleton later mv ih => exact append _ mv ih

@[simp] theorem moves_append : (p.append mv).moves = p.moves ++ [mv] := by
  simp [moves, append]

@[simp] theorem id_append : (p.append mv).id l = p.id l := rfl

@[simp] theorem acked_append : (p.append mv).Acked l ↔ p.Acked l ∨ mv.Acks (p.id l) := by
  simp [Acked, append, or_and_right, exists_or, id]

@[simp] theorem inFlight_append :
    (p.append mv).InFlight l ↔ p.InFlight l ∧ ¬ mv.Ends (p.id l) := by
  have hstop : .stop ∉ (p.append mv).later ↔ .stop ∉ p.later ∧ mv ≠ .stop := by
    simp [append, eq_comm]
  rw [InFlight, hstop, acked_append, not_or, Move.Ends, not_or, and_and_and_comm]
  rfl

@[simp] theorem timer_append : (p.append mv).timer l = Move.advance (p.timer l) mv := by
  simp [timer, append]

/-! ## Ids of messages -/

/-- Ids count the messages that the link is given to send. -/
theorem toNat_id (h : l.Scheduled 0) (hids : sends p.moves < UInt32.size) :
    (p.id l).toNat = sends p.earlier + 1 := by
  have hle : sends p.earlier + 1 < UInt32.size := by
    rw [moves, StubbornLink.sends_append, StubbornLink.sends] at hids
    exact Nat.lt_of_le_of_lt (by simp only [Move.sends]; omega) hids
  have hafter : (l.after p.earlier).Scheduled (0 + sends p.earlier) := h.after (by omega)
  have hlast : (l.after p.earlier).lastId.toNat = 0 + sends p.earlier := hafter.lastId_eq
  show ((l.after p.earlier).lastId + 1).toNat = _
  rw [UInt32.toNat_add, hlast, Nat.zero_add]
  exact Nat.mod_eq_of_lt hle

/-- A message before which as many are sent as before another one does not come earlier. -/
theorem eq_of_earlier_le (hmoves : p.moves = q.moves) (hle : p.earlier <+: q.earlier)
    (hsends : sends p.earlier = sends q.earlier) : p = q := by
  obtain ⟨between, hbetween⟩ := hle
  obtain ⟨earlier, m, t, later, hkind⟩ := p
  obtain ⟨earlier', m', t', later', hkind'⟩ := q
  simp only [moves] at hmoves hbetween hsends
  subst hbetween
  rw [List.append_assoc, List.append_cancel_left_eq] at hmoves
  cases between with
  | nil =>
    rw [List.nil_append, List.cons.injEq, Move.send.injEq] at hmoves
    obtain ⟨⟨rfl, rfl⟩, rfl⟩ := hmoves
    simp
  | cons mv between =>
    obtain ⟨rfl, -⟩ := List.cons.inj hmoves
    rw [StubbornLink.sends_append, StubbornLink.sends] at hsends
    simp only [Move.sends] at hsends
    omega

/-- Messages of one run are told apart by their ids. -/
theorem eq_of_id_eq (h : l.Scheduled 0) (hids : sends p.moves < UInt32.size)
    (hmoves : p.moves = q.moves) (hid : p.id l = q.id l) : p = q := by
  have hsends : sends p.earlier = sends q.earlier := by
    refine Nat.succ.inj ?_
    rw [Nat.succ_eq_add_one, Nat.succ_eq_add_one, ← toNat_id h hids, ← toNat_id h (hmoves ▸ hids),
      hid]
  have hp : p.earlier <+: p.moves := List.prefix_append _ _
  have hq : q.earlier <+: p.moves := hmoves ▸ List.prefix_append _ _
  rcases List.prefix_or_prefix_of_prefix hp hq with hle | hle
  · exact eq_of_earlier_le hmoves hle hsends
  · exact (eq_of_earlier_le hmoves.symm hle hsends.symm).symm

/-! ## What becomes of a message -/

/-- **A message that is in flight waits, with a timer of its own.** -/
theorem InFlight.waits (hflight : p.InFlight l) (h : l.Scheduled 0)
    (hids : sends p.moves < UInt32.size) :
    (l.after p.moves).sent[p.id l]? = some ((l.after p.earlier).stamp p.message) ∧
      (l.after p.moves).timers.tasks[p.id l]? = some (p.timer l) := by
  induction p using induction with
  | last earlier m t hkind =>
    have hmoves : (⟨earlier, m, t, [], hkind⟩ : Posting).moves = earlier ++ [.send m t] := rfl
    rw [hmoves, StubbornLink.after_append, StubbornLink.move_send_of_data hkind]
    refine ⟨?_, ?_⟩
    · exact Std.ExtTreeMap.getElem?_insert_self
    · refine (Timers.getElem?_tasks_schedule (i := (l.after earlier).lastId + 1)).trans ?_
      rw [if_pos rfl, StubbornLink.interval_after]
      rfl
  | append p mv ih =>
    obtain ⟨hold, hkeep⟩ := inFlight_append.mp hflight
    rw [moves_append] at hids ⊢
    have hids' : sends p.moves < UInt32.size := by
      rw [StubbornLink.sends_append] at hids
      omega
    have hafter := h.after (by rwa [Nat.zero_add])
    obtain ⟨hsent, htask⟩ := ih hold hids'
    rw [id_append, StubbornLink.after_append]
    refine ⟨(hafter.getElem?_sent_move mv).mpr (Or.inl ⟨hsent, hkeep⟩), ?_⟩
    rw [hafter.getElem?_tasks_move (StubbornLink.mem_sent hsent) hkeep, htask, timer_append]
    rfl

theorem InFlight.mem_sent (hflight : p.InFlight l) (h : l.Scheduled 0)
    (hids : sends p.moves < UInt32.size) : p.id l ∈ (l.after p.moves).sent :=
  StubbornLink.mem_sent (hflight.waits h hids).1

/-- **As long as the link is not stopped, a message counts as acknowledged exactly if an
acknowledgement of it has come in since it was sent.** -/
theorem contains_acked_iff (h : l.Scheduled 0) (hids : sends p.moves < UInt32.size)
    (hstop : .stop ∉ p.later) : (l.after p.moves).acked.contains (p.id l) = true ↔ p.Acked l := by
  induction p using induction with
  | last earlier m t hkind =>
    have hnone : ¬ (⟨earlier, m, t, [], hkind⟩ : Posting).Acked l := by simp [Acked]
    have hmem := InFlight.mem_sent ⟨hstop, hnone⟩ h hids
    have hafter := h.after (by rwa [Nat.zero_add])
    rw [iff_false_right hnone, Bool.not_eq_true]
    exact hafter.unacked _ hmem
  | append p mv ih =>
    have hstop' : .stop ∉ p.later := fun hmem => hstop (List.mem_append_left _ hmem)
    rw [moves_append] at hids ⊢
    have hids' : sends p.moves < UInt32.size := by
      rw [StubbornLink.sends_append] at hids
      omega
    have hafter := h.after (by rwa [Nat.zero_add])
    rw [id_append, acked_append, StubbornLink.after_append, hafter.contains_acked_move,
      ih hids' hstop']
    by_cases hacked : p.Acked l
    · simp [hacked]
    · have hflight : p.InFlight l := ⟨hstop', hacked⟩
      simp [hacked, hflight.mem_sent h hids']

/-- Only what has been sent, and is in flight, waits. -/
theorem exists_inFlight {moves : List Move} {i : UInt32} (h : l.Scheduled 0)
    (hids : sends moves < UInt32.size) (hi : i ∈ (l.after moves).sent) :
    ∃ p : Posting, p.moves = moves ∧ p.InFlight l ∧ p.id l = i := by
  induction moves using List.reverseRecOn with
  | nil =>
    have hle : i.toNat ≤ 0 := h.le_of_mem i hi
    have hzero : i = 0 := UInt32.toNat_inj.mp (Nat.le_zero.mp hle)
    have hunacked := h.unacked i hi
    rw [hzero, Window.contains_zero] at hunacked
    cases hunacked
  | append_singleton moves mv ih =>
    have hids' : sends moves < UInt32.size := by
      rw [StubbornLink.sends_append] at hids
      omega
    have hafter := h.after (by rwa [Nat.zero_add])
    obtain ⟨m, hm⟩ := Option.isSome_iff_exists.mp (Std.ExtTreeMap.mem_iff_isSome_getElem?.mp hi)
    rw [StubbornLink.after_append, hafter.getElem?_sent_move] at hm
    rcases hm with ⟨hold, hkeep⟩ | ⟨m₀, now, rfl, hkind, rfl, -⟩
    · obtain ⟨p, rfl, hflight, rfl⟩ := ih hids' (StubbornLink.mem_sent hold)
      exact ⟨p.append mv, moves_append, inFlight_append.mpr ⟨hflight, hkeep⟩, rfl⟩
    · exact ⟨⟨moves, m₀, now, [], hkind⟩, rfl, ⟨List.not_mem_nil, by simp [Acked]⟩, rfl⟩

/-- Only what has been sent counts as acknowledged. -/
theorem exists_of_acked {moves : List Move} {i : UInt32} (h : l.Scheduled 0)
    (hids : sends moves < UInt32.size) (hne : i ≠ 0)
    (hi : (l.after moves).acked.contains i = true) :
    ∃ p : Posting, p.moves = moves ∧ p.id l = i := by
  induction moves using List.reverseRecOn with
  | nil =>
    have hle : i.toNat ≤ 0 := h.le_of_acked i hi
    exact absurd (UInt32.toNat_inj.mp (Nat.le_zero.mp hle)) hne
  | append_singleton moves mv ih =>
    have hids' : sends moves < UInt32.size := by
      rw [StubbornLink.sends_append] at hids
      omega
    have hafter := h.after (by rwa [Nat.zero_add])
    rw [StubbornLink.after_append, hafter.contains_acked_move] at hi
    have hposted : ∃ p : Posting, p.moves = moves ∧ p.id l = i := by
      rcases hi with hold | ⟨-, hmem⟩
      · exact ih hids' hold
      · obtain ⟨p, hmoves, -, hid⟩ := exists_inFlight h hids' hmem
        exact ⟨p, hmoves, hid⟩
    obtain ⟨p, rfl, rfl⟩ := hposted
    exact ⟨p.append mv, moves_append, rfl⟩

/-! ## What is sent again -/

/-- The datagram that carries the message. -/
def copy (p : Posting) (l : StubbornLink) : Datagram :=
  (l.after p.earlier).datagram ((l.after p.earlier).stamp p.message)

theorem transmission_eq (p : Posting) (l : StubbornLink) : p.transmission l = [p.copy l] := rfl

/-- A link goes on sending to the same peer. -/
theorem datagram_after (moves : List Move) :
    (l.after moves).datagram ((l.after p.earlier).stamp p.message) = p.copy l := by
  rw [copy, StubbornLink.datagram, StubbornLink.datagram, StubbornLink.peer_after,
    StubbornLink.peer_after]

/-- The deadlines that have passed are those of messages in flight. -/
theorem exists_of_fired {moves : List Move} {d : Deadline UInt32} (h : l.Scheduled 0)
    (hids : sends moves < UInt32.size) (hd : d ∈ (l.after moves).timers.fired now) :
    ∃ p : { p : Posting // p.moves = moves ∧ p.InFlight l }, p.1.deadline l = d := by
  have hafter := h.after (by rwa [Nat.zero_add])
  obtain ⟨task, htask, htime⟩ :=
    Option.map_eq_some_iff.mp ((hafter.consistent d).mp (Timers.mem_fired_iff.mp hd).1)
  have hwaits : d.key ∈ (l.after moves).sent := by
    refine (hafter.mem_tasks_iff _).mp ?_
    rw [Std.ExtTreeMap.mem_iff_isSome_getElem?, htask]
    rfl
  obtain ⟨p, rfl, hflight, hid⟩ := exists_inFlight h hids hwaits
  rw [← hid, (hflight.waits h hids).2, Option.some.injEq] at htask
  refine ⟨⟨p, rfl, hflight⟩, ?_⟩
  rw [deadline, hid, htask, htime]

/-- A message in flight whose deadline has passed is due. -/
theorem InFlight.mem_fired (hflight : p.InFlight l) (h : l.Scheduled 0)
    (hids : sends p.moves < UInt32.size) (hle : (p.deadline l).time ≤ now) :
    p.deadline l ∈ (l.after p.moves).timers.fired now := by
  have hafter := h.after (by rwa [Nat.zero_add])
  refine Timers.mem_fired_iff.mpr ⟨(hafter.consistent _).mpr ?_, hle⟩
  rw [deadline, (hflight.waits h hids).2]
  rfl

/-- **What a link sends when it is woken are the messages in flight that are due**, each once, in
the order of their deadlines and then of their ids, and as they were sent at first. -/
theorem exists_sent_onTimeout {moves : List Move} (h : l.Scheduled 0)
    (hids : sends moves < UInt32.size) (now : Nat) :
    ∃ ps : List Posting,
      (∀ p, p ∈ ps ↔ p.moves = moves ∧ p.InFlight l ∧ (p.deadline l).time ≤ now) ∧
      ps.Pairwise (fun p q => compare (p.deadline l) (q.deadline l) = .lt) ∧
      ((l.after moves).onTimeout now).sent = ps.flatMap (·.transmission l) := by
  have hafter := h.after (by rwa [Nat.zero_add])
  obtain ⟨qs, hqs⟩ : (l.after moves).timers.fired now ∈
      Set.range (List.map fun q : { p : Posting // p.moves = moves ∧ p.InFlight l } =>
        q.1.deadline l) := by
    rw [Set.range_list_map]
    exact fun d hd => exists_of_fired h hids hd
  refine ⟨qs.map Subtype.val, fun p => ?_, ?_, ?_⟩
  · rw [List.mem_map]
    constructor
    · rintro ⟨⟨p, hmoves, hflight⟩, hmem, rfl⟩
      have hd : p.deadline l ∈ (l.after moves).timers.fired now := hqs ▸ List.mem_map_of_mem hmem
      exact ⟨hmoves, hflight, (Timers.mem_fired_iff.mp hd).2⟩
    · rintro ⟨rfl, hflight, hle⟩
      have hd := hflight.mem_fired h hids hle
      rw [← hqs, List.mem_map] at hd
      obtain ⟨⟨q, hmoves, hq⟩, hmem, heq⟩ := hd
      exact ⟨⟨q, hmoves, hq⟩, hmem,
        eq_of_id_eq h (by rwa [hmoves]) hmoves (congrArg Deadline.key heq)⟩
  · have hordered := Timers.pairwise_fired (l.after moves).timers now
    rw [← hqs] at hordered
    exact List.pairwise_map.mpr (List.pairwise_map.mp hordered)
  · have hcopy : ∀ q ∈ qs, (l.after moves).sent[(q.1.deadline l).key]?.map
        (l.after moves).datagram = some (q.1.copy l) := by
      rintro ⟨q, rfl, hflight⟩ -
      rw [show (q.deadline l).key = q.id l from rfl, (hflight.waits h hids).1, Option.map_some,
        datagram_after]
    rw [hafter.sent_onTimeout, ← hqs, List.filterMap_map, List.flatMap_map]
    refine (List.filterMap_congr hcopy).trans ?_
    simp only [List.filterMap_eq_map', transmission_eq, List.map_eq_flatMap]

end Posting

namespace StubbornLink

theorem scheduled_ofPeer (self : HostId) (peer : Host) (interval : Nat) :
    (ofPeer self peer interval).Scheduled 0 := PerfectLink.scheduled_ofPeer self peer interval

/-- **A link never forgets a message and never resends one that has been acknowledged.**  Whatever
a link is made to do, with ids that do not wrap:

* it has a timer for each message that waits, and for no other;
* no id waits that counts as acknowledged.  What waits are the data messages that are in flight,
  each with the timer that it was given when it was sent, and what counts as acknowledged has been
  sent as data;
* of the messages sent since the link was stopped last, those count as acknowledged of which an
  acknowledgement has come in since they were sent, and the others wait;
* whenever it is woken it sends the messages in flight whose deadlines have passed, each once, in
  the order of their deadlines and then of their ids, and as they were sent at first. -/
theorem retransmission (self : HostId) (peer : Host) (interval : Nat) (moves : List Move)
    (hids : sends moves < UInt32.size) :
    let start := ofPeer self peer interval
    let l := start.after moves
    l.timers.Consistent ∧ (∀ i : UInt32, i ∈ l.timers.tasks ↔ i ∈ l.sent) ∧
      (∀ i : UInt32, i ∈ l.sent → l.acked.contains i = false) ∧
      (∀ i : UInt32, i ∈ l.sent ↔ ∃ p : Posting, p.moves = moves ∧ p.InFlight start ∧
        p.id start = i) ∧
      (∀ p : Posting, p.moves = moves → p.InFlight start →
        l.timers.tasks[p.id start]? = some (p.timer start)) ∧
      (∀ i : UInt32, i ≠ 0 → l.acked.contains i = true →
        ∃ p : Posting, p.moves = moves ∧ p.id start = i) ∧
      (∀ p : Posting, p.moves = moves → .stop ∉ p.later →
        (l.acked.contains (p.id start) = true ↔ p.Acked start) ∧
          (p.id start ∈ l.sent ↔ ¬ p.Acked start)) ∧
      Throughout (fun earlier mv => ∀ now, mv = .timeout now → ∃ ps : List Posting,
        (∀ p, p ∈ ps ↔
          p.moves = earlier ∧ p.InFlight start ∧ (p.deadline start).time ≤ now) ∧
        ps.Pairwise (fun p q => compare (p.deadline start) (q.deadline start) = .lt) ∧
        ((start.after earlier).move mv).sent = ps.flatMap (·.transmission start)) moves := by
  intro start l
  have hstart : start.Scheduled 0 := scheduled_ofPeer self peer interval
  have hl : l.Scheduled (0 + sends moves) := hstart.after (by rwa [Nat.zero_add])
  refine ⟨hl.consistent, hl.mem_tasks_iff, hl.unacked, fun i => ⟨?_, ?_⟩, ?_, ?_, ?_, ?_⟩
  · exact fun hi => Posting.exists_inFlight hstart hids hi
  · rintro ⟨p, rfl, hflight, rfl⟩
    exact hflight.mem_sent hstart hids
  · rintro p rfl hflight
    exact (hflight.waits hstart hids).2
  · exact fun i hne hi => Posting.exists_of_acked hstart hids hne hi
  · rintro p rfl hstop
    have hacked := Posting.contains_acked_iff hstart hids hstop
    refine ⟨hacked, fun hmem hack => ?_, fun hnot => ?_⟩
    · rw [← hacked, hl.unacked _ hmem] at hack
      cases hack
    · exact Posting.InFlight.mem_sent ⟨hstop, hnot⟩ hstart hids
  · rintro earlier mv ⟨later, rfl⟩ now rfl
    rw [sends_append, sends_append] at hids
    exact Posting.exists_sent_onTimeout hstart (by omega) now

/-! ## A link on a bad day -/

/-- A link sends a letter and is stopped.  Then it sends two more with a heartbeat in between, is
handed the acknowledgement of an id that it has never given out, one that names no id and twice that
of the second letter, and is woken late and then with a clock that has run backwards. -/
def stormyMoves : List Move :=
  let letter := Message.ofData 1 7 [104, 105]
  let second := { letter with id := 2 }
  [.send letter 0, .stop, .send letter 10, .send (.ofHeartbeat 1) 15,
    .deliver ({ letter with id := 9 }.ack 2), .send letter 20,
    .deliver { second.ack 2 with payload := [1] }, .deliver (second.ack 2),
    .deliver (second.ack 2), .timeout 500, .timeout 70]

theorem stormyMoves_retransmission :
    sends stormyMoves < UInt32.size ∧
      ∀ i : UInt32, i ∈ [4] ↔ ∃ p : Posting, p.moves = stormyMoves ∧
        p.InFlight (ofPeer 1 .second 30) ∧ p.id (ofPeer 1 .second 30) = i := by
  have hids : sends stormyMoves < UInt32.size := by decide
  obtain ⟨-, -, -, hflight, -⟩ := retransmission 1 .second 30 stormyMoves hids
  refine ⟨hids, fun i => ?_⟩
  have hkeys : ((ofPeer 1 .second 30).after stormyMoves).sent.keys = [4] := by decide +kernel
  rw [← hflight, ← hkeys, Std.ExtTreeMap.mem_keys]

end StubbornLink

end Groupcast
