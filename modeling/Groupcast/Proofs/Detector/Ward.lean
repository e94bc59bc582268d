import Groupcast.Proofs.Detector
import Groupcast.Proofs.Detector.Watch
import Groupcast.Proofs.Link.Ids
import Groupcast.Proofs.Timers

/-!
# What a detector has to do with one peer

A detector watches its peers one by one.  What it keeps of a peer, its *ward*, is the heartbeats
that are remembered, whether the peer is suspected, its timeout, its two timers, and how many
messages its link has been given.  Nothing else of the detector matters to a ward: whatever the
detector does, it does to each ward what the ward can do by itself (`Guards.onTimeout`,
`Guards.deliver`), and what it reports of the peer is what the ward reports.  So all that is to be
said of a peer can be said of its ward.
-/

namespace Groupcast

/-- Who is suspected or restored. -/
def Suspicion.peer : Suspicion → HostId
  | suspect peer | restore peer _ => peer

/-- What a detector keeps of one peer. -/
structure Ward where
  peer : HostId
  watch : Watch
  suspected : Bool
  timeout : Nat
  /-- The timer that sends heartbeats, if it is armed. -/
  send : Option Timer
  /-- The timer that checks for answers, if it is armed. -/
  monitor : Option Timer
  /-- How many messages the link to the peer has been given. -/
  count : Nat

namespace Ward

variable {w : Ward} {window now : Nat}

/-! ## What a ward can do -/

/-- Nothing has been done yet. -/
def new (peer : HostId) (timeout : Nat) : Ward := ⟨peer, .empty, false, timeout, none, none, 0⟩

/-- The id of the next message to the peer. -/
def nextId (w : Ward) : UInt32 := UInt32.ofNat (w.count + 1)

/-- A heartbeat is sent. -/
def sendHeartbeat (w : Ward) (window : Nat) : Ward :=
  { w with count := w.count + 1, watch := w.watch.sent w.nextId window }

/-- The peer is restored with twice its timeout. -/
def restore (w : Ward) (now : Nat) : Ward :=
  { w with
    suspected := false
    timeout := 2 * w.timeout
    send := w.send.map fun _ => ⟨2 * w.timeout, now + 2 * w.timeout⟩
    monitor := w.monitor.map fun _ => ⟨2 * w.timeout, now + 2 * w.timeout⟩ }

/-- The peer is checked for answers. -/
def check (w : Ward) (now : Nat) : Ward × List Suspicion :=
  if w.watch.fresh = [] then
    if w.suspected then (w, []) else ({ w with suspected := true }, [.suspect w.peer])
  else if w.suspected then
    ({ w with watch := w.watch.forget w.watch.fresh }.restore now,
      [.restore w.peer (2 * w.timeout)])
  else ({ w with watch := w.watch.forget w.watch.fresh }, [])

/-- A timer of the peer fires. -/
def onBeat (w : Ward) (window now : Nat) : Beat → Ward × List Suspicion
  | .send _ => (w.sendHeartbeat window, [])
  | .monitor _ => w.check now

/-- Timers of the peer fire, in order. -/
def onBeats (w : Ward) (window now : Nat) : List Beat → Ward × List Suspicion
  | [] => (w, [])
  | b :: bs =>
    let first := w.onBeat window now b
    let rest := first.1.onBeats window now bs
    (rest.1, first.2 ++ rest.2)

/-- When the timers fire, in order.  If both do at once, sending comes first. -/
def deadlines (w : Ward) : List (Deadline Beat) :=
  match w.send, w.monitor with
  | none, none => []
  | some s, none => [⟨s.deadline, .send w.peer⟩]
  | none, some m => [⟨m.deadline, .monitor w.peer⟩]
  | some s, some m =>
    if m.deadline < s.deadline then
      [⟨m.deadline, .monitor w.peer⟩, ⟨s.deadline, .send w.peer⟩]
    else [⟨s.deadline, .send w.peer⟩, ⟨m.deadline, .monitor w.peer⟩]

/-- The timers that are due. -/
def due (w : Ward) (now : Nat) : List Beat :=
  (w.deadlines.filter fun d => d.time ≤ now).map Deadline.key

/-- The timers that are due are armed again. -/
def advance (w : Ward) (now : Nat) : Ward :=
  { w with send := w.send.map (·.advance now), monitor := w.monitor.map (·.advance now) }

/-- What is due is done. -/
def onTimeout (w : Ward) (window now : Nat) : Ward × List Suspicion :=
  (w.advance now).onBeats window now (w.due now)

/-- The timers are armed: a heartbeat is due at once, the first check a period later. -/
def start (w : Ward) (now : Nat) : Ward :=
  { w with send := some ⟨w.timeout, now⟩, monitor := some ⟨w.timeout, now + w.timeout⟩ }

/-- The timers are taken away. -/
def stop (w : Ward) : Ward := { w with send := none, monitor := none }

/-- A message of the peer comes in: a heartbeat is answered, and an answer is noted. -/
def onMessage (w : Ward) (m : Message) : Ward :=
  { w with
    count := if m.kind = .heartbeat then w.count + 1 else w.count
    watch :=
      match m.kind with
      | .heartbeatAck =>
        match m.ackedId with
        | .ok id => w.watch.answer id
        | .error _ => w.watch
      | .heartbeat | .ack | .data => w.watch }

/-! ## What stays the same -/

@[simp] theorem peer_check : (w.check now).1.peer = w.peer := by
  rw [check]
  split_ifs <;> rfl

@[simp] theorem count_check : (w.check now).1.count = w.count := by
  rw [check]
  split_ifs <;> rfl

@[simp] theorem peer_onBeat (b : Beat) : (w.onBeat window now b).1.peer = w.peer := by
  cases b with
  | send p => rfl
  | monitor p => exact peer_check

@[simp] theorem peer_onBeats (bs : List Beat) : (w.onBeats window now bs).1.peer = w.peer := by
  induction bs generalizing w with
  | nil => rfl
  | cons b bs ih => rw [onBeats, ih, peer_onBeat]

@[simp] theorem peer_onTimeout : (w.onTimeout window now).1.peer = w.peer := peer_onBeats _

/-- Only answers change what is remembered. -/
theorem watch_onMessage {m : Message} (hm : m.kind ≠ .heartbeatAck) :
    (w.onMessage m).watch = w.watch := by
  simp only [onMessage]
  split
  · exact absurd ‹_› hm
  · rfl
  · rfl
  · rfl

@[simp] theorem nextId_check : (w.check now).1.nextId = w.nextId := by
  rw [nextId, count_check, nextId]

/-- A check uses up what it finds. -/
theorem watch_check : (w.check now).1.watch = w.watch.forget w.watch.fresh := by
  rw [check]
  split_ifs with hfresh
  · rw [hfresh]
    rfl
  · rw [hfresh]
    rfl
  · rfl
  · rfl

/-- A check that finds no answers makes the peer suspected. -/
theorem check_of_fresh_eq_nil (hfresh : w.watch.fresh = []) : w.check now =
    ({ w with suspected := true }, if w.suspected then [] else [.suspect w.peer]) := by
  rw [check, if_pos hfresh]
  split
  · rename_i hsuspected
    rw [← hsuspected]
  · rfl

/-- A check that finds answers of a peer that is not suspected uses them up. -/
theorem check_of_fresh_ne_nil (hfresh : w.watch.fresh ≠ []) (hsuspected : w.suspected = false) :
    w.check now = ({ w with watch := w.watch.forget w.watch.fresh }, []) := by
  rw [check, if_neg hfresh, if_neg]
  rw [hsuspected]
  exact Bool.false_ne_true

theorem mem_outstanding_onMessage {m : Message} {i : UInt32} :
    i ∈ (w.onMessage m).watch.outstanding ↔ i ∈ w.watch.outstanding := by
  simp only [onMessage]
  split
  · split
    · exact Watch.mem_outstanding_answer
    · rfl
  · rfl
  · rfl
  · rfl

theorem mem_answered_onMessage {m : Message} {i : UInt32} (hi : i ∈ w.watch.answered) :
    i ∈ (w.onMessage m).watch.answered := by
  simp only [onMessage]
  split
  · split
    · exact Watch.mem_answered_answer.mpr (Or.inl hi)
    · exact hi
  · exact hi
  · exact hi
  · exact hi

/-- An answer counts if the heartbeat is remembered. -/
theorem mem_answered_onMessage_of_ack {m : Message} {i : UInt32} (hkind : m.kind = .heartbeatAck)
    (hid : m.ackedId = .ok i) (hi : i ∈ w.watch.outstanding) :
    i ∈ (w.onMessage m).watch.answered := by
  simp only [onMessage, hkind, hid]
  exact Watch.mem_answered_answer.mpr (Or.inr ⟨rfl, hi⟩)

/-- A ward speaks of its peer. -/
theorem peer_of_mem_onBeat {b : Beat} {x : Suspicion} (hx : x ∈ (w.onBeat window now b).2) :
    x.peer = w.peer := by
  cases b with
  | send q => cases hx
  | monitor q =>
    simp only [onBeat, check] at hx
    split_ifs at hx
    · cases hx
    · rw [List.mem_singleton.mp hx]
      rfl
    · rw [List.mem_singleton.mp hx]
      rfl
    · cases hx

/-- The timers of a ward are in order. -/
theorem pairwise_deadlines (w : Ward) : w.deadlines.Pairwise fun a b => compare a b = .lt := by
  rw [deadlines]
  split
  · exact .nil
  · exact List.pairwise_singleton _ _
  · exact List.pairwise_singleton _ _
  · split
    · rename_i hlt
      exact List.pairwise_pair.mpr (Deadline.compare_eq_lt_iff.mpr (Or.inl hlt))
    · rename_i s m _ _ hle
      refine List.pairwise_pair.mpr (Deadline.compare_eq_lt_iff.mpr ?_)
      rcases Nat.lt_or_ge s.deadline m.deadline with hlt | hge
      · exact Or.inl hlt
      · exact Or.inr ⟨Nat.le_antisymm (Nat.not_lt.mp hle) hge, rfl⟩

theorem mem_deadlines_iff {d : Deadline Beat} : d ∈ w.deadlines ↔
    (∃ s, w.send = some s ∧ d = ⟨s.deadline, .send w.peer⟩) ∨
      ∃ m, w.monitor = some m ∧ d = ⟨m.deadline, .monitor w.peer⟩ := by
  rw [deadlines]
  cases w.send with
  | none => cases w.monitor <;> simp
  | some s =>
    cases w.monitor with
    | none => simp
    | some m =>
      simp only
      split <;> simp [or_comm]

end Ward

end Groupcast
