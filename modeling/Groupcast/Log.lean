import Groupcast.Event
import Std.Data.ExtTreeMap

/-!
# Logs

Where the events of a node end up.  A decision is recorded under the number of its slot and has to
come out in the order of slots, in whatever order the slots decide; all other events are recorded as
they happen.

* `OutputLog` holds lines.  The lines of indexed events are written as soon as they extend the run
  of indices from one on, and the rest of them when the log is flushed.
* `MemoryLog` holds events.
* `Channel` hands events on to a receiver, for as long as there is one.
-/

namespace Groupcast

/-- Why an event cannot be recorded. -/
inductive SinkError where
  /-- There is no receiver for it. -/
  | receiverDropped
  deriving Repr, DecidableEq

/-- The text shown for an event that cannot be recorded. -/
def SinkError.message : SinkError → String
  | .receiverDropped => "event receiver dropped"

/-- A place where events are recorded. -/
class Sink (σ : Type) where
  /-- Records an event as the next one. -/
  record : σ → Event → Except SinkError σ
  /-- Records an event under an index. -/
  recordIndexed : σ → UInt32 → Event → Except SinkError σ
  /-- Completes what has been recorded so far. -/
  flush : σ → Except SinkError σ

/-- Records a decision under its slot, and any other event as the next one. -/
def Sink.recordEvent {σ : Type} [Sink σ] (s : σ) (e : Event) : Except SinkError σ :=
  match e with
  | .decide slot _ => recordIndexed s slot e
  | e => record s e

/-! ## Lines -/

/-- A line of a log, and the index that its event was recorded under, if there was one. -/
structure LogLine where
  index : Option UInt32
  text : String
  deriving Repr, DecidableEq

/-- A log of lines. -/
structure OutputLog where
  /-- The lines written so far. -/
  written : List LogLine
  /-- The index that the run of written indices is to go on with. -/
  next : UInt32
  /-- The lines that wait for those before them, by index. -/
  pending : Std.ExtTreeMap UInt32 String
  deriving DecidableEq

namespace OutputLog

/-- The log without lines. -/
def empty : OutputLog := ⟨[], 1, ∅⟩

/-- Writes a line. -/
def write (l : OutputLog) (index : Option UInt32) (text : String) : OutputLog :=
  { l with written := l.written ++ [⟨index, text⟩] }

/-- Writes the waiting lines that extend the run of indices, at most `n` of them. -/
def drain : Nat → OutputLog → OutputLog
  | 0, l => l
  | n + 1, l =>
    match l.pending[l.next]? with
    | some text =>
      drain n
        { l.write (some l.next) text with
          next := l.next + 1
          pending := l.pending.erase l.next }
    | none => l

/-- Records an event as the next line. -/
def record (l : OutputLog) (e : Event) : OutputLog := l.write none e.line

/-- Records an event under an index.  An index that has been passed is ignored, and a line that
waits under the same index is replaced. -/
def recordIndexed (l : OutputLog) (index : UInt32) (e : Event) : OutputLog :=
  if index < l.next then l
  else
    let pending := l.pending.insert index e.line
    drain pending.size { l with pending }

/-- Writes all lines that wait, in the order of their indices. -/
def flush (l : OutputLog) : OutputLog :=
  l.pending.toList.foldl
    (fun l (index, text) => { l.write (some index) text with next := index + 1 })
    { l with pending := ∅ }

/-- The lines written so far. -/
def lines (l : OutputLog) : List String := l.written.map LogLine.text

/-- The text written so far. -/
def text (l : OutputLog) : String := String.join (l.lines.map (· ++ "\n"))

instance : Sink OutputLog where
  record l e := .ok (l.record e)
  recordIndexed l index e := .ok (l.recordIndexed index e)
  flush l := .ok l.flush

end OutputLog

/-! ## Memory -/

/-- A log of events. -/
structure MemoryLog where
  /-- The events without an index, in order. -/
  events : List Event
  /-- The first event under each index. -/
  indexed : Std.ExtTreeMap UInt32 Event
  deriving DecidableEq

namespace MemoryLog

/-- The log without events. -/
def empty : MemoryLog := ⟨[], ∅⟩

/-- Records an event as the next one. -/
def record (l : MemoryLog) (e : Event) : MemoryLog := { l with events := l.events ++ [e] }

/-- Records an event under an index, unless there is one already. -/
def recordIndexed (l : MemoryLog) (index : UInt32) (e : Event) : MemoryLog :=
  { l with indexed := l.indexed.insertIfNew index e }

instance : Sink MemoryLog where
  record l e := .ok (l.record e)
  recordIndexed l index e := .ok (l.recordIndexed index e)
  flush l := .ok l

end MemoryLog

/-! ## Channels -/

/-- A channel to a receiver. -/
structure Channel where
  /-- The events that the receiver has not taken yet. -/
  queue : List Event
  /-- Whether there is a receiver. -/
  isOpen : Bool
  deriving DecidableEq

namespace Channel

/-- A channel with a receiver and no events. -/
def empty : Channel := ⟨[], true⟩

/-- Drops the receiver and the events that it has not taken. -/
def close (_ : Channel) : Channel := ⟨[], false⟩

/-- Takes the oldest event off the channel. -/
def receive (c : Channel) : Option Event × Channel :=
  (c.queue.head?, { c with queue := c.queue.tail })

/-- Hands an event on to the receiver. -/
def send (c : Channel) (e : Event) : Except SinkError Channel :=
  if c.isOpen then .ok { c with queue := c.queue ++ [e] } else .error .receiverDropped

instance : Sink Channel where
  record := send
  recordIndexed c _ e := c.send e
  flush c := .ok c

end Channel

end Groupcast
