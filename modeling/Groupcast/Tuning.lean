/-!
# Tuning

The timing of a node.  All times are in milliseconds.
-/

namespace Groupcast

/-- The names of the values that can be tuned. -/
inductive TuningField where
  | retransmit
  | heartbeat
  | heartbeatWindow
  deriving Repr, DecidableEq

/-- The key of a value in a tuning file. -/
def TuningField.key : TuningField → String
  | retransmit => "retransmit_ms"
  | heartbeat => "heartbeat_ms"
  | heartbeatWindow => "heartbeat_window"

/-- The timing of a node. -/
structure Tuning where
  /-- How long a link waits for an acknowledgement before it sends a message again. -/
  retransmit : Nat := 100
  /-- The period and timeout of heartbeats as long as no suspicion was wrong. -/
  heartbeat : Nat := 500
  /-- How many unanswered heartbeats are remembered of each peer. -/
  heartbeatWindow : Nat := 8
  deriving Repr, DecidableEq

namespace Tuning

/-- The value of a field. -/
def get (t : Tuning) : TuningField → Nat
  | .retransmit => t.retransmit
  | .heartbeat => t.heartbeat
  | .heartbeatWindow => t.heartbeatWindow

/-- Changes the value of a field. -/
def set (t : Tuning) (field : TuningField) (n : Nat) : Tuning :=
  match field with
  | .retransmit => { t with retransmit := n }
  | .heartbeat => { t with heartbeat := n }
  | .heartbeatWindow => { t with heartbeatWindow := n }

/-- All fields, in the order in which they are checked. -/
def fields : List TuningField := [.retransmit, .heartbeat, .heartbeatWindow]

/-- The first field that is zero, which no value may be. -/
def zeroField? (t : Tuning) : Option TuningField := fields.find? fun f => t.get f = 0

end Tuning

end Groupcast
