import Groupcast.Message
import Groupcast.Values

/-!
# Events

What is worth recording about a run of a node, and the line that a log shows for it.
-/

namespace Groupcast

/-- An observable outcome of a node. -/
inductive Event where
  /-- The node sent or broadcast its message number `seq`. -/
  | broadcast (seq : UInt32)
  /-- The node delivered the message number `seq` of `sender`. -/
  | deliver (sender : HostId) (seq : UInt32)
  /-- The node decided `values` for `slot`. -/
  | decide (slot : Slot) (values : ValueSet)
  deriving DecidableEq

/-- The line of a log that shows an event.  A decision is shown by its values alone, since the
place of its line says which slot it is for. -/
def Event.line : Event → String
  | .broadcast seq => s!"b {seq}"
  | .deliver sender seq => s!"d {sender} {seq}"
  | .decide _ values => " ".intercalate (values.toList.map toString)

end Groupcast
