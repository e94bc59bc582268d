import Groupcast.Address.Text
import Groupcast.Message

/-!
# The host table

The members of a group are fixed and known from the start.  `Hosts.ofList` builds the table and
refuses a list that names a host or an address twice.  A datagram is attributed to a member only
if its source address and the sender that it claims name the same one (`Hosts.identify`).
-/

namespace Groupcast

/-- A process that takes part in the group. -/
structure Host where
  id : HostId
  address : Address
  deriving Repr, DecidableEq

/-- The text of a host: its number and its address. -/
def Host.text (h : Host) : String := s!"#{h.id}@{h.address.text}"

/-- Why a list of hosts is no table. -/
inductive HostsError where
  /-- A host has the number that stands for "no host". -/
  | zeroId
  | duplicateId (id : HostId)
  | duplicateAddress (address : Address)
  deriving Repr, DecidableEq

/-- The text shown for a list of hosts that is no table. -/
def HostsError.message : HostsError → String
  | .zeroId => "host ids must be positive"
  | .duplicateId id => s!"duplicate host id {id}"
  | .duplicateAddress address => s!"duplicate host address {address.text}"

/-- The smallest number of processes of which any two choices from `n` share one. -/
def quorum (n : Nat) : Nat := n / 2 + 1

/-- The members of the group, by number and by address. -/
structure Hosts where
  byId : Std.ExtTreeMap HostId Host
  byAddress : Std.ExtTreeMap Address HostId
  deriving DecidableEq

namespace Hosts

/-- The table without hosts. -/
def empty : Hosts := ⟨∅, ∅⟩

/-- Adds a host whose number is positive and whose number and address are new. -/
def add (t : Hosts) (h : Host) : Except HostsError Hosts :=
  if h.id = HostId.none then .error .zeroId
  else if t.byId.contains h.id then .error (.duplicateId h.id)
  else if t.byAddress.contains h.address then .error (.duplicateAddress h.address)
  else .ok { byId := t.byId.insert h.id h, byAddress := t.byAddress.insert h.address h.id }

/-- Adds hosts in order, up to the first one that cannot be added. -/
def addAll (t : Hosts) : List Host → Except HostsError Hosts
  | [] => .ok t
  | h :: hs =>
    match t.add h with
    | .ok t => addAll t hs
    | .error e => .error e

/-- The table of the listed hosts. -/
def ofList (hs : List Host) : Except HostsError Hosts := empty.addAll hs

/-- The member with a number. -/
def get? (t : Hosts) (id : HostId) : Option Host := t.byId[id]?

/-- Whether a number is a member's. -/
def contains (t : Hosts) (id : HostId) : Bool := t.byId.contains id

/-- The member at an address. -/
def at? (t : Hosts) (address : Address) : Option Host :=
  t.byAddress[address]?.bind t.get?

/-- The member at an address, if it is the one that the claimed number names. -/
def identify (t : Hosts) (address : Address) (claimed : HostId) : Option Host :=
  (t.at? address).filter (·.id = claimed)

/-- The number of members. -/
def size (t : Hosts) : Nat := t.byId.size

/-- The members in ascending order of their numbers. -/
def toList (t : Hosts) : List Host := t.byId.values

/-- The numbers of the members in ascending order. -/
def ids (t : Hosts) : List HostId := t.byId.keys

/-- A majority of the group. -/
def quorum (t : Hosts) : Nat := Groupcast.quorum t.size

end Hosts

end Groupcast
