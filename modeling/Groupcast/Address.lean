import Std.Data.ExtTreeMap

/-!
# Internet addresses

The address of a host: an address of either version of the internet protocol, and a port.
Addresses are totally ordered (`Address.instLawfulEqOrd`), so that they can be the keys of a table.
-/

namespace Groupcast

/-- An address of four bytes. -/
structure IPv4 where
  a : UInt8
  b : UInt8
  c : UInt8
  d : UInt8
  deriving Repr, DecidableEq

/-- An address of eight groups of sixteen bits. -/
structure IPv6 where
  groups : List UInt16
  length_groups : groups.length = 8
  deriving Repr, DecidableEq

/-- An internet address of either version. -/
inductive IPAddress where
  | v4 (address : IPv4)
  /-- The scope tells apart networks that use the same local addresses; it is zero as a rule. -/
  | v6 (address : IPv6) (scope : UInt32)
  deriving Repr, DecidableEq

/-- Where datagrams can be sent to. -/
structure Address where
  ip : IPAddress
  port : UInt16
  deriving Repr, DecidableEq

namespace IPv6

/-- Whether an address stands for all addresses of a machine. -/
def isUnspecified (ip : IPv6) : Bool := ip.groups.all (· = 0)

/-- Whether an address stands for a group of machines. -/
def isMulticast (ip : IPv6) : Bool := ip.groups.head?.any (0xff00 ≤ ·)

/-- Whether an address means something only together with a scope: it is that of one machine or of
a group of machines within one network. -/
def needsScope (ip : IPv6) : Bool :=
  ip.groups.head?.any fun g =>
    (0xfe80 ≤ g && g < 0xfec0) || (0xff00 ≤ g && (g &&& 0xf = 1 || g &&& 0xf = 2))

end IPv6

namespace Address

/-- Whether an address is one of four bytes. -/
def isV4 (a : Address) : Bool := a.ip matches .v4 _

/-- Whether only the system may receive datagrams at the port of an address.  Port zero leaves the
choice of a port to the system. -/
def isPrivileged (a : Address) : Bool := 0 < a.port && a.port < 1024

/-- The address `a.b.c.d:port`. -/
def ofBytes (a b c d : UInt8) (port : UInt16) : Address := ⟨.v4 ⟨a, b, c, d⟩, port⟩

/-- The numbers that make up an address, by which addresses are ordered. -/
def key (a : Address) : List Nat :=
  match a.ip with
  | .v4 ip => [ip.a.toNat, ip.b.toNat, ip.c.toNat, ip.d.toNat, a.port.toNat]
  | .v6 ip scope => scope.toNat :: a.port.toNat :: ip.groups.map UInt16.toNat

theorem key_injective {a b : Address} (h : a.key = b.key) : a = b := by
  obtain ⟨ipa, pa⟩ := a
  obtain ⟨ipb, pb⟩ := b
  match ipa, ipb with
  | .v4 ⟨a₁, a₂, a₃, a₄⟩, .v4 ⟨b₁, b₂, b₃, b₄⟩ =>
    simp only [key, List.cons.injEq, UInt8.toNat_inj, UInt16.toNat_inj, and_true] at h
    simp [h]
  | .v6 ⟨ga, ha⟩ sa, .v6 ⟨gb, hb⟩ sb =>
    simp only [key, List.cons.injEq, UInt32.toNat_inj, UInt16.toNat_inj] at h
    obtain ⟨rfl, rfl, h⟩ := h
    have : ga = gb := List.map_inj_right (fun _ _ => UInt16.toNat_inj.mp) |>.mp h
    simp [this]
  | .v4 _, .v6 ⟨gb, hb⟩ _ =>
    have := congrArg List.length h
    simp [key, hb] at this
  | .v6 ⟨ga, ha⟩ _, .v4 _ =>
    have := congrArg List.length h
    simp [key, ha] at this

instance : Ord Address := ⟨compareOn key⟩

instance : Std.TransOrd Address := inferInstanceAs (Std.TransCmp (compareOn key))

instance instLawfulEqOrd : Std.LawfulEqOrd Address where
  eq_of_compare h := key_injective (Std.compare_eq_iff_eq.mp h)

end Address

end Groupcast
