import Groupcast.Address
import Groupcast.Text.Numeral

/-!
# Addresses as text

An address of four bytes is written as four decimal numbers with points between them.  One of
eight groups is written in hexadecimal with colons, and the longest run of two or more zero groups
(the first one of several) is left out; an address that stands for one of four bytes ends in that
one's notation.  A port follows after a colon, and then groups stand in square brackets.

Reading is more liberal: a number may have leading zeros except in a dotted quad, letters may
be of either case, and any one run of zero groups may be left out.
-/

namespace Groupcast

/-! ## Printing -/

/-- The text `a.b.c.d`. -/
def IPv4.text (ip : IPv4) : String := s!"{ip.a}.{ip.b}.{ip.c}.{ip.d}"

namespace IPv6

/-- A group without leading zeros. -/
def groupText (g : UInt16) : String := String.ofList (Nat.toDigits 16 g.toNat)

/-- Groups with colons between them. -/
def groupsText (gs : List UInt16) : String := ":".intercalate (gs.map groupText)

/-- The length of the run of zero groups at the beginning. -/
def zeroRun (gs : List UInt16) : Nat := (gs.takeWhile (· == 0)).length

/-- The longest run of zero groups as the number of groups before it and its length; of several the
first one. -/
def longestZeroRun : List UInt16 → Nat × Nat
  | [] => (0, 0)
  | g :: gs =>
    let (start, length) := longestZeroRun gs
    let here := zeroRun (g :: gs)
    if length ≤ here then (0, here) else (start + 1, length)

/-- The address of four bytes that an address stands for, if it does. -/
def mapped? (ip : IPv6) : Option IPv4 :=
  match ip.groups with
  | [0, 0, 0, 0, 0, 0xffff, g, h] =>
    some ⟨(g >>> 8).toUInt8, g.toUInt8, (h >>> 8).toUInt8, h.toUInt8⟩
  | _ => none

/-- The text of an address of eight groups. -/
def text (ip : IPv6) : String :=
  match ip.mapped? with
  | some quad => "::ffff:" ++ quad.text
  | none =>
    let (start, length) := longestZeroRun ip.groups
    if length ≤ 1 then groupsText ip.groups
    else groupsText (ip.groups.take start) ++ "::" ++ groupsText (ip.groups.drop (start + length))

end IPv6

/-- The text of an address and its port. -/
def Address.text (a : Address) : String :=
  match a.ip with
  | .v4 ip => s!"{ip.text}:{a.port}"
  | .v6 ip scope =>
    if scope = 0 then s!"[{ip.text}]:{a.port}" else s!"[{ip.text}%{scope}]:{a.port}"

/-! ## Reading -/

/-- A partial reading of characters: a value and what follows it. -/
abbrev Scan := StateT (List Char) Option

namespace Scan

/-- Reads the character `c`. -/
def char (c : Char) : Scan Unit := fun cs =>
  match cs with
  | d :: rest => if d = c then some ((), rest) else none
  | [] => none

/-- Reads all digits that follow, which must be one to `most` in number (no bound if `most` is
`none`) and have a value of at most `limit`. -/
def number (base : Nat) (most : Option Nat) (limit : Nat) : Scan Nat := fun cs =>
  let digits := cs.takeWhile (Numeral.isDigit base)
  let n := Numeral.value base digits
  if digits ≠ [] ∧ digits.length ≤ most.getD digits.length ∧ n ≤ limit then
    some (n, cs.drop digits.length)
  else none

/-- Reads a decimal byte, which has no leading zero. -/
def byte : Scan UInt8 := fun cs =>
  match cs with
  | '0' :: c :: _ => if c.isDigit then none else decimal cs
  | _ => decimal cs
where
  /-- Reads three decimal digits at most. -/
  decimal : Scan UInt8 := UInt8.ofNat <$> number 10 (some 3) 255

/-- Reads an address of four bytes. -/
def quad : Scan IPv4 := do
  let a ← byte
  char '.'
  let b ← byte
  char '.'
  let c ← byte
  char '.'
  let d ← byte
  pure ⟨a, b, c, d⟩

/-- Reads a group of four hexadecimal digits at most. -/
def group : Scan UInt16 := UInt16.ofNat <$> number 16 (some 4) (UInt16.size - 1)

/-- Reads a colon, unless what follows is the first in its list, and then by `r`. -/
def separated {α : Type} (first : Bool) (r : Scan α) : Scan α :=
  if first then r else do char ':'; r

/-- The two groups that a dotted quad stands for. -/
def quadGroups (ip : IPv4) : List UInt16 :=
  [UInt16.ofNat (ip.a.toNat * 256 + ip.b.toNat), UInt16.ofNat (ip.c.toNat * 256 + ip.d.toNat)]

/-- Reads as many groups as there are, up to a number, with colons between them.  The last two of
them may be a dotted quad; then the flag is set. -/
def groups : Nat → Bool → Scan (List UInt16 × Bool)
  | 0, _ => pure ([], false)
  | n + 1, first =>
    (do
      if n = 0 then failure
      let ip ← separated first quad
      pure (quadGroups ip, true)) <|>
    (do
      let g ← separated first group
      let (gs, dotted) ← groups n false
      pure (g :: gs, dotted)) <|>
    pure ([], false)

/-- Reads an address of eight groups. -/
def hextets : Scan IPv6 := do
  let (front, dotted) ← groups 8 true
  let all ←
    if front.length = 8 then pure front
    else if dotted then failure
    else do
      char ':'
      char ':'
      let (back, _) ← groups (7 - front.length) true
      pure (front ++ List.replicate (8 - front.length - back.length) 0 ++ back)
  if h : all.length = 8 then pure ⟨all, h⟩ else failure

/-- Reads a colon and a port. -/
def port : Scan UInt16 := do
  char ':'
  UInt16.ofNat <$> number 10 none (UInt16.size - 1)

/-- Reads the scope of an address of eight groups; it is zero if none is given. -/
def scope : Scan UInt32 :=
  (do
    char '%'
    UInt32.ofNat <$> number 10 none (UInt32.size - 1)) <|>
  pure 0

/-- Reads an address of either version and its port. -/
def address : Scan Address :=
  (do
    let ip ← quad
    let port ← port
    pure ⟨.v4 ip, port⟩) <|>
  (do
    char '['
    let ip ← hextets
    let scope ← scope
    char ']'
    let port ← port
    pure ⟨.v6 ip scope, port⟩)

/-- The value of a text that a reader consumes whole. -/
def whole? {α : Type} (r : Scan α) (cs : List Char) : Option α :=
  match r cs with
  | some (a, []) => some a
  | _ => none

end Scan

/-- Reads an address that is a literal of either version. -/
def IPAddress.read? (word : List Char) : Option IPAddress :=
  match Scan.quad.whole? word with
  | some ip => some (.v4 ip)
  | none => (Scan.hextets.whole? word).map (.v6 · 0)

/-- Reads an address and its port. -/
def Address.read? (text : String) : Option Address := Scan.address.whole? text.toList

end Groupcast
