/-!
# Byte strings and big-endian words

Every datagram is a list of bytes, and every number in it is a 32-bit word written most
significant byte first.  `toWord_ofWord` and `ofWord_toWord` say that four bytes and one word
are the same information; `atLeast_eq_true` lets a length be tested without being computed.
-/

namespace Groupcast

/-- A byte string. -/
abbrev Bytes := List UInt8

namespace Bytes

/-- The four bytes of a word, most significant first. -/
def ofWord (w : UInt32) : Bytes :=
  [UInt8.ofNat (w.toNat / 0x1000000), UInt8.ofNat (w.toNat / 0x10000),
    UInt8.ofNat (w.toNat / 0x100), UInt8.ofNat w.toNat]

/-- The word whose bytes are `a`, `b`, `c`, `d`, most significant first. -/
def toWord (a b c d : UInt8) : UInt32 :=
  UInt32.ofNat (((a.toNat * 256 + b.toNat) * 256 + c.toNat) * 256 + d.toNat)

@[simp] theorem length_ofWord (w : UInt32) : (ofWord w).length = 4 := rfl

theorem toNat_toWord (a b c d : UInt8) :
    (toWord a b c d).toNat = ((a.toNat * 256 + b.toNat) * 256 + c.toNat) * 256 + d.toNat := by
  have ha := a.toNat_lt
  have hb := b.toNat_lt
  have hc := c.toNat_lt
  have hd := d.toNat_lt
  rw [toWord, UInt32.toNat_ofNat']
  omega

theorem toWord_ofWord (w : UInt32) :
    toWord (UInt8.ofNat (w.toNat / 0x1000000)) (UInt8.ofNat (w.toNat / 0x10000))
      (UInt8.ofNat (w.toNat / 0x100)) (UInt8.ofNat w.toNat) = w := by
  have hw := w.toNat_lt
  apply UInt32.toNat_inj.mp
  rw [toNat_toWord]
  simp only [UInt8.toNat_ofNat']
  omega

theorem ofWord_toWord (a b c d : UInt8) : ofWord (toWord a b c d) = [a, b, c, d] := by
  have ha := a.toNat_lt
  have hb := b.toNat_lt
  have hc := c.toNat_lt
  have hd := d.toNat_lt
  simp only [ofWord, toNat_toWord, List.cons.injEq, and_true]
  refine ⟨?_, ?_, ?_, ?_⟩ <;>
  · apply UInt8.toNat_inj.mp
    rw [UInt8.toNat_ofNat']
    omega

/-- Whether the string has `n` bytes or more.  Only those `n` bytes are looked at. -/
def atLeast : Nat → Bytes → Bool
  | 0, _ => true
  | _ + 1, [] => false
  | n + 1, _ :: bytes => atLeast n bytes

@[simp] theorem atLeast_eq_true {n : Nat} {bytes : Bytes} :
    atLeast n bytes = true ↔ n ≤ bytes.length := by
  fun_induction atLeast n bytes <;> simp_all

/-- The UTF-8 encoding of a text. -/
def ofText (text : String) : Bytes := text.toUTF8.toList

end Bytes

end Groupcast
