/-!
# Numerals

Natural numbers in positional notation.  `value` gives the number that a list of digits stands for,
`read?` accepts an unsigned decimal number with a bound, as every number in a configuration file
is written.
-/

namespace Groupcast.Numeral

/-- The value of a digit in notations up to base sixteen, with letters of either case. -/
def digitValue? (c : Char) : Option Nat :=
  if '0' ≤ c ∧ c ≤ '9' then some (c.toNat - '0'.toNat)
  else if 'a' ≤ c ∧ c ≤ 'f' then some (c.toNat - 'a'.toNat + 10)
  else if 'A' ≤ c ∧ c ≤ 'F' then some (c.toNat - 'A'.toNat + 10)
  else none

/-- Whether a character is a digit in base `base`. -/
def isDigit (base : Nat) (c : Char) : Bool :=
  match digitValue? c with
  | some d => d < base
  | none => false

/-- The number that digits stand for in base `base`; other characters count as zero. -/
def value (base : Nat) (digits : List Char) : Nat :=
  digits.foldl (fun n c => base * n + (digitValue? c).getD 0) 0

/-- The number that a word of digits stands for, if it is not empty and has no other characters. -/
def ofDigits? (base : Nat) (word : List Char) : Option Nat :=
  if word ≠ [] ∧ word.all (isDigit base) then some (value base word) else none

/-- The number that digits stand for in base `base`, if it is at most `limit`.  Digits after those
that exceed the limit are not looked at. -/
def valueUpTo? (base limit : Nat) (digits : List Char) : Option Nat :=
  digits.foldlM
    (fun n c =>
      let n := base * n + (digitValue? c).getD 0
      if n ≤ limit then some n else none)
    0

theorem le_foldl_digits {base : Nat} (hb : 0 < base) (n : Nat) (digits : List Char) :
    n ≤ digits.foldl (fun n c => base * n + (digitValue? c).getD 0) n := by
  induction digits generalizing n with
  | nil => exact Nat.le_refl n
  | cons c cs ih =>
    calc n ≤ base * n := Nat.le_mul_of_pos_left n hb
      _ ≤ base * n + (digitValue? c).getD 0 := Nat.le_add_right _ _
      _ ≤ _ := ih _

theorem valueUpTo?_eq {base : Nat} (hb : 0 < base) (limit : Nat) (digits : List Char) :
    valueUpTo? base limit digits =
      if value base digits ≤ limit then some (value base digits) else none := by
  have from_le (n : Nat) (hn : n ≤ limit) :
      digits.foldlM (fun n c =>
          let n := base * n + (digitValue? c).getD 0
          if n ≤ limit then some n else none) n =
        if digits.foldl (fun n c => base * n + (digitValue? c).getD 0) n ≤ limit then
          some (digits.foldl (fun n c => base * n + (digitValue? c).getD 0) n)
        else none := by
    induction digits generalizing n with
    | nil => simp [hn]
    | cons c cs ih =>
      simp only [List.foldlM_cons, List.foldl_cons]
      by_cases h : base * n + (digitValue? c).getD 0 ≤ limit
      · rw [if_pos h]
        exact ih _ h
      · have grown := le_foldl_digits hb (base * n + (digitValue? c).getD 0) cs
        have beyond := fun within => h (Nat.le_trans grown within)
        rw [if_neg h]
        exact (if_neg beyond).symm
  exact from_le 0 (Nat.zero_le limit)

/-- A word without the plus sign that it may begin with. -/
def unsigned : List Char → List Char
  | '+' :: digits => digits
  | word => word

/-- Reads a decimal number of at most `limit`.  It may have a plus sign and leading zeros. -/
def read? (limit : Nat) (word : List Char) : Option Nat :=
  let digits := unsigned word
  if digits ≠ [] ∧ digits.all (isDigit 10) then valueUpTo? 10 limit digits else none

/-- Reads a number of 32 bits. -/
def readWord? (word : List Char) : Option UInt32 := (read? (UInt32.size - 1) word).map UInt32.ofNat

/-- Reads a number of 16 bits. -/
def readPort? (word : List Char) : Option UInt16 := (read? (UInt16.size - 1) word).map UInt16.ofNat

/-- Reads a number of 64 bits, as a count. -/
def readCount? (word : List Char) : Option Nat := read? (UInt64.size - 1) word

example : readPort? "+0080".toList = some 80 := by decide +kernel

example : readPort? "65536".toList = none := by decide +kernel

end Groupcast.Numeral
