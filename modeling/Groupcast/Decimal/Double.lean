import Groupcast.Text.Numeral

/-!
# Floating-point numbers of 64 bits

A finite number is a sign and a magnitude, and every magnitude is a multiple of the smallest
positive one, `2 ^ -1074`: its *units*.  `Double.ofDecimal` gives the number that is nearest to a
decimal.
-/

namespace Groupcast

/-- A floating-point number of 64 bits. -/
inductive Double where
  /-- The sign and the magnitude in units of `2 ^ -1074`. -/
  | finite (negative : Bool) (units : Nat)
  | infinite (negative : Bool)
  | nan
  deriving Repr, DecidableEq

namespace Double

/-- The exponent of two by which a unit is smaller than one. -/
def unitExponent : Nat := 1074

/-- The distance from a magnitude to the next larger one, as a significand has 53 bits. -/
def gap (units : Nat) : Nat := Nat.pow 2 (units.log2 - 52)

/-- The first multiple of a unit that is too large for a finite number. -/
def limit : Nat := Nat.pow 2 (1024 + unitExponent)

/-- The integer nearest to `n / d`, of two the even one. -/
def roundDiv (n d : Nat) : Nat :=
  if 2 * (n % d) < d || (2 * (n % d) = d && n / d % 2 = 0) then n / d else n / d + 1

/-- The magnitude nearest to `n / d` units, of two the one with the even significand. -/
def nearest (n d : Nat) : Nat :=
  let step := gap (n / d)
  roundDiv n (d * step) * step

/-- The number nearest to `digits * 10 ^ exponent` with the given sign.  It is infinite if the
magnitude exceeds what a finite number can have. -/
def ofDecimal (negative : Bool) (digits : Nat) (exponent : Int) : Double :=
  if digits = 0 ∨ exponent < -(400 + digits.log2 : Nat) then .finite negative 0
  else if 400 < exponent then .infinite negative
  else
    let n := digits * Nat.pow 10 exponent.toNat * Nat.pow 2 unitExponent
    let units := nearest n (Nat.pow 10 (-exponent).toNat)
    if units < limit then .finite negative units else .infinite negative

/-- How many digits of a decimal tell which number is nearest.  A middle between two neighbours has
fewer, so of the digits after these it only matters whether one is not zero. -/
def significantDigits : Nat := 800

/-- The number nearest to the decimal with the given digits, of which the last one counts
`10 ^ exponent`. -/
def ofDigits (negative : Bool) (digits : List Char) (exponent : Int) : Double :=
  let digits := digits.dropWhile (· = '0')
  let rest := digits.drop significantDigits
  let kept := digits.take significantDigits ++ if rest.all (· = '0') then ['0'] else ['1']
  ofDecimal negative (Numeral.value 10 kept) (exponent + rest.length - 1)

example : ofDecimal false 9007199254740993 0 = ofDecimal false 9007199254740992 0 := by
  decide +kernel

example : ofDecimal true 17976931348623158 292 ≠ .infinite true ∧
    ofDecimal true 17976931348623159 292 = .infinite true := by decide +kernel

end Double

end Groupcast
