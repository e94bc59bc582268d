import Groupcast.Decimal.Double

/-!
# The shortest decimals of floating-point numbers

Of all decimals that round to a number, `Double.shortest` takes one with the fewest digits, of those
the nearest, and of two that are equally near the larger one.  `Double.text` writes it in positional
notation.
-/

namespace Groupcast.Double

/-- How many places after the point a decimal can have.  Any two decimals of so many places that
are neighbours are closer than two magnitudes. -/
def decimalPlaces : Nat := 324

/-- Decimals are counted in units of the last place. -/
def decimalScale : Nat := Nat.pow 10 decimalPlaces

/-- Whether `decimal` units of the last place round to a magnitude: it is not beyond the middle
between the magnitude and a neighbour, and in the middle only if the significand is even.  Below a
power of two the magnitudes are half as far from each other as above it. -/
def roundsTo (units decimal : Nat) : Bool :=
  let step := gap units
  let below := if 1 < step && Nat.pow 2 units.log2 = units then step else 2 * step
  let lower := (4 * units - below) * decimalScale
  let upper := (4 * units + 2 * step) * decimalScale
  let place := 4 * decimal * Nat.pow 2 unitExponent
  if units / step % 2 = 0 then lower ≤ place && place ≤ upper else lower < place && place < upper

/-- The multiple of `grid` next to a magnitude that rounds to it, and the nearer one if both do. -/
def onGrid? (units grid : Nat) : Option Nat :=
  let exact := units * decimalScale
  let spacing := grid * Nat.pow 2 unitExponent
  let low := exact / spacing * grid
  let high := low + grid
  match roundsTo units low, roundsTo units high with
  | true, true => some (if 2 * (exact % spacing) < spacing then low else high)
  | true, false => some low
  | false, true => some high
  | false, false => none

/-- The shortest decimal that rounds to a positive magnitude, in units of the last place: the one on
the coarsest grid that has any. -/
def shortest (units : Nat) : Nat :=
  ((List.range (decimalPlaces + 310)).reverse.findSome? fun k =>
    onGrid? units (Nat.pow 10 k)).getD 0

/-- A decimal in positional notation, with at least one digit after the point. -/
def positional (decimal : Nat) : List Char :=
  let fraction := Nat.toDigits 10 (decimal % decimalScale)
  let padded := List.replicate (decimalPlaces - fraction.length) '0' ++ fraction
  let kept := (padded.reverse.dropWhile (· = '0')).reverse
  Nat.toDigits 10 (decimal / decimalScale) ++ '.' :: (if kept.isEmpty then ['0'] else kept)

/-- The text of a number. -/
def text : Double → String
  | finite negative units =>
    let magnitude := if units = 0 then 0 else shortest units
    String.ofList ((if negative then ['-'] else []) ++ positional magnitude)
  | infinite negative => if negative then "-inf" else "inf"
  | nan => "NaN"

example : (ofDecimal true 1250 (-3)).text = "-1.25" := by decide +kernel

example : (ofDecimal false 298023223876953125 (-25)).text = "0.000000029802322387695313" := by
  decide +kernel

end Groupcast.Double
