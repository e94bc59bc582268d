/-!
# Slices of a text by bytes

A place in a text counts the bytes before it, as the text is encoded in UTF-8.  A text can be split
only between two characters.
-/

namespace Groupcast.Text

/-- The number of bytes that characters take up. -/
def size : List Char → Nat
  | [] => 0
  | c :: cs => c.utf8Size + size cs

/-- The parts of a text before and after a place.  There are none if the place is within a character
or beyond the end. -/
def splitAt? : Nat → List Char → Option (List Char × List Char)
  | 0, cs => some ([], cs)
  | _ + 1, [] => none
  | n + 1, c :: cs =>
    if c.utf8Size ≤ n + 1 then
      (splitAt? (n + 1 - c.utf8Size) cs).map fun (before, rest) => (c :: before, rest)
    else none

/-- The part of a text between two places, unless one of them is within a character. -/
def slice? (start stop : Nat) (text : List Char) : Option (List Char) := do
  let (_, rest) ← splitAt? start text
  let (part, _) ← splitAt? (stop - start) rest
  pure part

example : slice? 1 3 "aéb".toList = some ['é'] := by decide +kernel

example : slice? 1 2 "aéb".toList = none := by decide +kernel

end Groupcast.Text
