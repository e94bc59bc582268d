/-!
# Lines and words

A configuration file is a sequence of lines, and a line a sequence of words with blanks between
them.  `numberedLines` is what the readers of configuration files see of a text: the words of each
line that is not blank, and the number of that line, counted from one over all lines.
-/

namespace Groupcast.Text

/-- Whether a character has the property of white space. -/
def isBlank (c : Char) : Bool :=
  let n := c.toNat
  (9 ≤ n && n ≤ 13) || n = 0x20 || n = 0x85 || n = 0xa0 || n = 0x1680 ||
    (0x2000 ≤ n && n ≤ 0x200a) || n = 0x2028 || n = 0x2029 || n = 0x202f || n = 0x205f || n = 0x3000

/-- A list of words with one more in front, unless that is empty. -/
def consWord : List Char → List (List Char) → List (List Char)
  | [], ws => ws
  | w, ws => w :: ws

/-- The characters up to the first blank, and the words after that. -/
def firstWord : List Char → List Char × List (List Char)
  | [] => ([], [])
  | c :: cs =>
    let (w, ws) := firstWord cs
    if isBlank c then ([], consWord w ws) else (c :: w, ws)

/-- The words of a text: its longest parts without blanks. -/
def words (cs : List Char) : List (List Char) := consWord (firstWord cs).1 (firstWord cs).2

/-- The parts of a text between separators. -/
def pieces (separator : Char) : List Char → List (List Char)
  | [] => [[]]
  | c :: cs =>
    if c = separator then [] :: pieces separator cs
    else
      match pieces separator cs with
      | p :: ps => (c :: p) :: ps
      | [] => [[c]]

/-- The lines of a text.  A line feed ends a line; a carriage return before it is a blank. -/
def lines (text : List Char) : List (List Char) := pieces '\n' text

/-- Numbers the elements of a list from `n`. -/
def numberFrom {α : Type} : Nat → List α → List (Nat × α)
  | _, [] => []
  | n, a :: as => (n, a) :: numberFrom (n + 1) as

/-- The lines of a text that hold a word, each as its number and its words. -/
def numberedLines (text : List Char) : List (Nat × List (List Char)) :=
  (numberFrom 1 ((lines text).map words)).filter fun (_, ws) => !ws.isEmpty

example : words " ab\u3000c\x1fd ".toList = ["ab".toList, "c\x1fd".toList] := by decide +kernel

example : numberedLines "\n a b\r\n\t\nc".toList =
    [(2, ["a".toList, "b".toList]), (4, ["c".toList])] := by decide +kernel

end Groupcast.Text
