import Groupcast.Text.Shown

/-!
# Quoted text

A text between double quotes, in which a character that is not shown as itself is written as an
escape sequence.
-/

namespace Groupcast.Text

/-- The code point of a character in hexadecimal, in braces. -/
def codeEscape (c : Char) : List Char :=
  ['\\', 'u', '\x7b'] ++ Nat.toDigits 16 c.toNat ++ ['\x7d']

/-- How a character is written between double quotes. -/
def escape (c : Char) : List Char :=
  match c with
  | '\x00' => ['\\', '0']
  | '\t' => ['\\', 't']
  | '\n' => ['\\', 'n']
  | '\r' => ['\\', 'r']
  | '"' => ['\\', '"']
  | '\\' => ['\\', '\\']
  | c => if isShown c then [c] else codeEscape c

/-- A text between double quotes. -/
def quote (cs : List Char) : List Char := '"' :: cs.flatMap escape ++ ['"']

example : String.ofList (quote ['a', '"', '\x00', '\x7f', '\'']) =
    "\"a\\\"\\0\\u\x7b7f\x7d'\"" := by decide +kernel

end Groupcast.Text
