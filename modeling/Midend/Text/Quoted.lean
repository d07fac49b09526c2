import Midend.Text.Printable

/-!
# Quoted text

A text in double quotes. Inside, the quote, the backslash, the tab, the line
ends and the null character are written with a backslash, and any other
character that is not printable by its code point in lower-case hexadecimal.
-/

namespace Midend.Text

/-- The code point of a character as an escape. -/
def escapeCode (c : Char) : List Char :=
  ['\\', 'u', '\x7b'] ++ Nat.toDigits 16 c.toNat ++ ['\x7d']

/-- A character inside quotes. -/
def escape : Char → List Char
  | '"' => ['\\', '"']
  | '\\' => ['\\', '\\']
  | '\t' => ['\\', 't']
  | '\n' => ['\\', 'n']
  | '\r' => ['\\', 'r']
  | '\x00' => ['\\', '0']
  | c => if isPrintable c then [c] else escapeCode c

/-- The text in quotes. -/
def quoted (s : String) : String := .ofList (['"'] ++ s.toList.flatMap escape ++ ['"'])

end Midend.Text
