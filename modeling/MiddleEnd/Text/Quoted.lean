import MiddleEnd.Text.Hidden

/-!
# Quoted texts

A string literal is listed between double quotes. The quote, the backslash and the common control
characters have an escape of their own, hidden characters are shown by their number, and everything
else stands for itself.

## Main definitions

* `escapeChar`: how one character is shown.
* `quote`: a text between quotes.
-/

namespace MiddleEnd

/-- The escape of a character by its number, in lower case hexadecimal without padding. -/
def numberEscape (c : Char) : List Char :=
  ['\\', 'u', '\x7b'] ++ Nat.toDigits 16 c.toNat ++ ['\x7d']

/-- How a character is shown inside quotes. -/
def escapeChar (c : Char) : List Char :=
  if c = '\x00' then ['\\', '0']
  else if c = '\t' then ['\\', 't']
  else if c = '\r' then ['\\', 'r']
  else if c = '\n' then ['\\', 'n']
  else if c = '\\' then ['\\', '\\']
  else if c = '"' then ['\\', '"']
  else if isHidden c then numberEscape c
  else [c]

/-- A text between double quotes. -/
def quote (text : String) : String :=
  String.ofList ('"' :: text.toList.flatMap escapeChar ++ ['"'])

end MiddleEnd
