import JsonStencil.Text.Hidden

/-!
# Strings in listings

A listing shows a string between double quotes so that every character can
be told: the quote and the backslash are escaped, four controls by a letter,
and any other character without a visible mark by its code point in lower-case
hexadecimal. A single quote stands for itself.

Main definitions:

* `Text.showChar` — the characters that show one character.
* `Text.shown` — a string as a listing shows it.
-/

namespace JsonStencil.Text

/-- The characters that show one character of a string. -/
def showChar (c : Char) : List Char :=
  if c = '\x00' then ['\\', '0']
  else if c = '\t' then ['\\', 't']
  else if c = '\n' then ['\\', 'n']
  else if c = '\r' then ['\\', 'r']
  else if c = '"' then ['\\', '"']
  else if c = '\\' then ['\\', '\\']
  else if isHidden c then ['\\', 'u', '\x7b'] ++ Nat.toDigits 16 c.toNat ++ ['\x7d']
  else [c]

/-- A string as a listing shows it. -/
def shown (s : String) : String :=
  String.ofList ('"' :: s.toList.flatMap showChar ++ ['"'])

end JsonStencil.Text
