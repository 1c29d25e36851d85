/-!
# Lines

A line ends with a line feed, or with a carriage return and a line feed;
what follows the last line feed is a line too unless it is empty. A line is
blank when every character of it is white space in the sense of Unicode.

Main definitions:

* `Text.isBlank` — white space.
* `Text.lines` — the lines of a text, without their ends.
* `Text.unlines` — texts one below the other, a line feed at the end.
-/

namespace JsonStencil.Text

/-- Whether a character has the property `White_Space`. -/
def isBlank (c : Char) : Bool :=
  let n := c.toNat
  (9 ≤ n && n ≤ 13) || n == 0x20 || n == 0x85 || n == 0xA0 || n == 0x1680
    || (0x2000 ≤ n && n ≤ 0x200A) || n == 0x2028 || n == 0x2029 || n == 0x202F
    || n == 0x205F || n == 0x3000

/-- Whether a text holds white space only. -/
def allBlank (s : String) : Bool := s.toList.all isBlank

/-- A text without one carriage return at its end. -/
def dropReturn (s : List Char) : List Char := if s.getLast? = some '\r' then s.dropLast else s

/-- The lines of a text; `start` holds the characters of the current line in
reverse. -/
def linesFrom (start : List Char) : List Char → List String
  | [] => if start.isEmpty then [] else [String.ofList start.reverse]
  | c :: rest =>
    if c = '\n' then String.ofList (dropReturn start.reverse) :: linesFrom [] rest
    else linesFrom (c :: start) rest

/-- The lines of a text without their ends. -/
def lines (s : String) : List String := linesFrom [] s.toList

/-- Texts one below the other. The last one ends with a line feed too, also
when there is none at all. -/
def unlines (texts : List String) : String := "\n".intercalate texts ++ "\n"

end JsonStencil.Text
