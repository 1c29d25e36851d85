/-!
# Splitting

A text cut at every occurrence of a character. There is always one piece
more than there are cuts, so that the empty text has one piece.

Main definitions:

* `Text.pieces` / `Text.split` — the pieces of a text.
-/

namespace JsonStencil.Text

/-- A character put in front of the first of some pieces. -/
def extendFirst (c : Char) : List (List Char) → List (List Char)
  | [] => [[c]]
  | first :: others => (c :: first) :: others

/-- The pieces between the occurrences of a character. -/
def pieces (cut : Char) : List Char → List (List Char)
  | [] => [[]]
  | c :: rest => if c = cut then [] :: pieces cut rest else extendFirst c (pieces cut rest)

/-- The pieces of a string. -/
def split (cut : Char) (s : String) : List String := (pieces cut s.toList).map String.ofList

end JsonStencil.Text
