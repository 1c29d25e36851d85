import JsonStencil.Text.Split

/-!
# Path patterns

A pattern is a path whose names may hold wildcards: `?` for one character,
`*` for any number of them, and a class in brackets for one character among
its members, or among the others if a `!` stands first. A class has at least
one member, so that a `]` in its first place is one, and two characters with
a hyphen between them stand for all from the one to the other. The name `**`
stands for directories of any depth.

A pattern has to make sense as a whole before it is cut into names, each of
which then has to make sense alone.

Main definitions:

* `Files.Pattern` / `Files.Pattern.ofChars` — the pattern of a name.
* `Files.Pattern.admits` — the names that a pattern stands for.
* `Files.Glob` / `Files.Glob.ofText` — the patterns along a path.
* `Files.PatternFault` — where and why a text is no pattern.
-/

namespace JsonStencil.Files

/-! ## Faults -/

/-- Why a text is no pattern. -/
inductive PatternCause where
  /-- More than two stars in a row. -/
  | wildcards
  /-- Two stars that are only a part of a name. -/
  | recursion
  /-- A class that is not closed. -/
  | range
deriving DecidableEq, Repr

/-- Where a text fails to be a pattern, counted in characters, and why. -/
structure PatternFault where
  position : Nat
  cause : PatternCause
deriving DecidableEq, Repr

/-- The wording of a cause. -/
def PatternCause.message : PatternCause → String
  | .wildcards => "wildcards are either regular `*` or recursive `**`"
  | .recursion => "recursive wildcards must form a single path component"
  | .range => "invalid range pattern"

/-- The wording of a fault. -/
def PatternFault.message (f : PatternFault) : String :=
  s!"Pattern syntax error near position {f.position}: " ++ f.cause.message

/-! ## Patterns of names -/

/-- The characters from one to another. -/
structure Span where
  first : Char
  last : Char
deriving DecidableEq, Repr

/-- Whether a character lies in a span. -/
def Span.holds (s : Span) (c : Char) : Bool := s.first ≤ c && c ≤ s.last

/-- A part of a pattern. -/
inductive Token where
  | char (c : Char)
  | anyChar
  | anySequence
  /-- Directories of any depth. -/
  | anyDirectories
  | inside (spans : List Span)
  | outside (spans : List Span)
deriving DecidableEq, Repr

/-- The pattern of a name. -/
abbrev Pattern := List Token

/-- The spans that the members of a class form. -/
def spansOf : List Char → List Span
  | a :: '-' :: b :: rest => ⟨a, b⟩ :: spansOf rest
  | a :: rest => ⟨a, a⟩ :: spansOf rest
  | [] => []

/-- The members of a class and what follows its end. The bracket that opens
it has been passed, and so has a `!`. -/
def classOf? : List Char → Option (List Char × List Char)
  | [] => none
  | first :: more =>
    match more.dropWhile (· ≠ ']') with
    | [] => none
    | _ :: rest => some (first :: more.takeWhile (· ≠ ']'), rest)

/-- A class takes at least its closing bracket. -/
theorem length_lt_of_classOf? {cs members rest : List Char}
    (h : classOf? cs = some (members, rest)) : rest.length < cs.length := by
  cases cs with
  | nil => simp [classOf?] at h
  | cons first more =>
    simp only [classOf?] at h
    split at h
    · simp at h
    · rename_i c tail hd
      have hs := (List.dropWhile_sublist (· ≠ ']') (l := more)).length_le
      simp only [hd, List.length_cons, Option.some.injEq, Prod.mk.injEq] at hs h
      simp only [List.length_cons, ← h.2]
      omega

namespace Pattern

/-- The tokens of some characters, which stand at a position behind another
character or at the start. -/
def ofCharsFrom (position : Nat) (previous : Option Char) (cs : List Char) :
    Except PatternFault Pattern :=
  match cs with
  | [] => .ok []
  | '?' :: rest => (ofCharsFrom (position + 1) (some '?') rest).map (.anyChar :: ·)
  | '*' :: '*' :: '*' :: _ => .error ⟨position + 2, .wildcards⟩
  -- two stars stand between slashes or ends, and nothing else does
  | '*' :: '*' :: rest =>
    if previous = none ∨ previous = some '/' then
      match rest with
      | [] => .ok [.anyDirectories]
      | c :: rest =>
        if c = '/' then
          (ofCharsFrom (position + 3) (some '/') rest).map (.anyDirectories :: ·)
        else .error ⟨position + 2, .recursion⟩
    else .error ⟨position - 1, .recursion⟩
  | '*' :: rest => (ofCharsFrom (position + 1) (some '*') rest).map (.anySequence :: ·)
  | '[' :: '!' :: rest =>
    match _h : classOf? rest with
    | none => .error ⟨position, .range⟩
    | some (members, after) =>
      (ofCharsFrom (position + members.length + 3) (some ']') after).map
        (.outside (spansOf members) :: ·)
  | '[' :: rest =>
    match _h : classOf? rest with
    | none => .error ⟨position, .range⟩
    | some (members, after) =>
      (ofCharsFrom (position + members.length + 2) (some ']') after).map
        (.inside (spansOf members) :: ·)
  | c :: rest => (ofCharsFrom (position + 1) (some c) rest).map (.char c :: ·)
termination_by cs.length
decreasing_by
  all_goals simp_wf
  all_goals try have := length_lt_of_classOf? _h
  all_goals omega

/-- The pattern that some characters spell. -/
def ofChars (cs : List Char) : Except PatternFault Pattern := ofCharsFrom 0 none cs

/-- Whether a pattern stands for directories of any depth. -/
def isRecursive (p : Pattern) : Bool := p == [.anyDirectories]

/-- The name that a pattern without wildcards spells. -/
def literal? : Pattern → Option (List Char)
  | [] => some []
  | .char c :: rest => (literal? rest).map (c :: ·)
  | _ :: _ => none

/-- Whether some end of a text has a property. -/
def anyEnd (holds : List Char → Bool) : List Char → Bool
  | [] => holds []
  | c :: rest => holds (c :: rest) || anyEnd holds rest

/-- Whether a pattern stands for a name. -/
def admits : Pattern → List Char → Bool
  | [], cs => cs.isEmpty
  | .anySequence :: rest, cs => anyEnd (admits rest) cs
  | .anyDirectories :: rest, cs => anyEnd (admits rest) cs
  | _ :: _, [] => false
  | .char d :: rest, c :: cs => d == c && admits rest cs
  | .anyChar :: rest, _ :: cs => admits rest cs
  | .inside spans :: rest, c :: cs => spans.any (·.holds c) && admits rest cs
  | .outside spans :: rest, c :: cs => !spans.any (·.holds c) && admits rest cs

/-- Of the names of the directory above and of a directory itself those that
a pattern stands for; the pattern has to spell out the point in front. -/
def points (p : Pattern) : List String :=
  if p.head? = some (.char '.') then ["..", "."].filter fun name => p.admits name.toList
  else []

end Pattern

/-! ## Patterns of paths -/

/-- The patterns along a path, and whether only directories are wanted,
which a slash at the end of the path says. -/
structure Glob where
  absolute : Bool
  names : List Pattern
  directoriesOnly : Bool
deriving DecidableEq, Repr

namespace Glob

/-- Whether a text is meant as a pattern at all. -/
def isMeant (text : String) : Bool := text.toList.any fun c => c ∈ ['*', '?', '[', '\x7b']

/-- The names along a path; a slash at its end is not followed by one. -/
def namesOf (path : List Char) : List (List Char) :=
  let names := Text.pieces '/' path
  if names.getLast? = some [] then names.dropLast else names

/-- The patterns that a text spells. -/
def ofText (text : String) : Except PatternFault Glob := do
  let cs := text.toList
  let _ ← Pattern.ofChars cs
  let absolute := cs.head? = some '/'
  let names ← (namesOf (if absolute then cs.tail else cs)).mapM Pattern.ofChars
  return ⟨absolute, names, cs.getLast? = some '/'⟩

end Glob

end JsonStencil.Files
