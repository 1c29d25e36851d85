import JsonStencil.Encoder
import JsonStencil.Json.Pointer
import JsonStencil.Json.Reader
import JsonStencil.Text.Lines

/-!
# Batches of documents

A source holds one document, or one on every line that is not blank. All
documents of a batch are encoded by one encoder. A check holds the encoding
of each against its generic text: the two match if both are JSON texts of
values that are equal up to the order of object members. One document that
does not match keeps the whole batch from being written.

Main definitions:

* `CommandLine.documentTexts` — the documents of a source.
* `CommandLine.Comparison` — the two texts of a document.
* `CommandLine.report` / `CommandLine.mismatches` — what a check says.
* `CommandLine.output` — the text of a batch.
-/

namespace JsonStencil.CommandLine

/-- The texts of the documents in a source. -/
def documentTexts (linewise : Bool) (source : String) : List String :=
  if linewise then (Text.lines source).filter fun line => !Text.allBlank line
  else [source]

/-- A text and another one that it is held against. -/
structure Comparison where
  encoded : String
  generic : String
deriving DecidableEq, Repr

namespace Comparison

/-- The encoding of a document and its generic text. -/
def ofDocument (e : Encoder) (document : Json) : Except OutOfRange Comparison := do
  let value := Value.ofJson document
  return ⟨← e.encode value, value.text⟩

/-- Whether both texts stand for the same value. -/
def agrees (c : Comparison) : Bool :=
  match Json.ofText c.encoded, Json.ofText c.generic with
  | .ok a, .ok b => a.same b
  | _, _ => false

end Comparison

/-- Shows a text in a style of the terminal, named by its number, if colours
are wanted. -/
def marked (color : Bool) (style text : String) : String :=
  if color then "\x1b[" ++ style ++ "m" ++ text ++ "\x1b[0m" else text

/-- What a check says of the document at a position: whether its texts agree
and, if they do not, both of them. -/
def Comparison.report (c : Comparison) (color : Bool) (position : Nat) : String :=
  if c.agrees then marked color "32" "✅ match" ++ s!" document {position}\n"
  else
    marked color "1;31" "❌ mismatch" ++ s!" document {position}\n"
      ++ "   accelerated: " ++ c.encoded ++ "\n"
      ++ "   generic:     " ++ c.generic ++ "\n"

/-- What a check says of documents that stand one after the other from a
position on. -/
def reportFrom (color : Bool) (position : Nat) : List Comparison → String
  | [] => ""
  | c :: rest => c.report color position ++ reportFrom color (position + 1) rest

/-- What a check says of a batch. -/
def report (color : Bool) (batch : List Comparison) : String := reportFrom color 0 batch

/-- The number of documents that do not match. -/
def mismatches (batch : List Comparison) : Nat := batch.countP fun c => !c.agrees

/-- The text of a batch: every encoding on lines of its own. -/
def output (batch : List Comparison) : String := Text.unlines (batch.map Comparison.encoded)

/-- A batch has no mismatch exactly if every document matches. -/
theorem mismatches_eq_zero_iff (batch : List Comparison) :
    mismatches batch = 0 ↔ ∀ c ∈ batch, c.agrees = true := by
  simp [mismatches, List.countP_eq_zero]

end JsonStencil.CommandLine
