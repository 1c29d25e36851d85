import JsonStencil.Plan.OfSchema
import JsonStencil.Plan.Run
import JsonStencil.Schema.Document

/-!
# Encoders

An encoder is a compiled schema together with the way it escapes strings. It
holds no state, so that encoding a value never depends on the values encoded
before.

A cache keeps one encoder for every canonical document that it has seen. Two
schemas with the same document share the encoder that was compiled for the
first of them.

Main definitions:

* `Encoder` / `Encoder.encode` — a compiled schema and its use.
* `EncoderCache.obtain` — the encoder of a schema, compiled if need be.
-/

namespace JsonStencil

/-- A compiled schema and the way it writes strings. -/
structure Encoder where
  plan : Plan
  escaping : Json.Escaping
deriving Repr, Inhabited

namespace Encoder

/-- Compiles a schema. -/
def ofSchema (s : Schema) (escaping : Json.Escaping) : Encoder := ⟨Plan.ofSchema s, escaping⟩

/-- The text of a value. -/
def encode (e : Encoder) (v : Value) : Except OutOfRange String := e.plan.run e.escaping v

end Encoder

/-! ## Caching -/

/-- The encoders compiled so far, each under the text of a canonical
document, in the order in which they were asked for. -/
structure EncoderCache where
  escaping : Json.Escaping
  entries : List (String × Encoder) := []
deriving Repr, Inhabited

namespace EncoderCache

/-- The number of encoders held. -/
def size (c : EncoderCache) : Nat := c.entries.length

/-- Where the encoder of a document stands among the entries, if there is
one. -/
def indexOf? (c : EncoderCache) (document : String) : Option Nat :=
  c.entries.findIdx? fun entry => entry.1 == document

/-- The encoder of a schema, its place among the entries, and the cache that
holds it: the one compiled earlier for the same document, else a new one. -/
def obtain (c : EncoderCache) (s : Schema) : (Nat × Encoder) × EncoderCache :=
  let document := s.documentText
  match c.entries.lookup document with
  | some encoder => (((c.indexOf? document).getD 0, encoder), c)
  | none =>
    let encoder := Encoder.ofSchema s c.escaping
    ((c.size, encoder), { c with entries := c.entries ++ [(document, encoder)] })

end EncoderCache

end JsonStencil
