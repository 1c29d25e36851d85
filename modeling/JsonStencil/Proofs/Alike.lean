import JsonStencil.Proofs.VariantPlans

/-!
# Schemas that are compiled alike

Two schemas that list the same members in the same order, and agree in all
that compiling looks at, are alike: they are of one form, with the same kinds,
the same keys and the same properties optional, and their defaults have the
same text. The lists of required keys may differ, and so may the optional
markers of nodes that are no properties. Such schemas are variants of each
other, so they have the same plan.

Main definitions:

* `Schema.Alike` — agreement in all that compiling looks at.

Main results:

* `Schema.Alike.variant` — alike schemas are variants of each other.
* `Schema.Alike.ofSchema_eq` — alike schemas have the same plan.
-/

namespace JsonStencil.Schema

/-! ## The relation -/

mutual

/-- Schemas of one form with the same kinds, the same keys in the same order,
the same properties optional and the same texts for defaults. -/
inductive Alike : Schema → Schema → Prop where
  | scalar (kind : Scalar) {a b : Marks} (marks : a.Alike b) :
    Alike (.scalar kind a) (.scalar kind b)
  | object {properties others : List (String × Schema)} (required wanted : List String)
      (additional : Bool) {a b : Marks} (parts : AlikeProperties properties others)
      (marks : a.Alike b) :
    Alike (.object properties required additional a) (.object others wanted additional b)
  | array {items others : Schema} {a b : Marks} (parts : Alike items others)
      (marks : a.Alike b) :
    Alike (.array items a) (.array others b)
  | union {members others : List Schema} {a b : Marks} (parts : AlikeMembers members others)
      (marks : a.Alike b) :
    Alike (.union members a) (.union others b)
  | intersection {members others : List Schema} {a b : Marks}
      (parts : AlikeMembers members others) (marks : a.Alike b) :
    Alike (.intersection members a) (.intersection others b)

/-- Member by member. -/
inductive AlikeMembers : List Schema → List Schema → Prop where
  | nil : AlikeMembers [] []
  | cons {s t : Schema} {members others : List Schema} (first : Alike s t)
      (rest : AlikeMembers members others) : AlikeMembers (s :: members) (t :: others)

/-- Property by property, under the same key and under the same marker. -/
inductive AlikeProperties : List (String × Schema) → List (String × Schema) → Prop where
  | nil : AlikeProperties [] []
  | cons (key : String) {s t : Schema} {properties others : List (String × Schema)}
      (optional : s.optional = t.optional) (first : Alike s t)
      (rest : AlikeProperties properties others) :
    AlikeProperties ((key, s) :: properties) ((key, t) :: others)

end

/-! ## Alike schemas as variants -/

mutual

/-- Alike schemas are variants of each other. -/
theorem Alike.variant : ∀ {s t : Schema}, s.Alike t → s.Variant .unseen t
  | _, _, .scalar kind hMarks => .scalar kind hMarks
  -- the required keys may differ, which a variant does not ask about
  | _, _, .object _ _ additional hParts hMarks =>
    .object additional hParts.variant trivial hMarks
  | _, _, .array hParts hMarks => .array hParts.variant hMarks
  | _, _, .union hParts hMarks => .union hParts.variant (.refl _) hMarks
  | _, _, .intersection hParts hMarks => .intersection hParts.variant hMarks

theorem AlikeMembers.variant : ∀ {members others : List Schema}, AlikeMembers members others →
    VariantMembers .unseen members others
  | _, _, .nil => .nil
  | _, _, .cons hFirst hRest => .cons hFirst.variant hRest.variant

theorem AlikeProperties.variant : ∀ {properties others : List (String × Schema)},
    AlikeProperties properties others → VariantProperties .unseen properties others
  | _, _, .nil => .nil
  | _, _, .cons key hOptional hFirst hRest => .cons key hOptional hFirst.variant hRest.variant

end

/-- Alike schemas have the same plan. -/
theorem Alike.ofSchema_eq {s t : Schema} (h : s.Alike t) : Plan.ofSchema s = Plan.ofSchema t :=
  -- nothing is rearranged, so no plan can notice it
  h.variant.ofSchema_eq Leeway.unnoticed_unseen

end JsonStencil.Schema
