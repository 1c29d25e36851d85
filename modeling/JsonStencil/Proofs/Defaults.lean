import JsonStencil.Proofs.Simulation
import JsonStencil.Schema.Build

/-!
# Defaults of nullable optional properties

A nullable scalar may carry its default itself or on the wrapper that adds
null. For null it makes no difference: the guard looks at the node that the
wrapper is peeled down to and then at the wrapper. A property that may be
absent is asked for its default as it is declared, so that only the default
of the wrapper is found.

An object with such a property is therefore written in the same way for both
declarations, unless the property is absent or undefined. Then the field is
there in the one text and missing in the other, which makes it longer.

Main definitions:

* `Scalar.takesDefault` — the scalars with an encoding of their own.
* `Schema.defaultInside` / `Schema.defaultOutside` — the two declarations.

Main results:

* `length_commaSep_insert` — a text more makes a sequence longer.
* `node_defaultInside` — as nodes the two declarations are the same.
* `encode_defaultInside_iff` — where objects with such a property are written
  in the same way.
-/

namespace JsonStencil

/-! ## One text more -/

/-- A first text adds its own length at least. -/
theorem length_commaSep_cons_le (text : String) (rest : List String) :
    text.length + (commaSep rest).length ≤ (commaSep (text :: rest)).length := by
  cases rest with
  | nil => exact Nat.le_refl _
  | cons next rest =>
    rw [commaSep, String.length_append, String.length_append]
    omega

/-- A text more makes a sequence longer, wherever it is put in. -/
theorem length_commaSep_insert {text : String} (h : 0 < text.length)
    (before after : List String) :
    (commaSep (before ++ after)).length < (commaSep (before ++ text :: after)).length := by
  -- past the texts in front, keeping count of the commas: the new text brings one unless
  -- it is the only text
  induction before with
  | nil =>
    have hLonger := length_commaSep_cons_le text after
    rw [List.nil_append, List.nil_append]
    omega
  | cons first before ih =>
    cases before with
    | nil =>
      rw [List.nil_append, List.nil_append] at ih
      cases after with
      | nil =>
        rw [List.append_nil, List.cons_append, List.nil_append, commaSep, commaSep, commaSep,
          String.length_append, String.length_append]
        omega
      | cons next after =>
        rw [List.cons_append, List.cons_append, List.nil_append, List.nil_append, commaSep,
          commaSep, String.length_append, String.length_append, String.length_append,
          String.length_append]
        omega
    | cons second before =>
      rw [List.cons_append, List.cons_append] at ih ⊢
      rw [List.cons_append, List.cons_append, commaSep, commaSep, String.length_append,
        String.length_append, String.length_append, String.length_append]
      omega

/-- With a field more between the braces the text is another one. -/
theorem braced_insert_ne {text : String} (h : 0 < text.length) (before after : List String) :
    braced (before ++ after) ≠ braced (before ++ text :: after) := by
  intro hEq
  rw [braced, braced, String.append_left_inj, String.append_right_inj] at hEq
  have hLonger := length_commaSep_insert h before after
  rw [hEq] at hLonger
  exact Nat.lt_irrefl _ hLonger

/-! ## The two declarations -/

/-- The scalars that are written by a step of their own, behind a guard where
they are nullable. -/
def Scalar.takesDefault : Scalar → Bool
  | .string _ | .number | .boolean | .bigint | .date => true
  | .null | .undefined | .other _ => false

namespace Schema

/-- A nullable property with a default that the peeled node carries. -/
def defaultInside (s : Schema) (default : Json) : Schema :=
  (s.withDefault default).nullable.asOptional

/-- A nullable property with a default that the wrapper carries. -/
def defaultOutside (s : Schema) (default : Json) : Schema :=
  (s.nullable.withDefault default).asOptional

section Declarations

variable {kind : Scalar} {marks : Marks} (hKind : kind.takesDefault = true)
  (hMarks : marks.default = none) (default : Json)

include hKind hMarks

/-- Both declarations have one shape, with the default as what stands in for
null. -/
theorem node_defaultInside :
    (defaultInside (.scalar kind marks) default).node =
      (defaultOutside (.scalar kind marks) default).node := by
  obtain ⟨_, optional⟩ := marks
  cases hMarks
  -- peeling takes the default along, wherever it is
  cases kind with
  | null | undefined | other _ => cases hKind
  | _ => rfl

/-- The field of a property whose default is inside is missing where the
property is. -/
theorem directField_defaultInside (escaping : Json.Escaping) (key : String) (v : Value) :
    directField escaping key (defaultInside (.scalar kind marks) default) v =
      if (v.get key).isUndefined then []
      else [label key ++
        (defaultOutside (.scalar kind marks) default).direct escaping (v.get key)] := by
  have hDirect := node_defaultInside hKind hMarks default
  rw [directField, direct_eq, direct_eq, hDirect]
  rfl

omit hKind hMarks in
/-- The field of a property whose default is outside is always there. -/
theorem directField_defaultOutside (escaping : Json.Escaping) (key : String) (v : Value) :
    directField escaping key (defaultOutside (.scalar kind marks) default) v =
      [label key ++ if (v.get key).isUndefined then default.text
        else (defaultOutside (.scalar kind marks) default).direct escaping (v.get key)] := by
  rw [directField]
  cases (v.get key).isUndefined <;> rfl

end Declarations

/-! ## Objects with such a property -/

variable (escaping : Json.Escaping) (v : Value)

/-- Fields are written one after the other. -/
theorem directFields_append (properties others : List (String × Schema)) :
    directFields escaping (properties ++ others) v =
      directFields escaping properties v ++ directFields escaping others v := by
  induction properties with
  | nil => rw [List.nil_append, directFields, List.nil_append]
  | cons entry rest ih =>
    rw [List.cons_append, directFields_cons, directFields_cons, ih, List.append_assoc]

/-- An object that nothing wraps is written by its fields, whatever the
value. -/
theorem direct_bareObject (properties : List (String × Schema)) (required : List String)
    (additional : Bool) (marks : Marks) :
    (Schema.object properties required additional marks).direct escaping v =
      if additional then v.text else braced (directFields escaping properties v) := by
  rw [direct_eq]
  cases additional <;> rfl

/-- A field is never empty, since it holds a colon. -/
theorem length_label_pos (key text : String) : 0 < (label key ++ text).length := by
  have hColon : (":" : String).length = 1 := rfl
  rw [label, String.length_append, String.length_append]
  omega

/-- **Defaults inside and outside of a nullable property.** An object is
written in the same way whether a nullable optional scalar carries its default
itself or on the wrapper, as long as the property is null or anything else
that is present. Where it is absent or undefined only the default on the
wrapper is written, so the texts differ, unless undeclared keys are admitted
and the object is left to the generic text. -/
theorem encode_defaultInside_iff {kind : Scalar} {marks : Marks}
    (hKind : kind.takesDefault = true) (hMarks : marks.default = none) (default : Json)
    (key : String) (before after : List (String × Schema)) (required : List String)
    (additional : Bool) (objectMarks : Marks) :
    let declaring := fun property : Schema =>
      Schema.object (before ++ (key, property) :: after) required additional objectMarks
    ∃ inside outside,
      (Encoder.ofSchema (declaring (defaultInside (.scalar kind marks) default)) escaping).encode
          v = .ok inside ∧
      (Encoder.ofSchema (declaring (defaultOutside (.scalar kind marks) default)) escaping).encode
          v = .ok outside ∧
      (inside = outside ↔ additional = true ∨ (v.get key).isUndefined = false) := by
  intro declaring
  refine ⟨_, _, Encoder.encode_eq_direct .., Encoder.encode_eq_direct .., ?_⟩
  rw [direct_bareObject, direct_bareObject]
  -- an object that admits more keys is left to the generic text, which knows no default
  cases additional with
  | true => exact ⟨fun _ => Or.inl rfl, fun _ => rfl⟩
  | false =>
    rw [if_neg Bool.false_ne_true, if_neg Bool.false_ne_true, directFields_append,
      directFields_append, directFields_cons, directFields_cons,
      directField_defaultInside hKind hMarks, directField_defaultOutside]
    cases hAbsent : (v.get key).isUndefined with
    -- a property that is there is written in the same way
    | false => exact ⟨fun _ => Or.inr rfl, fun _ => rfl⟩
    | true =>
      -- one that is absent makes a field on one side alone
      refine ⟨fun hEq => absurd hEq ?_, fun h => h.elim nofun nofun⟩
      exact braced_insert_ne (length_label_pos ..) _ _

/-- A null name is written as the default in either declaration. -/
theorem encode_defaultInside_null :
    let name : Scalar := .string none
    let declaring := fun property : Schema => Schema.object [("name", property)] [] false {}
    let v := Value.object [("name", .null)]
    name.takesDefault = true ∧ ({} : Marks).default = none ∧
      (Encoder.ofSchema (declaring (defaultInside (.scalar name {}) (.string "none"))) .json).encode
          v =
        (Encoder.ofSchema (declaring (defaultOutside (.scalar name {}) (.string "none")))
          .json).encode v := by
  intro name declaring v
  have hKind : name.takesDefault = true := rfl
  have hMarks : ({} : Marks).default = none := rfl
  obtain ⟨inside, outside, hInside, hOutside, hSame⟩ :=
    encode_defaultInside_iff .json v hKind hMarks (.string "none") "name" [] [] [] false {}
  have hText : inside = outside := hSame.mpr (Or.inr rfl)
  exact ⟨hKind, hMarks, hInside.trans (hText ▸ hOutside.symm)⟩

/-- An absent name is written as the default on the wrapper, and not at all if
the default is inside. -/
theorem encode_defaultInside_absent :
    let declaring := fun property : Schema => ofProperties [("name", property)]
    let v := Value.object []
    (Encoder.ofSchema (declaring (defaultInside string (.string "none"))) .json).encode v =
        .ok "\x7b\x7d" ∧
      (Encoder.ofSchema (declaring (defaultOutside string (.string "none"))) .json).encode v =
        .ok "\x7b\"name\":\"none\"\x7d" := by
  intro declaring v
  have hInside : declaring (defaultInside string (.string "none")) =
      .object [("name", defaultInside string (.string "none"))] [] false {} := rfl
  have hOutside : declaring (defaultOutside string (.string "none")) =
      .object [("name", defaultOutside string (.string "none"))] [] false {} := rfl
  have hName : string = .scalar (.string none) {} := rfl
  have hKind : (Scalar.string none).takesDefault = true := rfl
  have hMarks : ({} : Marks).default = none := rfl
  -- under the one form an absent key has no default, under the other it has one
  rw [hInside, hOutside, Encoder.encode_eq_direct, Encoder.encode_eq_direct,
    direct_bareObject, direct_bareObject, directFields_cons, directFields_cons, directFields, hName,
    directField_defaultInside hKind hMarks, directField_defaultOutside]
  exact ⟨rfl, rfl⟩

end Schema

end JsonStencil
