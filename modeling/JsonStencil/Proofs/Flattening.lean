import JsonStencil.Proofs.Joins

/-!
# Nested and flat spellings of a union

The two unions with an encoding of their own are recognised with the unions
among their members spliced in, so such a union stays one when its nested
unions are replaced by their members. What stands in place of null and
undefined is looked up elsewhere: among the members of the union itself and
among those of the node that it is peeled down to, but not inside nested
unions that stay beside other members.

So the two spellings write the same for any value but null and undefined. For
these they agree just as far as they find the same default: the flat spelling
replaces whatever the nested one replaces, and where the nested one finds no
member to replace, it writes `null`.

Main definitions:

* `Schema.flattened` — a union with its nested unions spliced in.
* `Schema.standIn` — what a node writes for null and undefined.

Main results:

* `node_of_isDateLike` — a union with a date is written as a date, however it
  is wrapped.
* `replaces_flattened` — the flat spelling misses no null or undefined member.
* `encode_flattened` — where the two spellings write the same.
-/

namespace JsonStencil.Schema

variable {s : Schema}

/-! ## Unions with a date -/

/-- The bare date is a scalar under some marks. -/
theorem scalar_of_isDate (h : s.isDate = true) : ∃ marks, s = .scalar .date marks := by
  cases s with
  | scalar kind marks =>
    cases kind with
    | date => exact ⟨marks, rfl⟩
    | _ => cases h
  | _ => cases h

/-- A date stands for itself among the members of a union. -/
theorem mem_splice_of_isDate (h : s.isDate = true) : s ∈ s.splice := by
  obtain ⟨marks, rfl⟩ := scalar_of_isDate h
  exact List.mem_singleton_self _

/-- Only a union can have a date among its members. -/
theorem union_of_isDateLike (h : s.isDateLike = true) :
    ∃ members marks, s = .union members marks := by
  cases s with
  | union members marks => exact ⟨members, marks, rfl⟩
  | _ => cases h

/-- A date that a member brings in makes the member a date or a union with a
date. -/
theorem isDate_or_isDateLike_of_mem_splice {date : Schema} (hMember : date ∈ s.splice)
    (hDate : date.isDate = true) : s.isDate = true ∨ s.isDateLike = true := by
  -- only a union brings in members that are not itself
  cases s with
  | union members marks =>
    refine Or.inr (List.any_eq_true.mpr ⟨date, ?_, hDate⟩)
    exact List.mem_flatMap.mpr ⟨date, hMember, mem_splice_of_isDate hDate⟩
  | _ => exact Or.inl (List.mem_singleton.mp hMember ▸ hDate)

/-- The node that a union with a date is peeled down to is the date, or a
union with the date. -/
theorem peel_of_isDateLike (h : s.isDateLike = true) :
    s.peel.schema.isDate = true ∨ s.peel.schema.isDateLike = true := by
  obtain ⟨members, marks, rfl⟩ := union_of_isDateLike h
  rw [peel]
  split
  · next core hCore =>
    -- null and undefined bring in no date, so the only other member does
    have hKept : ∃ date ∈ (members.flatMap splice).filter (fun member => !member.isNullish),
        date.isDate = true := by
      obtain ⟨date, hFlat, hDate⟩ := List.any_eq_true.mp h
      obtain ⟨dateMarks, rfl⟩ := scalar_of_isDate hDate
      exact ⟨_, List.mem_filter.mpr ⟨hFlat, rfl⟩, hDate⟩
    obtain ⟨date, hDate, hIs⟩ := hKept
    rw [filter_flatMap_splice, hCore, List.flatMap_singleton] at hDate
    exact isDate_or_isDateLike_of_mem_splice (List.mem_filter.mp hDate).1 hIs
  · exact Or.inr h

/-- A union with a date is written as a date, however it is wrapped. -/
theorem node_of_isDateLike (h : s.isDateLike = true) :
    s.node = .date (wideGuard s.peel.schema s s.peel.nullable s.peel.undefinable) := by
  have hCore := peel_of_isDateLike h
  have hOther : s.node = otherNode s.peel.schema s s.peel.nullable s.peel.undefinable := by
    unfold node
    -- neither form has a shape of its own, so that both come down to the last case
    rcases hCore with hDate | hDateLike
    · obtain ⟨marks, hEq⟩ := scalar_of_isDate hDate
      simp only [hEq]
    · obtain ⟨members, marks, hUnion⟩ := union_of_isDateLike hDateLike
      simp only [hUnion]
  have hDate : (s.peel.schema.isDateLike || s.peel.schema.isDate) = true := by
    rw [Bool.or_eq_true]
    exact hCore.symm
  rw [hOther, otherNode, hDate]
  rfl

/-- Such a union writes a date, or its default for what it replaces. -/
theorem direct_of_isDateLike (h : s.isDateLike = true) (escaping : Json.Escaping) (v : Value) :
    s.direct escaping v =
      if s.replaces v then defaultText s.peel.schema s else v.dateText escaping := by
  rw [direct_eq, node_of_isDateLike h, Node.direct, wideGuard, guardedText_of?]
  rfl

/-! ## Flat spellings -/

/-- A union with each union among its members replaced by the members of that
union; any other node as it is. -/
def flattened : Schema → Schema
  | .union members marks => .union (members.flatMap splice) marks
  | other => other

/-- A union with a date has it among its members once it is flattened. -/
theorem isDateLike_flattened (h : s.isDateLike = true) : s.flattened.isDateLike = true := by
  obtain ⟨members, marks, rfl⟩ := union_of_isDateLike h
  obtain ⟨date, hFlat, hDate⟩ := List.any_eq_true.mp h
  exact List.any_eq_true.mpr
    ⟨date, List.mem_flatMap.mpr ⟨date, hFlat, mem_splice_of_isDate hDate⟩, hDate⟩

/-- A string of digits is one still. -/
theorem isIntegerString_flattened (h : s.isIntegerString = true) :
    s.flattened.isIntegerString = true := by
  obtain ⟨members, marks, rfl⟩ := union_of_isIntegerString h
  obtain ⟨first, second, hMembers, hKinds⟩ := isIntegerString_iff.mp h
  refine isIntegerString_iff.mpr ⟨first, second, ?_, hKinds⟩
  rw [flattened, flatMembers, filter_flatMap_splice]
  rw [flatMembers] at hMembers
  rw [hMembers]
  exact flatMap_splice_pair hKinds

/-! ## Null and undefined members on the two levels -/

section Levels

variable {test : Schema → Bool} {members : List Schema}

/-- A null or undefined member of the union itself is one of the flat union. -/
theorem any_splice_of_own (hTest : ∀ member, test member = true → member.isNullish = true)
    (h : members.any test = true) : (members.flatMap splice).any test = true := by
  obtain ⟨member, hMember, hHolds⟩ := List.any_eq_true.mp h
  refine List.any_eq_true.mpr ⟨member, List.mem_flatMap.mpr ⟨member, hMember, ?_⟩, hHolds⟩
  rw [splice_of_isNullish (hTest member hHolds)]
  exact List.mem_singleton_self member

/-- So is every member of a nested union. -/
theorem any_splice_of_nested {core : Schema} (hCore : core ∈ members)
    (h : core.splice.any test = true) : (members.flatMap splice).any test = true := by
  obtain ⟨member, hMember, hHolds⟩ := List.any_eq_true.mp h
  exact List.any_eq_true.mpr ⟨member, List.mem_flatMap.mpr ⟨core, hCore, hMember⟩, hHolds⟩

/-- The null and undefined members of a node are among those that it stands
for. -/
theorem nullishMembers_le (s : Schema) :
    (s.nullishMembers.1 = true → s.splice.any isNull = true) ∧
      (s.nullishMembers.2 = true → s.splice.any isUndefined = true) := by
  cases s with
  | union members marks => exact ⟨id, id⟩
  | _ => exact ⟨nofun, nofun⟩

end Levels

/-- Flattening brings the null and undefined members of both levels together,
those that a node replaces among them. -/
theorem flags_le_flatMembers (members : List Schema) (marks : Marks) :
    let s := Schema.union members marks
    ((s.peel.nullable || s.peel.schema.nullishMembers.1) = true →
        s.flatMembers.any isNull = true) ∧
      ((s.peel.undefinable || s.peel.schema.nullishMembers.2) = true →
        s.flatMembers.any isUndefined = true) := by
  have hNull : members.any isNull = true → (members.flatMap splice).any isNull = true :=
    any_splice_of_own fun member h => by rw [isNullish, h]; rfl
  have hUndefined : members.any isUndefined = true →
      (members.flatMap splice).any isUndefined = true :=
    any_splice_of_own fun member h => by rw [isNullish, h, Bool.or_true]
  intro s
  rw [peel, Bool.or_eq_true, Bool.or_eq_true]
  split
  · next core hCore =>
    obtain ⟨hMember, -⟩ := mem_of_core hCore
    obtain ⟨hCoreNull, hCoreUndefined⟩ := nullishMembers_le core
    -- the members of the union itself, and those of the one that it is peeled to
    refine ⟨fun h => h.elim hNull fun hInner => ?_, fun h => h.elim hUndefined fun hInner => ?_⟩
    · exact any_splice_of_nested hMember (hCoreNull hInner)
    · exact any_splice_of_nested hMember (hCoreUndefined hInner)
  · -- a union that is not peeled has no members but its own
    exact ⟨fun h => hNull (h.resolve_left Bool.false_ne_true),
      fun h => hUndefined (h.resolve_left Bool.false_ne_true)⟩

/-- What is left of a flat union that was recognised is a date if it is one
member. -/
theorem isDate_of_core {core : Schema} (h : s.isDateLike = true ∨ s.isIntegerString = true)
    (hCore : (s.flatMembers.filter fun member => !member.isNullish) = [core]) :
    core.isDate = true := by
  rcases h with hDate | hDigits
  · obtain ⟨date, hFlat, hIs⟩ := List.any_eq_true.mp hDate
    obtain ⟨dateMarks, rfl⟩ := scalar_of_isDate hIs
    have hKept : Schema.scalar .date dateMarks ∈
        s.flatMembers.filter fun member => !member.isNullish :=
      List.mem_filter.mpr ⟨hFlat, rfl⟩
    rw [hCore] at hKept
    exact List.mem_singleton.mp hKept ▸ hIs
  · obtain ⟨first, second, hMembers, -⟩ := isIntegerString_iff.mp hDigits
    -- a string of digits has two members left, not one
    rw [hMembers] at hCore
    cases hCore

/-- The flat spelling replaces every null and undefined that either level has
among its members. -/
theorem replaces_flattened (h : s.isDateLike = true ∨ s.isIntegerString = true) (v : Value) :
    s.flattened.replaces v =
      admitsNullish (s.flatMembers.any isNull) (s.flatMembers.any isUndefined) v := by
  obtain ⟨members, marks, rfl⟩ := h.elim union_of_isDateLike union_of_isIntegerString
  rw [replaces, flattened, peel]
  split
  · next core hCore =>
    obtain ⟨dateMarks, rfl⟩ := scalar_of_isDate (isDate_of_core h hCore)
    simp only [nullishMembers, Bool.or_false]
    rfl
  · rfl

/-- It replaces whatever the nested spelling replaces. -/
theorem replaces_flattened_of_replaces (h : s.isDateLike = true ∨ s.isIntegerString = true)
    {v : Value} (hReplaces : s.replaces v = true) : s.flattened.replaces v = true := by
  obtain ⟨members, marks, rfl⟩ := h.elim union_of_isDateLike union_of_isIntegerString
  obtain ⟨hNull, hUndefined⟩ := flags_le_flatMembers members marks
  rw [replaces, admitsNullish, Bool.or_eq_true, Bool.and_eq_true, Bool.and_eq_true] at hReplaces
  rw [replaces_flattened h, admitsNullish, Bool.or_eq_true, Bool.and_eq_true, Bool.and_eq_true]
  exact hReplaces.imp (And.imp_left hNull) (And.imp_left hUndefined)

/-! ## What the two spellings write -/

/-- What a node with an encoding of its own writes for null and undefined: its
default where it has them among its members, and `null` otherwise. -/
def standIn (s : Schema) (v : Value) : String :=
  if s.replaces v then defaultText s.peel.schema s else "null"

/-- Both spellings write a value in the same way unless they replace it. -/
theorem direct_and_flattened (h : s.isDateLike = true ∨ s.isIntegerString = true)
    (escaping : Json.Escaping) :
    ∃ body : Value → String, body .null = "null" ∧ body .undefined = "null" ∧ ∀ v : Value,
      s.direct escaping v = (if s.replaces v then defaultText s.peel.schema s else body v) ∧
      s.flattened.direct escaping v =
        (if s.flattened.replaces v then defaultText s.flattened.peel.schema s.flattened
          else body v) := by
  rcases h with hDate | hDigits
  · exact ⟨Value.dateText escaping, rfl, rfl, fun v => ⟨direct_of_isDateLike hDate escaping v,
      direct_of_isDateLike (isDateLike_flattened hDate) escaping v⟩⟩
  · exact ⟨Value.rawText escaping, rfl, rfl, fun v => ⟨direct_of_isIntegerString hDigits,
      direct_of_isIntegerString (isIntegerString_flattened hDigits)⟩⟩

/-- **Nested and flat spellings.** A union with a date and a string of digits
write every value as they do with their nested unions spliced in, unless the
value is a null or undefined among the members on either level. For such a
value the two agree exactly when what stands in for it in the nested spelling
is the default of the flat one. -/
theorem encode_flattened (h : s.isDateLike = true ∨ s.isIntegerString = true)
    (escaping : Json.Escaping) (v : Value) :
    ∃ nested flat, (Encoder.ofSchema s escaping).encode v = .ok nested ∧
      (Encoder.ofSchema s.flattened escaping).encode v = .ok flat ∧
      (nested = flat ↔
        (admitsNullish (s.flatMembers.any isNull) (s.flatMembers.any isUndefined) v = true →
          s.standIn v = defaultText s.flattened.peel.schema s.flattened)) := by
  refine ⟨_, _, Encoder.encode_eq_direct s escaping v,
    Encoder.encode_eq_direct s.flattened escaping v, ?_⟩
  obtain ⟨body, hNull, hUndefined, hDirect⟩ := direct_and_flattened h escaping
  obtain ⟨hNested, hFlat⟩ := hDirect v
  rw [← replaces_flattened h, hNested, hFlat, standIn]
  cases hReplaced : s.flattened.replaces v with
  | false =>
    -- the nested spelling replaces the value no more than the flat one
    have hKept : s.replaces v = false := by
      cases hOwn : s.replaces v with
      | false => rfl
      | true => rw [← hReplaced, replaces_flattened_of_replaces h hOwn]
    simp only [hKept, Bool.false_eq_true, if_false, false_implies]
  | true =>
    -- what is replaced is null or undefined, and both are written as null
    have hBody : body v = "null" := by
      rw [replaces_flattened h] at hReplaced
      rcases nullish_of_admitsNullish hReplaced with rfl | rfl
      · exact hNull
      · exact hUndefined
    simp only [hBody, if_true, true_implies]

/-- An instant or null with a default is peeled down to the nested union, so
the default stands in for null in either spelling. -/
theorem encode_flattened_dateLike :
    let s := (unionOf [dateLike, ofScalar .null]).withDefault (.number (.integer 7))
    s.isDateLike = true ∧
      (Encoder.ofSchema s .json).encode .null =
        (Encoder.ofSchema s.flattened .json).encode .null := by
  intro s
  have hDate : s.isDateLike = true := by decide
  obtain ⟨nested, flat, hNested, hFlat, hSame⟩ :=
    encode_flattened (s := s) (Or.inl hDate) .json .null
  have hText : nested = flat := hSame.mpr fun _ => by decide
  exact ⟨hDate, by rw [hNested, hFlat, hText]⟩

/-- A string of digits or null, nested beside a number, is one string of digits
with a default; null is written as `null` all the same. The flat spelling
writes the default. -/
theorem encode_nested_drops_default :
    let digits := string.withFormat "integer"
    let s := (unionOf [digits.nullable, number]).withDefault (.number (.integer 7))
    s.isIntegerString = true ∧ digits.nullable.default = none ∧
      s.flattened =
        (unionOf [digits, ofScalar .null, number]).withDefault (.number (.integer 7)) ∧
      (Encoder.ofSchema s .json).encode .null = .ok "null" ∧
      (Encoder.ofSchema s.flattened .json).encode .null = .ok "7" := by
  intro digits s
  -- null is found in the inner union by recognition, but not by the guard
  have hDigits : s.isIntegerString = true := by decide
  refine ⟨hDigits, rfl, rfl, ?_, ?_⟩
  · rw [Encoder.encode_eq_direct, direct_of_isIntegerString hDigits, Except.ok.injEq]
    decide
  · rw [Encoder.encode_eq_direct, direct_of_isIntegerString (isIntegerString_flattened hDigits),
      Except.ok.injEq]
    decide

end JsonStencil.Schema
