import JsonStencil.Proofs.SpecialUnions

/-!
# Variants of a schema

A schema can be written down in many ways that compiling does not tell apart.
The members of a union may stand in any order, and null and undefined may be
listed more than once, for a union is only ever asked whether it has some
member, or what it has besides null and undefined. The list of required keys
is never looked at, the optional marker counts on properties alone, and of a
default nothing but its text is written.

Two schemas of one form are variants of each other if they differ in the
unions in this way, at any depth, and in the marks and required keys of their
nodes as far as a given leeway allows. Everything that compiling asks of a
node respects it: peeling, merging, the unions with an encoding of their own,
and in the end the shape of the node.

Main definitions:

* `Leeway` — what two schemas may differ in besides the order of members.
* `Schema.Rearranged` — members in another order, null and undefined repeated.
* `Schema.Variant` — schemas that differ in nothing else.
* `Node.Variant` — the same shape with variants as parts.

Main results:

* `Variant.peel` / `Variant.merge` — the normal forms of variants are variants.
* `Variant.isDateLike` / `Variant.isIntegerString` — the unions with an
  encoding of their own are recognised in any order.
* `Variant.node` — variants have the same shape.
-/

namespace JsonStencil

/-! ## The relation -/

/-- Marks with the same text for a default. -/
def Marks.Alike (a b : Marks) : Prop := a.default.map Json.text = b.default.map Json.text

/-- What two schemas may differ in, node by node. -/
structure Leeway where
  marks : Marks → Marks → Prop
  required : List String → List String → Prop

namespace Leeway

/-- No difference but in the order of members. -/
def none : Leeway := ⟨(· = ·), (· = ·)⟩

/-- All that compiling does not look at. -/
def unseen : Leeway := ⟨Marks.Alike, fun _ _ => True⟩

/-- A leeway that compiling does not notice, and that joining lists of
required keys respects. -/
structure Unnoticed (L : Leeway) : Prop where
  texts : ∀ {a b : Marks}, L.marks a b → a.Alike b
  nil : L.required [] []
  append : ∀ {first second others more : List String}, L.required first second →
    L.required others more → L.required (first ++ others) (second ++ more)

theorem unnoticed_none : none.Unnoticed where
  texts := fun h => h ▸ rfl
  nil := rfl
  append := fun h hMore => h ▸ hMore ▸ rfl

/-- What compiling does not look at it does not notice. -/
theorem unnoticed_unseen : unseen.Unnoticed where
  texts := fun h => h
  nil := trivial
  append := fun _ _ => trivial

end Leeway

namespace Schema

/-- The same members in any order, with some of those that admit null alone
or undefined alone listed again. -/
def Rearranged (members others : List Schema) : Prop :=
  ∃ repeats, (∀ member ∈ repeats, member ∈ members ∧ member.isNullish = true) ∧
    others.Perm (repeats ++ members)

mutual

/-- Schemas of one form with the same kinds, the same keys in the same order
and the same properties optional, up to the order of the members of unions
and the leeway. -/
inductive Variant (L : Leeway) : Schema → Schema → Prop where
  | scalar (kind : Scalar) {a b : Marks} (marks : L.marks a b) :
    Variant L (.scalar kind a) (.scalar kind b)
  | object {properties others : List (String × Schema)} {required wanted : List String}
      (additional : Bool) {a b : Marks} (parts : VariantProperties L properties others)
      (keys : L.required required wanted) (marks : L.marks a b) :
    Variant L (.object properties required additional a) (.object others wanted additional b)
  | array {items others : Schema} {a b : Marks} (parts : Variant L items others)
      (marks : L.marks a b) : Variant L (.array items a) (.array others b)
  /-- Variants of the members, and then another order. -/
  | union {members between others : List Schema} {a b : Marks}
      (parts : VariantMembers L members between) (order : Rearranged between others)
      (marks : L.marks a b) : Variant L (.union members a) (.union others b)
  | intersection {members others : List Schema} {a b : Marks}
      (parts : VariantMembers L members others) (marks : L.marks a b) :
    Variant L (.intersection members a) (.intersection others b)

/-- Member by member. -/
inductive VariantMembers (L : Leeway) : List Schema → List Schema → Prop where
  | nil : VariantMembers L [] []
  | cons {s t : Schema} {members others : List Schema} (first : Variant L s t)
      (rest : VariantMembers L members others) : VariantMembers L (s :: members) (t :: others)

/-- Property by property, under the same key and under the same marker. -/
inductive VariantProperties (L : Leeway) :
    List (String × Schema) → List (String × Schema) → Prop where
  | nil : VariantProperties L [] []
  | cons (key : String) {s t : Schema} {properties others : List (String × Schema)}
      (optional : s.optional = t.optional) (first : Variant L s t)
      (rest : VariantProperties L properties others) :
    VariantProperties L ((key, s) :: properties) ((key, t) :: others)

end

variable {L : Leeway} {s t : Schema} {members others : List Schema}

/-- The marks differ as far as the leeway allows. -/
theorem Variant.marks (h : s.Variant L t) : L.marks s.marks t.marks := by
  cases h with
  | scalar _ hMarks => exact hMarks
  | object _ _ _ hMarks => exact hMarks
  | array _ hMarks => exact hMarks
  | union _ _ hMarks => exact hMarks
  | intersection _ hMarks => exact hMarks

/-! ## Another order -/

namespace Rearranged

theorem ofPerm (h : members.Perm others) : Rearranged members others :=
  ⟨[], fun _ hMember => absurd hMember List.not_mem_nil, h.symm⟩

theorem refl (members : List Schema) : Rearranged members members := .ofPerm (.refl members)

/-- A null or undefined member that there is may be listed once more. -/
theorem again (h : Rearranged members others) {member : Schema} (hMember : member ∈ members)
    (hNullish : member.isNullish = true) : Rearranged members (member :: others) := by
  obtain ⟨repeats, hRepeats, hPerm⟩ := h
  exact ⟨member :: repeats, List.forall_mem_cons.mpr ⟨⟨hMember, hNullish⟩, hRepeats⟩,
    hPerm.cons member⟩

/-- No member is added and none is left out. -/
theorem mem_iff (h : Rearranged members others) (member : Schema) :
    member ∈ others ↔ member ∈ members := by
  obtain ⟨repeats, hRepeats, hPerm⟩ := h
  rw [hPerm.mem_iff, List.mem_append]
  exact ⟨fun hMember => hMember.elim (fun hAgain => (hRepeats member hAgain).1) id, Or.inr⟩

/-- What is repeated first may be repeated again. -/
theorem trans {more : List Schema} (h : Rearranged members others)
    (hMore : Rearranged others more) : Rearranged members more := by
  obtain ⟨again, hAgain, hPermMore⟩ := hMore
  have hMem := h.mem_iff
  obtain ⟨repeats, hRepeats, hPerm⟩ := h
  refine ⟨again ++ repeats, fun member hMember => ?_, ?_⟩
  · rcases List.mem_append.mp hMember with hNew | hOld
    · exact ⟨(hMem member).mp (hAgain member hNew).1, (hAgain member hNew).2⟩
    · exact hRepeats member hOld
  · -- what is repeated last stands in front
    rw [List.append_assoc]
    exact hPermMore.trans (hPerm.append_left again)

/-- Two lists of members may be rearranged side by side. -/
theorem append {more others' : List Schema} (h : Rearranged members others)
    (hMore : Rearranged more others') : Rearranged (members ++ more) (others ++ others') := by
  obtain ⟨repeats, hRepeats, hPerm⟩ := h
  obtain ⟨again, hAgain, hPermMore⟩ := hMore
  -- the repeated members of both lists are put in front of all the others
  refine ⟨repeats ++ again, fun member hMember => ?_, (hPerm.append hPermMore).trans ?_⟩
  · rcases List.mem_append.mp hMember with hOld | hNew
    · exact ⟨List.mem_append_left _ (hRepeats member hOld).1, (hRepeats member hOld).2⟩
    · exact ⟨List.mem_append_right _ (hAgain member hNew).1, (hAgain member hNew).2⟩
  · rw [List.append_assoc, List.append_assoc]
    exact (List.perm_append_comm_assoc members again more).append_left repeats

/-- Rearranged members agree on whether some member is of a kind. -/
theorem any (h : Rearranged members others) (p : Schema → Bool) :
    members.any p = others.any p := by
  rw [Bool.eq_iff_iff, List.any_eq_true, List.any_eq_true]
  exact exists_congr fun member => and_congr_left fun _ => (h.mem_iff member).symm

/-- What is repeated is not among the members that admit more than null and
undefined. -/
theorem filter_not_isNullish (h : Rearranged members others) :
    (members.filter fun member => !member.isNullish).Perm
      (others.filter fun member => !member.isNullish) := by
  obtain ⟨repeats, hRepeats, hPerm⟩ := h
  have hNone : (repeats.filter fun member => !member.isNullish) = [] := by
    refine List.filter_eq_nil_iff.mpr fun member hMember => ?_
    rw [(hRepeats member hMember).2]
    exact Bool.false_ne_true
  have hKept := hPerm.filter fun member => !member.isNullish
  rw [List.filter_append, hNone, List.nil_append] at hKept
  exact hKept.symm

/-- Members that admit null alone or undefined alone stand for themselves when
unions are spliced in. -/
theorem flatMap_splice (h : Rearranged members others) :
    Rearranged (members.flatMap splice) (others.flatMap splice) := by
  obtain ⟨repeats, hRepeats, hPerm⟩ := h
  -- what is repeated is no union
  have hAlone : ∀ member ∈ repeats, member.splice = [member] :=
    fun member hMember => splice_of_isNullish (hRepeats member hMember).2
  have hSame : repeats.flatMap splice = repeats := by
    rw [List.flatMap_def, List.map_congr_left hAlone, ← List.flatMap_def]
    exact List.flatMap_singleton' repeats
  refine ⟨repeats, fun member hMember => ⟨?_, (hRepeats member hMember).2⟩, ?_⟩
  · refine List.mem_flatMap.mpr ⟨member, (hRepeats member hMember).1, ?_⟩
    rw [hAlone member hMember]
    exact List.mem_singleton_self member
  · have hSpliced := hPerm.flatMap_right splice
    rw [List.flatMap_append, hSame] at hSpliced
    exact hSpliced

end Rearranged

/-! ## What is asked of one node -/

/-- Null has no variant but null. -/
theorem Variant.isNull (h : s.Variant L t) : s.isNull = t.isNull := by
  cases h with
  | scalar kind _ => cases kind <;> rfl
  | _ => rfl

/-- Undefined has no variant but undefined. -/
theorem Variant.isUndefined (h : s.Variant L t) : s.isUndefined = t.isUndefined := by
  cases h with
  | scalar kind _ => cases kind <;> rfl
  | _ => rfl

/-- Instants have no variants but instants. -/
theorem Variant.isDate (h : s.Variant L t) : s.isDate = t.isDate := by
  cases h with
  | scalar kind _ => cases kind <;> rfl
  | _ => rfl

/-- Numbers have no variants but numbers. -/
theorem Variant.isNumber (h : s.Variant L t) : s.isNumber = t.isNumber := by
  cases h with
  | scalar kind _ => cases kind <;> rfl
  | _ => rfl

/-- Variants have the same format. -/
theorem Variant.isIntegerFormat (h : s.Variant L t) : s.isIntegerFormat = t.isIntegerFormat := by
  cases h with
  | scalar kind _ =>
    cases kind with
    | string format => cases format <;> rfl
    | _ => rfl
  | _ => rfl

/-- Whether a member is kept by peeling is the same for variants. -/
theorem Variant.isNullish (h : s.Variant L t) : s.isNullish = t.isNullish := by
  rw [Schema.isNullish, Schema.isNullish, h.isNull, h.isUndefined]

/-! ## What is asked of members -/

/-- Lists of variants side by side. -/
theorem VariantMembers.append {more others' : List Schema} (h : VariantMembers L members others)
    (hMore : VariantMembers L more others') :
    VariantMembers L (members ++ more) (others ++ others') := by
  induction members generalizing others with
  | nil => cases h; exact hMore
  | cons member rest ih =>
    cases h with
    | cons hFirst hRest => exact .cons hFirst (ih hRest)

/-- There are as many members. -/
theorem VariantMembers.length_eq (h : VariantMembers L members others) :
    members.length = others.length := by
  induction members generalizing others with
  | nil => cases h; rfl
  | cons member rest ih =>
    cases h with
    | cons _ hRest => rw [List.length_cons, List.length_cons, ih hRest]

section Members

variable {p : Schema → Bool} (hp : ∀ {s t : Schema}, s.Variant L t → p s = p t)

include hp

/-- Variants agree on what a question that respects them asks of some member. -/
theorem VariantMembers.any (h : VariantMembers L members others) :
    members.any p = others.any p := by
  induction members generalizing others with
  | nil => cases h; rfl
  | cons member rest ih =>
    cases h with
    | cons hFirst hRest => rw [List.any_cons, List.any_cons, hp hFirst, ih hRest]

/-- The members that are kept are variants, too. -/
theorem VariantMembers.filter (h : VariantMembers L members others) :
    VariantMembers L (members.filter p) (others.filter p) := by
  induction members generalizing others with
  | nil => cases h; exact .nil
  | cons member rest ih =>
    cases h with
    | cons hFirst hRest =>
      rw [List.filter_cons, List.filter_cons, hp hFirst]
      split
      · exact .cons hFirst (ih hRest)
      · exact ih hRest

end Members

/-- The members of two unions that are variants. -/
def Shuffled (L : Leeway) (members others : List Schema) : Prop :=
  ∃ between, VariantMembers L members between ∧ Rearranged between others

namespace Shuffled

/-- Members of two unions each may be shuffled side by side. -/
theorem append {more others' : List Schema} (h : Shuffled L members others)
    (hMore : Shuffled L more others') : Shuffled L (members ++ more) (others ++ others') := by
  obtain ⟨between, hParts, hOrder⟩ := h
  obtain ⟨later, hLaterParts, hLaterOrder⟩ := hMore
  exact ⟨between ++ later, hParts.append hLaterParts, hOrder.append hLaterOrder⟩

/-- Shuffled members agree on whether some member is of a kind. -/
theorem any (h : Shuffled L members others) {p : Schema → Bool}
    (hp : ∀ {s t : Schema}, s.Variant L t → p s = p t) : members.any p = others.any p := by
  obtain ⟨between, hParts, hOrder⟩ := h
  rw [hParts.any hp, hOrder.any p]

/-- The members that admit more than null and undefined are the same but for
their order. -/
theorem filter_not_isNullish (h : Shuffled L members others) :
    ∃ between, VariantMembers L (members.filter fun member => !member.isNullish) between ∧
      between.Perm (others.filter fun member => !member.isNullish) := by
  obtain ⟨between, hParts, hOrder⟩ := h
  exact ⟨_, hParts.filter fun h => by rw [h.isNullish], hOrder.filter_not_isNullish⟩

end Shuffled

mutual

/-- Whether a node is an object in the end is the same for variants. -/
theorem Variant.isObjectTyped : ∀ {s t : Schema}, s.Variant L t →
    s.isObjectTyped = t.isObjectTyped
  | .scalar _ _, _, h => by cases h; rfl
  | .object _ _ _ _, _, h => by cases h; rfl
  | .array _ _, _, h => by cases h; rfl
  | .union _ _, _, h => by cases h; rfl
  | .intersection members _, _, h => by
    cases h with
    | intersection hMembers _ =>
      rw [Schema.isObjectTyped, Schema.isObjectTyped]
      exact hMembers.anyObjectTyped

/-- Whether an intersection is merged is the same for variants. -/
theorem VariantMembers.anyObjectTyped : ∀ {members others : List Schema},
    VariantMembers L members others →
      Schema.anyObjectTyped members = Schema.anyObjectTyped others
  | [], _, h => by cases h; rfl
  | member :: rest, _, h => by
    cases h with
    | cons hFirst hRest =>
      rw [Schema.anyObjectTyped, Schema.anyObjectTyped, hFirst.isObjectTyped,
        hRest.anyObjectTyped]

end

/-! ## Peeling and the unions -/

/-- Peeling takes variants from variants, and the same two flags. -/
theorem Variant.peel (h : s.Variant L t) :
    s.peel.schema.Variant L t.peel.schema ∧ s.peel.nullable = t.peel.nullable ∧
      s.peel.undefinable = t.peel.undefinable := by
  have hSelf := h
  cases h with
  | @union members between others _ _ hParts hOrder hMarks =>
    have hShuffled : Shuffled L members others := ⟨between, hParts, hOrder⟩
    have hNull := hShuffled.any Variant.isNull
    have hUndefined := hShuffled.any Variant.isUndefined
    obtain ⟨cores, hCores, hPerm⟩ := hShuffled.filter_not_isNullish
    rw [Schema.peel, Schema.peel]
    generalize (members.filter fun member => !member.isNullish) = left at hCores
    generalize (others.filter fun member => !member.isNullish) = right at hPerm
    -- a union is peeled if one member is left over, and one is left on both sides or on none
    cases hCores with
    | nil =>
      obtain rfl := hPerm.nil_eq
      exact ⟨hSelf, rfl, rfl⟩
    | cons hFirst hRest =>
      cases hRest with
      | nil =>
        obtain rfl := hPerm.singleton_eq
        exact ⟨hFirst, hNull, hUndefined⟩
      | cons _ _ =>
        have hCount := hPerm.length_eq
        cases right with
        | nil => exact absurd hCount (Nat.succ_ne_zero _)
        | cons one more =>
          cases more with
          | nil => exact absurd (Nat.succ.inj hCount) (Nat.succ_ne_zero _)
          | cons another rest => exact ⟨hSelf, rfl, rfl⟩
  | _ => exact ⟨hSelf, rfl, rfl⟩

/-- A union knows the same of null and undefined in any order. -/
theorem Variant.nullishMembers (h : s.Variant L t) : s.nullishMembers = t.nullishMembers := by
  cases h with
  | @union members between others _ _ hParts hOrder _ =>
    have hShuffled : Shuffled L members others := ⟨between, hParts, hOrder⟩
    rw [Schema.nullishMembers, Schema.nullishMembers, hShuffled.any Variant.isNull,
      hShuffled.any Variant.isUndefined]
  | _ => rfl

/-- Variants have shuffled members to splice in, themselves if they are no
unions. -/
theorem Variant.splice (h : s.Variant L t) : Shuffled L s.splice t.splice := by
  have hSelf := h
  -- only a union is replaced by its members
  cases h with
  | @union _ between _ _ _ hParts hOrder _ => exact ⟨between, hParts, hOrder⟩
  | _ => exact ⟨_, .cons hSelf .nil, .refl _⟩

/-- Splicing unions in shuffles the members. -/
theorem VariantMembers.flatMap_splice (h : VariantMembers L members others) :
    Shuffled L (members.flatMap Schema.splice) (others.flatMap Schema.splice) := by
  induction members generalizing others with
  | nil => cases h; exact ⟨[], .nil, .refl _⟩
  | cons member rest ih =>
    cases h with
    | cons hFirst hRest =>
      rw [List.flatMap_cons, List.flatMap_cons]
      exact hFirst.splice.append (ih hRest)

/-- Splicing nested unions in leaves members that are variants but for their
order. -/
theorem Variant.flatMembers (h : s.Variant L t) : Shuffled L s.flatMembers t.flatMembers := by
  cases h with
  | union hParts hOrder _ =>
    obtain ⟨between, hSpliced, hInner⟩ := hParts.flatMap_splice
    exact ⟨between, hSpliced, hInner.trans hOrder.flatMap_splice⟩
  | _ => exact ⟨[], .nil, .refl _⟩

/-- A union with an instant is known in any order. -/
theorem Variant.isDateLike (h : s.Variant L t) : s.isDateLike = t.isDateLike :=
  h.flatMembers.any Variant.isDate

/-- A string of digits is known by its members, not by their order. -/
theorem Variant.isIntegerString (h : s.Variant L t) :
    s.isIntegerString = t.isIntegerString := by
  -- three questions of the members that are kept, and each is answered alike in any order
  obtain ⟨between, hKept, hPerm⟩ := h.flatMembers.filter_not_isNullish
  rw [isIntegerString_eq, isIntegerString_eq, hKept.length_eq, hKept.any Variant.isIntegerFormat,
    hKept.any Variant.isNumber, hPerm.length_eq, hPerm.any_eq, hPerm.any_eq]

/-! ## Merging -/

/-- What is gathered of variants. -/
structure Gathered.Variant (L : Leeway) (g h : Gathered) : Prop where
  properties : VariantProperties L g.properties h.properties
  required : L.required g.required h.required
  additional : g.additional = h.additional

/-- A property goes to the same place among variants. -/
theorem VariantProperties.put {properties others : List (String × Schema)}
    (h : VariantProperties L properties others) (key : String)
    (hOptional : s.optional = t.optional) (hFirst : s.Variant L t) :
    VariantProperties L (Fields.put key s properties) (Fields.put key t others) := by
  induction properties generalizing others with
  | nil => cases h; exact .cons key hOptional hFirst .nil
  | cons entry rest ih =>
    cases h with
    | cons name hMarker hEntry hRest =>
      rw [Fields.put, Fields.put]
      -- the key is met at the same place, for the keys are the same
      split
      · exact .cons key hOptional hFirst hRest
      · exact .cons name hMarker hEntry (ih hRest)

/-- Properties go to the same places among variants. -/
theorem VariantProperties.putAll {pairs others : List (String × Schema)}
    (h : VariantProperties L pairs others) {fields settled : List (String × Schema)}
    (hFields : VariantProperties L fields settled) :
    VariantProperties L (Fields.putAll fields pairs) (Fields.putAll settled others) := by
  induction pairs generalizing others fields settled with
  | nil => cases h; exact hFields
  | cons pair rest ih =>
    cases h with
    | cons key hOptional hFirst hRest => exact ih hRest (hFields.put key hOptional hFirst)

/-- Merging leaves the optional marker where it is. -/
theorem optional_merge (s : Schema) : s.merge.optional = s.optional := by
  cases s with
  | intersection members marks =>
    rw [merge]
    split <;> rfl
  | _ =>
    rw [merge]
    intro members marks hEq
    cases hEq

theorem Gathered.Variant.empty (hL : L.Unnoticed) : Gathered.Variant L {} {} :=
  ⟨.nil, hL.nil, rfl⟩

/-- Gathering variants from variants leaves variants. -/
theorem Gathered.Variant.absorb (hL : L.Unnoticed) {g g' : Gathered} (hGathered : g.Variant L g')
    (h : s.Variant L t) : (g.absorb s).Variant L (g'.absorb t) := by
  -- only objects have anything to gather
  cases h with
  | object additional hProperties hKeys _ =>
    refine ⟨hProperties.putAll hGathered.properties, hL.append hGathered.required hKeys, ?_⟩
    rw [Gathered.absorb, Gathered.absorb, hGathered.additional]
  | _ => exact hGathered

/-- Objects made of what is gathered are variants. -/
theorem Gathered.Variant.object {g g' : Gathered} (h : g.Variant L g') {a b : Marks}
    (hMarks : L.marks a b) :
    Schema.Variant L (.object g.properties g.required g.additional a)
      (.object g'.properties g'.required g'.additional b) := by
  rw [h.additional]
  exact .object _ h.properties h.required hMarks

mutual

/-- Variants are merged to variants. -/
theorem Variant.merge (hL : L.Unnoticed) : ∀ {s t : Schema}, s.Variant L t →
    s.merge.Variant L t.merge
  | .scalar _ _, _, h => by cases h with | scalar _ hMarks => exact .scalar _ hMarks
  | .object _ _ _ _, _, h => by
    cases h with
    | object _ hProperties hKeys hMarks => exact .object _ hProperties hKeys hMarks
  | .array _ _, _, h => by cases h with | array hItems hMarks => exact .array hItems hMarks
  | .union _ _, _, h => by
    cases h with
    | union hParts hOrder hMarks => exact .union hParts hOrder hMarks
  | .intersection members _, _, h => by
    cases h with
    | intersection hMembers hMarks =>
      have hGathered := hMembers.mergeMembers hL (.empty hL)
      -- merged on both sides, or on neither
      rw [Schema.merge, Schema.merge, hMembers.anyObjectTyped]
      split
      · exact hGathered.object hMarks
      · exact .intersection hMembers hMarks

/-- Members are merged to variants, down to their properties. -/
theorem Variant.mergeMember (hL : L.Unnoticed) : ∀ {s t : Schema}, s.Variant L t →
    (Schema.mergeMember s).Variant L (Schema.mergeMember t)
  | .scalar _ _, _, h => by cases h with | scalar _ hMarks => exact .scalar _ hMarks
  | .object _ _ _ _, _, h => by
    cases h with
    | object _ hProperties hKeys hMarks =>
      rw [Schema.mergeMember, Schema.mergeMember]
      -- unlike a node that is merged, a member is merged in its properties, too
      exact .object _ (hProperties.mergeProperties hL) hKeys hMarks
  | .array _ _, _, h => by cases h with | array hItems hMarks => exact .array hItems hMarks
  | .union _ _, _, h => by
    cases h with
    | union hParts hOrder hMarks => exact .union hParts hOrder hMarks
  | .intersection members _, _, h => by
    cases h with
    | intersection hMembers hMarks =>
      have hGathered := hMembers.mergeMembers hL (.empty hL)
      rw [Schema.mergeMember, Schema.mergeMember, hMembers.anyObjectTyped]
      split
      · exact hGathered.object hMarks
      · exact .intersection hMembers hMarks

/-- What is gathered of variants are variants. -/
theorem VariantMembers.mergeMembers (hL : L.Unnoticed) : ∀ {members others : List Schema},
    VariantMembers L members others → ∀ {g g' : Gathered}, g.Variant L g' →
      (Schema.mergeMembers members g).Variant L (Schema.mergeMembers others g')
  | [], _, h, _, _, hGathered => by cases h; exact hGathered
  | member :: rest, _, h, _, _, hGathered => by
    cases h with
    | cons hFirst hRest =>
      rw [Schema.mergeMembers, Schema.mergeMembers]
      exact hRest.mergeMembers hL (hGathered.absorb hL (hFirst.mergeMember hL))

/-- Merging goes into the properties of variants alike. -/
theorem VariantProperties.mergeProperties (hL : L.Unnoticed) :
    ∀ {properties others : List (String × Schema)}, VariantProperties L properties others →
      VariantProperties L (Schema.mergeProperties properties) (Schema.mergeProperties others)
  | [], _, h => by cases h; exact .nil
  | (_, property) :: rest, _, h => by
    cases h with
    | cons _ hOptional hFirst hRest =>
      rw [Schema.mergeProperties, Schema.mergeProperties]
      refine .cons _ ?_ (hFirst.merge hL) (hRest.mergeProperties hL)
      rw [optional_merge, optional_merge, hOptional]

end

/-! ## Shapes -/

/-- What a guard writes is the text of a default, if there is one. -/
theorem defaultText_eq_getD (effective declared : Schema) :
    defaultText effective declared =
      ((effective.default.map Json.text).or (declared.default.map Json.text)).getD "null" := by
  unfold defaultText
  cases effective.default <;> cases declared.default <;> rfl

/-- Guards of variants write the same text. -/
theorem Variant.defaultText_eq (hL : L.Unnoticed) {effective effective' : Schema}
    (h : effective.Variant L effective') (hDeclared : s.Variant L t) :
    defaultText effective s = defaultText effective' t := by
  have hFirst : effective.default.map Json.text = effective'.default.map Json.text :=
    hL.texts h.marks
  have hSecond : s.default.map Json.text = t.default.map Json.text := hL.texts hDeclared.marks
  rw [defaultText_eq_getD, defaultText_eq_getD, hFirst, hSecond]

end Schema

/-- The same shape with variants as parts. -/
inductive Node.Variant (L : Leeway) : Node → Node → Prop where
  | silent : Node.Variant L .silent .silent
  | leaf {n : Node} (h : n.isLeaf = true) : Node.Variant L n n
  | object {properties others : List (String × Schema)} (guard : Option Guard)
      (parts : Schema.VariantProperties L properties others) :
    Node.Variant L (.object properties guard) (.object others guard)
  | loop {items others : Schema} (guard : Option Guard) (parts : items.Variant L others) :
    Node.Variant L (.loop items guard) (.loop others guard)

namespace Schema

variable {L : Leeway} {s t : Schema}

/-- Items of variants are joined by the same writer, or by none. -/
theorem Variant.itemWriter? (h : s.Variant L t) : s.itemWriter? = t.itemWriter? := by
  -- a scalar is known by its kind, and everything else by its members
  have hDigits := h.isIntegerString
  cases h with
  | scalar kind _ => cases kind <;> rfl
  | _ =>
    unfold Schema.itemWriter?
    dsimp only
    rw [hDigits]

/-- Arrays of variants are written in the same way. -/
theorem Variant.arrayNode (h : s.Variant L t) (guard : Option Guard) :
    (s.arrayNode guard).Variant L (t.arrayNode guard) := by
  unfold Schema.arrayNode
  rw [h.itemWriter?]
  split
  · exact .leaf rfl
  · exact .loop guard h

section Shapes

variable (hL : L.Unnoticed)

include hL

/-- Objects that are variants are written field by field alike, or both by their
generic text. -/
theorem Variant.objectNode (h : s.Variant L t) (guard : Option Guard) :
    (s.objectNode guard).Variant L (t.objectNode guard) := by
  have hMerged := h.merge hL
  unfold Schema.objectNode
  -- the merged forms are variants, and only a closed object has fields
  generalize s.merge = merged at hMerged
  generalize t.merge = merged' at hMerged
  cases hMerged with
  | object additional hProperties _ _ =>
    cases additional with
    | true => exact .leaf rfl
    | false => exact .object guard hProperties
  | _ => exact .leaf rfl

/-- What is left is written alike: it is asked for its members and for the text
of its default. -/
theorem Variant.otherNode {effective effective' : Schema} (h : effective.Variant L effective')
    (hDeclared : s.Variant L t) (null undefined : Bool) :
    (Schema.otherNode effective s null undefined).Variant L
      (Schema.otherNode effective' t null undefined) := by
  have hGuard : wideGuard effective s null undefined = wideGuard effective' t null undefined := by
    rw [wideGuard, wideGuard, h.nullishMembers, h.defaultText_eq hL hDeclared]
  rw [Schema.otherNode, Schema.otherNode, hGuard, h.isDateLike, h.isDate, h.isIntegerString]
  split
  · exact .leaf rfl
  · split <;> exact .leaf rfl

/-- Variants have the same shape. -/
theorem Variant.node (h : s.Variant L t) : s.node.Variant L t.node := by
  obtain ⟨hCore, hNull, hUndefined⟩ := h.peel
  have hText := hCore.defaultText_eq hL h
  have hObject := hCore.objectNode hL (Guard.of? t.peel.nullable t.peel.undefinable "null")
  have hOther := hCore.otherNode hL h t.peel.nullable t.peel.undefinable
  unfold Schema.node
  rw [hNull, hUndefined, hText]
  -- behind the two flags the shape is chosen by the core
  generalize s.peel.schema = core at hCore hObject hOther
  generalize t.peel.schema = core' at hCore hObject hOther
  cases hCore with
  | scalar kind _ =>
    cases kind with
    | date | other _ => exact hOther
    | undefined => exact .silent
    | _ => exact .leaf rfl
  | object _ _ _ _ => exact hObject
  | array hItems _ => exact hItems.arrayNode _
  | union _ _ _ => exact hOther
  | intersection hMembers _ =>
    dsimp only
    rw [hMembers.anyObjectTyped]
    split
    · exact hObject
    · exact hOther

end Shapes

/-! ## No difference at all -/

mutual

/-- Every schema is a variant of itself. -/
theorem Variant.refl : ∀ s : Schema, s.Variant .none s
  | .scalar kind _ => .scalar kind rfl
  | .object properties _ additional _ =>
    .object additional (VariantProperties.refl properties) rfl rfl
  | .array items _ => .array (Variant.refl items) rfl
  | .union members _ => .union (VariantMembers.refl members) (.refl members) rfl
  | .intersection members _ => .intersection (VariantMembers.refl members) rfl

theorem VariantMembers.refl : ∀ members : List Schema, VariantMembers .none members members
  | [] => .nil
  | member :: rest => .cons (Variant.refl member) (VariantMembers.refl rest)

theorem VariantProperties.refl :
    ∀ properties : List (String × Schema), VariantProperties .none properties properties
  | [] => .nil
  | (key, property) :: rest => .cons key rfl (Variant.refl property) (VariantProperties.refl rest)

end

end Schema

/-- Every shape is a variant of itself. -/
theorem Node.Variant.refl (n : Node) : n.Variant .none n := by
  cases n with
  | silent => exact .silent
  | object properties guard => exact .object guard (.refl properties)
  | loop items guard => exact .loop guard (.refl items)
  | _ => exact .leaf rfl

end JsonStencil
