import JsonStencil.Proofs.Joins
import JsonStencil.Proofs.VariantPlans

/-!
# Widening by null and undefined

Widening a schema adds a member to a union, or wraps any other node into one.
Either way the widened node is peeled to what the node itself is peeled to,
or neither of the two is peeled, so it is written in the same way behind a
guard that knows one member more. What is not the added member is written as
before, and the added member is written as `null` or as the default.

A union is never asked in which order it lists null and undefined, nor how
often. So it does not matter in which order a schema is widened by the two,
and widening it twice by the same one is widening it once.

Main definitions:

* `Schema.nodeOf` — the shape of a node by what it is peeled to.
* `Node.BehindFlags` — shapes that differ in the flags of their guard.

Main results:

* `node_widen` — widening sets a flag and leaves the rest alone.
* `direct_widen` — what a widened node writes.
* `encode_widened` — widening is conservative, commutes and is idempotent.
-/

namespace JsonStencil

/-! ## Flags -/

theorem admitsNullish_false (v : Value) : admitsNullish false false v = false := rfl

/-- Flags that are set together admit what either of them does. -/
theorem admitsNullish_or (null undefined null' undefined' : Bool) (v : Value) :
    admitsNullish (null || null') (undefined || undefined') v =
      (admitsNullish null undefined v || admitsNullish null' undefined' v) := by
  unfold admitsNullish
  cases null <;> cases undefined <;> cases null' <;> cases undefined' <;>
    cases v.isNull <;> cases v.isUndefined <;> rfl

/-- What flags admit has `null` as its generic text in any case. -/
theorem ite_admitsNullish_text (null undefined : Bool) (v : Value) :
    (if admitsNullish null undefined v then "null" else v.text) = v.text := by
  cases hAdmits : admitsNullish null undefined v with
  | false => rfl
  | true => rcases nullish_of_admitsNullish hAdmits with rfl | rfl <;> rfl

/-- Shapes for any two flags that write the text in place of what the flags
admit, and anything else as the shape without flags does. -/
def Node.BehindFlags (escaping : Json.Escaping) (text : String) (shape : Bool → Bool → Node) :
    Prop :=
  ∀ (null undefined : Bool) (v : Value), (shape null undefined).direct escaping v =
    if admitsNullish null undefined v then text else (shape false false).direct escaping v

namespace Schema

/-! ## Cores -/

/-- The shape of a node that is peeled to the core with the two flags. -/
def nodeOf (core declared : Schema) (null undefined : Bool) : Node :=
  match core with
  | .scalar (.string _) _ =>
    .scalar .quoted (Guard.of? null undefined (defaultText core declared))
  | .scalar .number _ | .scalar .boolean _ | .scalar .bigint _ =>
    .scalar .raw (Guard.of? null undefined (defaultText core declared))
  | .scalar .null _ => .scalar .raw none
  | .scalar .undefined _ => .silent
  | .object _ _ _ _ => objectNode core (Guard.of? null undefined "null")
  | .array items _ => arrayNode items (Guard.of? null undefined "null")
  | .intersection members _ =>
    if anyObjectTyped members then objectNode core (Guard.of? null undefined "null")
    else otherNode core declared null undefined
  | _ => otherNode core declared null undefined

/-- A node has the shape of what it is peeled to. -/
theorem node_eq_nodeOf (s : Schema) :
    s.node = nodeOf s.peel.schema s s.peel.nullable s.peel.undefinable := rfl

/-- The node as declared counts for the text of its default alone. -/
theorem nodeOf_congr {core declared other : Schema}
    (h : defaultText core declared = defaultText core other) :
    nodeOf core declared = nodeOf core other := by
  funext null undefined
  have hOther : otherNode core declared null undefined = otherNode core other null undefined := by
    rw [otherNode, otherNode, wideGuard, wideGuard, h]
  unfold nodeOf
  rw [h, hOther]

/-! ## What a core writes behind flags -/

section BehindFlags

variable (escaping : Json.Escaping)

/-- A shape behind a guard writes the text of the guard in place of what the
flags admit. -/
theorem guarded_behindFlags (text : String) (shape : Option Guard → Node)
    {body : Value → String}
    (h : ∀ guard v, (shape guard).direct escaping v = guardedText guard v (body v)) :
    Node.BehindFlags escaping text fun null undefined => shape (Guard.of? null undefined text) := by
  intro null undefined v
  rw [h, h, guardedText_of?, guardedText_of?, admitsNullish_false]
  rfl

/-- The generic text has no guard, but what the flags admit is `null` there,
too. -/
theorem generic_behindFlags : Node.BehindFlags escaping "null" fun _ _ => .generic :=
  fun null undefined v => (ite_admitsNullish_text null undefined v).symm

/-- Objects write `null` in place of what the flags admit. -/
theorem objectNode_behindFlags (s : Schema) :
    Node.BehindFlags escaping "null" fun null undefined =>
      s.objectNode (Guard.of? null undefined "null") := by
  unfold objectNode
  split
  · next properties _ additional _ _ =>
    cases additional with
    | true => exact generic_behindFlags escaping
    | false =>
      exact guarded_behindFlags escaping "null" (.object properties) fun _ _ => rfl
  · exact generic_behindFlags escaping

/-- Arrays write `null` in place of what the flags admit. -/
theorem arrayNode_behindFlags (items : Schema) :
    Node.BehindFlags escaping "null" fun null undefined =>
      items.arrayNode (Guard.of? null undefined "null") :=
  guarded_behindFlags escaping "null" items.arrayNode (direct_arrayNode escaping items)

/-- The members that a union has itself are admitted beside those of the
flags. -/
theorem wide_behindFlags (effective declared : Schema) (shape : Option Guard → Node)
    {body : Value → String}
    (h : ∀ guard v, (shape guard).direct escaping v = guardedText guard v (body v)) :
    Node.BehindFlags escaping (defaultText effective declared) fun null undefined =>
      shape (wideGuard effective declared null undefined) := by
  intro null undefined v
  rw [h, h, wideGuard, wideGuard, guardedText_of?, guardedText_of?, admitsNullish_or,
    Bool.false_or, Bool.false_or]
  cases admitsNullish null undefined v <;> rfl

/-- What is left writes the default in place of what the flags admit, or `null`
if it is not recognised at all. -/
theorem otherNode_behindFlags (effective declared : Schema) :
    ∃ text, (text = "null" ∨ text = defaultText effective declared) ∧
      Node.BehindFlags escaping text (otherNode effective declared) := by
  unfold otherNode
  by_cases hDate : (effective.isDateLike || effective.isDate) = true
  · simp only [hDate, if_true]
    exact ⟨_, Or.inr rfl, wide_behindFlags escaping effective declared .date fun _ _ => rfl⟩
  · by_cases hDigits : effective.isIntegerString = true
    · simp only [hDate, hDigits, if_true]
      exact ⟨_, Or.inr rfl, wide_behindFlags escaping effective declared
        (.scalar .raw) fun _ _ => rfl⟩
    · simp only [hDate, hDigits]
      exact ⟨"null", Or.inl rfl, generic_behindFlags escaping⟩

/-- A core that admits more than null or undefined alone is written in one way
behind the flags, with `null` or the default in place of what they admit. -/
theorem nodeOf_behindFlags {core : Schema} (declared : Schema) (h : core.isNullish = false) :
    ∃ text, (text = "null" ∨ text = defaultText core declared) ∧
      Node.BehindFlags escaping text (nodeOf core declared) := by
  have hScalar (writer : Writer) :
      Node.BehindFlags escaping (defaultText core declared) fun null undefined =>
        .scalar writer (Guard.of? null undefined (defaultText core declared)) :=
    guarded_behindFlags escaping _ (.scalar writer) fun _ _ => rfl
  unfold nodeOf
  -- by the kinds of cores, each with its own guard
  cases core with
  | scalar kind marks =>
    cases kind with
    | string _ => exact ⟨_, Or.inr rfl, hScalar .quoted⟩
    | number | boolean | bigint => exact ⟨_, Or.inr rfl, hScalar .raw⟩
    | null | undefined => cases h
    | date | other _ => exact otherNode_behindFlags escaping _ declared
  | object _ _ _ _ => exact ⟨"null", Or.inl rfl, objectNode_behindFlags escaping _⟩
  | array items _ => exact ⟨"null", Or.inl rfl, arrayNode_behindFlags escaping items⟩
  | union _ _ => exact otherNode_behindFlags escaping _ declared
  | intersection members _ =>
    dsimp only
    by_cases hMerges : anyObjectTyped members = true
    · simp only [hMerges, if_true]
      exact ⟨"null", Or.inl rfl, objectNode_behindFlags escaping _⟩
    · simp only [hMerges]
      exact otherNode_behindFlags escaping _ declared

end BehindFlags

/-! ## Widening -/

variable {s member : Schema}

/-- A node that is no union is wrapped. Inside the wrapper it has lost its
optional marker, which does not show in its shape. -/
theorem nodeOf_wrapped (marks : Marks) (hDefault : marks.default = s.default) (wrapper : Schema)
    (hWrapper : wrapper.default = none) (hUnion : ∀ members marks, s ≠ .union members marks) :
    nodeOf (s.withMarks marks) wrapper = nodeOf s s := by
  have hText : defaultText (s.withMarks marks) wrapper = defaultText s s := by
    -- the default stays inside, and the wrapper has none
    have hInner : (s.withMarks marks).default = s.default := by
      rw [default, marks_withMarks, hDefault]
    rw [defaultText, defaultText, hInner, hWrapper]
    cases s.default <;> rfl
  -- by the kinds of cores: the default is looked at where there is a guard with its text
  funext null undefined
  cases s with
  | scalar kind _ =>
    cases kind with
    | null | undefined => rfl
    | string _ | number | boolean | bigint =>
      unfold nodeOf
      rw [hText]
      rfl
    | date | other _ =>
      unfold nodeOf otherNode wideGuard
      rw [hText]
      rfl
  | object _ _ _ _ | array _ _ => rfl
  | union members marks => exact absurd rfl (hUnion members marks)
  | intersection members _ =>
    unfold nodeOf otherNode wideGuard
    rw [hText]
    simp only [withMarks, objectNode, merge]
    split <;> rfl

/-- A union that is widened has the same members besides null and undefined. -/
theorem filter_concat_nullish (members : List Schema) (h : member.isNullish = true) :
    ((members ++ [member]).filter fun member => !member.isNullish) =
      members.filter fun member => !member.isNullish := by
  rw [List.filter_append, List.filter_cons, h]
  exact List.append_nil _

/-- The added member stands for itself when unions are spliced in. -/
theorem flatMembers_concat_nullish (members : List Schema) (marks : Marks)
    (h : member.isNullish = true) :
    (Schema.union (members ++ [member]) marks).flatMembers =
      (Schema.union members marks).flatMembers ++ [member] := by
  rw [flatMembers, flatMembers, List.flatMap_append, List.flatMap_cons, List.flatMap_nil,
    splice_of_isNullish h, List.append_nil]

/-- A union that is not peeled is recognised as it was, and has one null or
undefined member more. -/
theorem otherNode_concat_nullish (members : List Schema) (marks : Marks)
    (h : member.isNullish = true) :
    otherNode (.union (members ++ [member]) marks) (.union (members ++ [member]) marks) false
        false =
      otherNode (.union members marks) (.union members marks) member.isNull
        member.isUndefined := by
  have hFlat := flatMembers_concat_nullish members marks h
  -- neither kind of union is recognised by the added member
  have hNoDate : member.isDate = false := by
    cases member with
    | scalar kind _ => cases kind <;> first | rfl | cases h
    | _ => rfl
  have hDate : (Schema.union (members ++ [member]) marks).isDateLike =
      (Schema.union members marks).isDateLike := by
    rw [isDateLike, isDateLike, hFlat, List.any_append, List.any_cons, hNoDate]
    exact Bool.or_false _
  have hDigits : (Schema.union (members ++ [member]) marks).isIntegerString =
      (Schema.union members marks).isIntegerString := by
    rw [isIntegerString, isIntegerString, hFlat, filter_concat_nullish _ h]
  -- the guard counts the member on one side, and on the other the flags stand for it
  have hGuard : wideGuard (.union (members ++ [member]) marks)
        (.union (members ++ [member]) marks) false false =
      wideGuard (.union members marks) (.union members marks) member.isNull
        member.isUndefined := by
    rw [wideGuard, wideGuard, nullishMembers, nullishMembers]
    dsimp only
    rw [List.any_append, List.any_append, List.any_cons, List.any_cons, List.any_nil,
      List.any_nil, Bool.or_false, Bool.or_false, Bool.false_or, Bool.false_or,
      Bool.or_comm member.isNull, Bool.or_comm member.isUndefined]
    rfl
  rw [otherNode, otherNode, hDate, hDigits, hGuard]
  rfl

/-- A wrapper is peeled down to what it wraps. -/
theorem peel_wrapper (hs : s.isNullish = false) (h : member.isNullish = true) (marks : Marks) :
    (Schema.union [s, member] marks).peel = ⟨s, member.isNull, member.isUndefined⟩ := by
  have hLeft : ([s, member].filter fun member => !member.isNullish) = [s] := by
    rw [List.filter_cons, List.filter_cons, hs, h]
    rfl
  rw [isNullish, Bool.or_eq_false_iff] at hs
  rw [peel, hLeft]
  dsimp only
  rw [List.any_cons, List.any_cons, List.any_cons, List.any_cons, List.any_nil, List.any_nil, hs.1,
    hs.2, Bool.false_or, Bool.false_or, Bool.or_false, Bool.or_false]

/-- Marks do not count. -/
theorem isNullish_withMarks (marks : Marks) (s : Schema) :
    (s.withMarks marks).isNullish = s.isNullish := by
  cases s with
  | scalar kind _ => cases kind <;> rfl
  | _ => rfl

/-- Widening sets a flag and leaves the rest of the shape alone. -/
theorem node_widen (hs : s.isNullish = false) (h : member.isNullish = true) :
    (s.widen member).node =
      nodeOf s.peel.schema s (s.peel.nullable || member.isNull)
        (s.peel.undefinable || member.isUndefined) := by
  -- a union gets one member more, and everything else is wrapped
  by_cases hUnion : ∃ members marks, s = .union members marks
  · obtain ⟨members, marks, rfl⟩ := hUnion
    rw [node_eq_nodeOf, widen, peel, peel, filter_concat_nullish members h]
    split
    · next core _ =>
      rw [List.any_append, List.any_append, List.any_cons, List.any_cons, List.any_nil,
        List.any_nil, Bool.or_false, Bool.or_false]
      exact congrFun (congrFun (nodeOf_congr rfl) _) _
    · -- more than one member is left over, or none, and neither union is peeled
      exact otherNode_concat_nullish members marks h
  · have hOther : ∀ members marks, s ≠ .union members marks :=
      fun members marks hEq => hUnion ⟨members, marks, hEq⟩
    have hPeel : s.peel = ⟨s, false, false⟩ := by
      rw [peel]
      exact hOther
    let inner := s.withMarks { s.marks with optional := false }
    let wrapper := Schema.union [inner, member] { optional := s.optional }
    have hWiden : s.widen member = wrapper := by
      rw [widen]
      exact hOther
    have hInner : inner.isNullish = false := by rw [isNullish_withMarks, hs]
    have hShape : nodeOf inner wrapper = nodeOf s s :=
      nodeOf_wrapped { s.marks with optional := false } rfl wrapper rfl hOther
    rw [hWiden, node_eq_nodeOf, peel_wrapper hInner h, hShape, hPeel, Bool.false_or, Bool.false_or]

/-! ## What a widened node writes -/

/-- What a node is peeled to admits more than null or undefined alone, if the
node does. -/
theorem isNullish_peel (hs : s.isNullish = false) : s.peel.schema.isNullish = false := by
  cases s with
  | union members marks =>
    rw [peel]
    split
    · next hLeft => exact (mem_of_core hLeft).2
    · rfl
  | _ => exact hs

/-- A widened node writes `null` or the default in place of the added member,
and anything else as before. -/
theorem direct_widen (hs : s.isNullish = false) (h : member.isNullish = true)
    (escaping : Json.Escaping) :
    ∃ text, (text = "null" ∨ text = defaultText s.peel.schema s) ∧
      ∀ v : Value, (s.widen member).direct escaping v =
        if admitsNullish member.isNull member.isUndefined v then text
        else s.direct escaping v := by
  obtain ⟨text, hText, hBehind⟩ := nodeOf_behindFlags escaping s (isNullish_peel hs)
  refine ⟨text, hText, fun v => ?_⟩
  -- the flags of the widened node are those of the node and that of the member
  rw [direct_eq, direct_eq, node_widen hs h, node_eq_nodeOf, hBehind, hBehind s.peel.nullable,
    admitsNullish_or]
  cases admitsNullish s.peel.nullable s.peel.undefinable v <;>
    cases admitsNullish member.isNull member.isUndefined v <;> rfl

/-- Without a default on the node or its members, guards write `null`. -/
theorem defaultText_of_plain (hDefault : s.default = none)
    (hMembers : ∀ member ∈ s.splice, member.default = none) :
    defaultText s.peel.schema s = "null" := by
  have hCore : s.peel.schema.default = none := by
    cases s with
    | union members marks =>
      rw [peel]
      split
      · next core hLeft => exact hMembers core (mem_of_core hLeft).1
      · exact hDefault
    | _ => exact hDefault
  rw [defaultText, hCore, hDefault]

/-! ## Widening more than once -/

/-- A node that is widened becomes a union with the added member at its end,
under its own optional marker. -/
theorem widen_eq (s : Schema) :
    ∃ members marks, marks.optional = s.optional ∧
      ∀ member : Schema, s.widen member = .union (members ++ [member]) marks := by
  cases s with
  | union members marks => exact ⟨members, marks, rfl, fun _ => rfl⟩
  | _ => exact ⟨[_], { optional := _ }, rfl, fun _ => rfl⟩

/-- A null or undefined member is added again without a difference. -/
theorem rearranged_twice {members : List Schema} (h : member.isNullish = true) :
    Rearranged (members ++ [member]) (members ++ [member] ++ [member]) :=
  ((Rearranged.refl _).again (List.mem_append_right _ (List.mem_singleton_self _)) h).trans
    (.ofPerm (List.perm_append_singleton _ _).symm)

/-- Two members may be added in either order. -/
theorem rearranged_swapped (members : List Schema) (first second : Schema) :
    Rearranged (members ++ [first] ++ [second]) (members ++ [second] ++ [first]) := by
  refine .ofPerm ?_
  rw [List.append_assoc, List.append_assoc]
  exact (List.Perm.swap second first []).append_left members

/-- Unions with rearranged members have the same plan. -/
theorem ofSchema_eq_of_rearranged {members others : List Schema} (h : Rearranged members others)
    (marks : Marks) :
    Plan.ofSchema (.union others marks) = Plan.ofSchema (.union members marks) :=
  (Variant.ofSchema_eq Leeway.unnoticed_none (.union (.refl members) h rfl)).symm

/-- **Widening is conservative, commutes and is idempotent.** A schema that admits
more than null or undefined alone is written as before once it is widened, on
every value but the added one, and this is written as `null` if neither the
schema nor a member of it has a default. Whatever the schema is, widening it
by null and undefined in either order, or by one of them twice, makes no
difference to the plan, and the widened node has the optional marker of the
schema. -/
theorem encode_widened (s : Schema) (escaping : Json.Escaping) :
    (s.isNull = false → s.isUndefined = false →
      (∀ v : Value, v.isNull = false →
        (Encoder.ofSchema s.nullable escaping).encode v =
          (Encoder.ofSchema s escaping).encode v) ∧
      (∀ v : Value, v.isUndefined = false →
        (Encoder.ofSchema s.undefinable escaping).encode v =
          (Encoder.ofSchema s escaping).encode v) ∧
      (s.default = none → (∀ member ∈ s.splice, member.default = none) →
        (Encoder.ofSchema s.nullable escaping).encode .null = .ok "null" ∧
          (Encoder.ofSchema s.undefinable escaping).encode .undefined = .ok "null")) ∧
    Plan.ofSchema s.nullable.undefinable = Plan.ofSchema s.undefinable.nullable ∧
    Plan.ofSchema s.nullable.nullable = Plan.ofSchema s.nullable ∧
    Plan.ofSchema s.undefinable.undefinable = Plan.ofSchema s.undefinable ∧
    s.nullable.optional = s.optional ∧ s.undefinable.optional = s.optional := by
  constructor
  · intro hNull hUndefined
    have hs : s.isNullish = false := by rw [isNullish, hNull, hUndefined, Bool.or_false]
    -- both members are added alike, so both cases are one lemma
    have hNullMember : (ofScalar .null).isNullish = true := rfl
    have hUndefinedMember : (ofScalar .undefined).isNullish = true := rfl
    obtain ⟨nullText, hNullText, hNullable⟩ :=
      direct_widen hs hNullMember escaping
    obtain ⟨undefinedText, hUndefinedText, hUndefinable⟩ :=
      direct_widen hs hUndefinedMember escaping
    simp only [Encoder.encode_eq_direct, nullable, undefinable, hNullable, hUndefinable]
    refine ⟨fun v hv => ?_, fun v hv => ?_, fun hDefault hMembers => ?_⟩
    · rw [if_neg]
      simp [admitsNullish, ofScalar, isNull, isUndefined, hv]
    · rw [if_neg]
      simp [admitsNullish, ofScalar, isNull, isUndefined, hv]
    · have hPlain := defaultText_of_plain hDefault hMembers
      rw [hPlain, or_self] at hNullText hUndefinedText
      rw [hNullText, hUndefinedText]
      exact ⟨rfl, rfl⟩
  · -- now both are unions, and only the end of the list differs
    obtain ⟨members, marks, hOptional, hWiden⟩ := widen_eq s
    simp only [nullable, undefinable, hWiden]
    exact ⟨ofSchema_eq_of_rearranged (rearranged_swapped ..) marks,
      ofSchema_eq_of_rearranged (rearranged_twice rfl) marks,
      ofSchema_eq_of_rearranged (rearranged_twice rfl) marks, hOptional, hOptional⟩

/-- A property that is an instant, a text, a number or undefined: made nullable
it writes a text as before and null as `null`. -/
theorem encode_widened_dateLike :
    let s := dateLike.undefinable.asOptional
    s.isNull = false ∧ s.isUndefined = false ∧ s.default = none ∧
      (∀ member ∈ s.splice, member.default = none) ∧
      (Encoder.ofSchema s.nullable .json).encode (.string "today") =
        (Encoder.ofSchema s .json).encode (.string "today") ∧
      (Encoder.ofSchema s.nullable .json).encode .null = .ok "null" := by
  intro s
  -- two members of the union and the one that was added
  have hMembers : ∀ member ∈ s.splice, member.default = none := by
    simp only [s, splice, dateLike, undefinable, widen, asOptional, withMarks, unionOf,
      List.mem_append, List.mem_cons, List.not_mem_nil, or_false]
    rintro member ((rfl | rfl | rfl) | rfl) <;> rfl
  obtain ⟨hNullable, -, hAdded⟩ := (encode_widened s .json).1 rfl rfl
  exact ⟨rfl, rfl, rfl, hMembers, hNullable (.string "today") rfl, (hAdded rfl hMembers).1⟩

end Schema

end JsonStencil
