import JsonStencil.Proofs.Direct

/-!
# The positions that a schema reaches in a value

A schema and a value are walked together: from an object to the fields that
are written, and from an array to its items where these are nodes of their
own. Every other node is a leaf of the walk, and what stands below it in the
value is not looked at through the schema. A condition on a value that speaks
of what nodes meet is one that holds at every position of the walk.

Main definitions:

* `Schema.Meets` — a node and the value it is met by, somewhere below.
* `Schema.Along` — a condition at every position.
* `Schema.CopiesNoString` — no string is copied without quotes.

Main results:

* `forall_guardedText` — what holds of a text behind a guard.
* `fallback_of_node` — what the guard of a node writes.
* `Meets.trans` — what is met below a position is met.
-/

namespace JsonStencil

/-! ## Guards -/

/-- Whether there is a guard that hits the value. -/
def guardHits (guard : Option Guard) (v : Value) : Bool := guard.any fun guard => guard.hits v

/-- A guard hits nothing but null and undefined. -/
theorem nullish_of_guardHits {guard : Option Guard} {v : Value} (h : guardHits guard v = true) :
    v = .null ∨ v = .undefined := by
  obtain ⟨guard, -, hHits⟩ := (Option.any_eq_true ..).mp h
  rw [Guard.hits, Bool.or_eq_true, Bool.and_eq_true, Bool.and_eq_true] at hHits
  rcases hHits with ⟨-, hNull⟩ | ⟨-, hUndefined⟩
  · cases v <;> first | exact Or.inl rfl | cases hNull
  · cases v <;> first | exact Or.inr rfl | cases hUndefined

/-- Flags admit nothing but null and undefined. -/
theorem nullish_of_admitsNullish {null undefined : Bool} {v : Value}
    (h : admitsNullish null undefined v = true) : v = .null ∨ v = .undefined := by
  have hHits : guardHits (some ⟨null, undefined, ""⟩) v = true := h
  exact nullish_of_guardHits hHits

/-- No guard hits an array. -/
theorem guardHits_array (guard : Option Guard) (entries : List Value) :
    guardHits guard (.array entries) = false := by
  cases hHits : guardHits guard (.array entries) with
  | false => rfl
  | true => rcases nullish_of_guardHits hHits with h | h <;> cases h

/-- Where the guard does not hit, the text is written. -/
theorem guardedText_of_not_hits {guard : Option Guard} {v : Value}
    (h : guardHits guard v = false) (text : String) : guardedText guard v text = text := by
  cases guard with
  | none => rfl
  | some guard =>
    have hMiss : guard.hits v = false := h
    rw [guardedText, hMiss]
    rfl

/-- Where it hits, its fallback is. -/
theorem guardedText_of_hits {guard : Option Guard} {v : Value} (h : guardHits guard v = true)
    (text : String) : ∃ shown, guard = some shown ∧ guardedText guard v text = shown.fallback := by
  obtain ⟨shown, hGuard, hHits⟩ := (Option.any_eq_true ..).mp h
  refine ⟨shown, hGuard, ?_⟩
  rw [hGuard, guardedText, if_pos hHits]

/-- What holds of the fallback, and of the text where the guard does not hit,
holds of what is written. -/
theorem forall_guardedText {P : List Char → Prop} {guard : Option Guard} {v : Value}
    {text : String} (hFallback : ∀ shown, guard = some shown → P shown.fallback.toList)
    (hText : guardHits guard v = false → P text.toList) :
    P (guardedText guard v text).toList := by
  cases hHits : guardHits guard v with
  | false =>
    rw [guardedText_of_not_hits hHits]
    exact hText hHits
  | true =>
    obtain ⟨shown, hGuard, hWritten⟩ := guardedText_of_hits hHits text
    rw [hWritten]
    exact hFallback shown hGuard

/-- The guard in front of the steps of a shape. -/
def Node.guard : Node → Option Guard
  | .silent | .generic => none
  | .scalar _ guard | .date guard | .object _ guard | .joined _ guard | .loop _ guard => guard

namespace Schema

/-- What the guard of a node writes is `null` or the default of the node. -/
theorem fallback_of_node {s : Schema} {guard : Guard} (h : s.node.guard = some guard) :
    guard.fallback = "null" ∨ guard.fallback = defaultText s.peel.schema s := by
  -- a guard has the fallback that it was made with
  have hOf : ∀ {null undefined : Bool} {fallback : String},
      Guard.of? null undefined fallback = some guard → guard.fallback = fallback := by
    intro null undefined fallback hGuard
    rw [Guard.of?] at hGuard
    split at hGuard
    · cases hGuard
      rfl
    · cases hGuard
  have hShaped := shaped_node s
  generalize s.node = node at h hShaped
  cases hShaped with
  | silent _ | generic => cases h
  | scalar writer null undefined | date null undefined => exact Or.inr (hOf h)
  | object _ | joined _ | loop _ => exact Or.inl (hOf h)

/-! ## Walking -/

/-- Walking a node and a value together, another node meets another value:
the node itself the value itself, a property that is written the value under
its key, and the items of an array each of the items. -/
inductive Meets : Schema → Value → Schema → Value → Prop where
  | here (s : Schema) (v : Value) : Meets s v s v
  | property {s q : Schema} {v w : Value} {properties : List (String × Schema)}
    {guard : Option Guard} {key : String} {property : Schema}
    (node : s.node = .object properties guard) (behind : guardHits guard v = false)
    (mem : (key, property) ∈ properties) (defined : property.isUndefined = false)
    (present : (property.optional && (v.get key).isUndefined) = false)
    (below : Meets property (v.get key) q w) : Meets s v q w
  | item {s q items : Schema} {w entry : Value} {guard : Option Guard} {entries : List Value}
    (node : s.node = .loop items guard) (mem : entry ∈ entries)
    (below : Meets items entry q w) : Meets s (.array entries) q w

/-- What is met below a position is met. -/
theorem Meets.trans {s q r : Schema} {v w x : Value} (h : s.Meets v q w) (hBelow : q.Meets w r x) :
    s.Meets v r x := by
  induction h with
  | here => exact hBelow
  | property node behind mem defined present _ ih =>
    exact .property node behind mem defined present (ih hBelow)
  | item node mem _ ih => exact .item node mem (ih hBelow)

/-- A condition holds wherever a node meets a value. -/
def Along (R : Schema → Value → Prop) (s : Schema) (v : Value) : Prop :=
  ∀ q w, s.Meets v q w → R q w

namespace Along

variable {R : Schema → Value → Prop} {s : Schema} {v : Value}

/-- The condition holds of the node and the value themselves. -/
theorem here (h : s.Along R v) : R s v := h s v (.here s v)

/-- It holds along a property that is written. -/
theorem property (h : s.Along R v) {properties : List (String × Schema)} {guard : Option Guard}
    (hNode : s.node = .object properties guard) (hBehind : guardHits guard v = false)
    {key : String} {property : Schema} (hMem : (key, property) ∈ properties)
    (hDefined : property.isUndefined = false)
    (hPresent : (property.optional && (v.get key).isUndefined) = false) :
    property.Along R (v.get key) :=
  fun q w hMeets => h q w (.property hNode hBehind hMem hDefined hPresent hMeets)

/-- It holds along each item of a loop. -/
theorem item {items : Schema} {guard : Option Guard} {entries : List Value} {entry : Value}
    (h : s.Along R (.array entries)) (hNode : s.node = .loop items guard)
    (hMem : entry ∈ entries) : items.Along R entry :=
  fun q w hMeets => h q w (.item hNode hMem hMeets)

/-- A node without parts is the only position of its walk. -/
theorem ofLeaf (hHere : R s v) (hParts : s.node.parts = []) : s.Along R v := by
  intro q w hMeets
  cases hMeets with
  | here => exact hHere
  | property hNode _ hMem _ _ _ =>
    rw [hNode] at hParts
    exact absurd (List.map_eq_nil_iff.mp hParts ▸ hMem) List.not_mem_nil
  | item hNode _ _ =>
    rw [hNode] at hParts
    cases hParts

/-- An object meets itself and what its written properties meet. -/
theorem ofObject {properties : List (String × Schema)} {guard : Option Guard} (hHere : R s v)
    (hNode : s.node = .object properties guard)
    (hBelow : ∀ entry ∈ properties, entry.2.isUndefined = false →
      (entry.2.optional && (v.get entry.1).isUndefined) = false →
        entry.2.Along R (v.get entry.1)) : s.Along R v := by
  intro q w hMeets
  cases hMeets with
  | here => exact hHere
  | property hOther _ hMem hDefined hPresent hMeets =>
    rw [hNode] at hOther
    cases hOther
    exact hBelow _ hMem hDefined hPresent q w hMeets
  | item hOther _ _ => exact nomatch hNode.symm.trans hOther

/-- A loop meets itself and what its items meet. -/
theorem ofLoop {items : Schema} {guard : Option Guard} {entries : List Value}
    (hHere : R s (.array entries)) (hNode : s.node = .loop items guard)
    (hBelow : ∀ entry ∈ entries, items.Along R entry) : s.Along R (.array entries) := by
  intro q w hMeets
  cases hMeets with
  | here => exact hHere
  | property hOther _ _ _ _ _ => exact nomatch hNode.symm.trans hOther
  | item hOther hMem hMeets =>
    rw [hNode] at hOther
    cases hOther
    exact hBelow _ hMem q w hMeets

/-- A condition at every position holds at every position below one. -/
theorem below (h : s.Along R v) {q : Schema} {w : Value} (hMeets : s.Meets v q w) :
    q.Along R w :=
  fun r x hBelow => h r x (hMeets.trans hBelow)

end Along

end Schema

/-! ## Strings that are copied -/

/-- Whether the value is a string. -/
def Value.isString : Value → Bool
  | .string _ => true
  | _ => false

/-- Where a shape copies strings as they stand, the value has none: it is not
one itself, nor is an item of it if the shape joins items. -/
def Node.CopiesNoString : Node → Value → Prop
  | .scalar .raw _, v => v.isString = false
  | .joined .raw _, .array entries => ∀ entry ∈ entries, entry.isString = false
  | _, _ => True

/-- The node does not copy a string without quotes. -/
def Schema.CopiesNoString (s : Schema) (v : Value) : Prop := s.node.CopiesNoString v

end JsonStencil
