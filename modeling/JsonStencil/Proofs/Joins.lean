import JsonStencil.Proofs.Simulation
import JsonStencil.Proofs.Positions
import JsonStencil.Proofs.SpecialUnions
import JsonStencil.Schema.Build

/-!
# Joins and loops

An array is joined when its items are strings, numbers, booleans, bigints or
strings of digits, and looped over otherwise. A join writes each item by
itself and knows of no guard; a loop writes what the items node gives each
item. So the two agree as long as the node has no guard to speak of: a scalar
has none, and the null and undefined members of a string of digits are
written as `null` either way.

They part at the default of a string of digits. The loop, and every other
place in which such a node stands, writes the default in place of null and
undefined; the join writes `null`.

Main definitions:

* `Plan.ofArray` — the plan of an array.
* `Plan.ofLoop` — the plan that loops over the items, whatever they are.
* `Schema.replaces` — the values in whose place a node writes its default.

Main results:

* `commaSep_injective` — texts that are nowhere longer and give the same
  sequence are the same.
* `Plan.ofArray_run_eq_ofLoop_iff` — where a join writes what the loop
  writes.
-/

namespace JsonStencil

/-! ## Sequences of texts -/

section Texts

variable {α : Type} {p q : α → String} {entries : List α}

/-- Texts none of which is longer than the one in its place give a sequence that
is no longer. -/
theorem length_commaSep_map_le (h : ∀ entry ∈ entries, (p entry).length ≤ (q entry).length) :
    (commaSep (entries.map p)).length ≤ (commaSep (entries.map q)).length := by
  induction entries with
  | nil => exact Nat.le_refl _
  | cons entry rest ih =>
    rw [List.forall_mem_cons] at h
    have hRest := ih h.2
    -- the commas are as many on both sides
    cases rest with
    | nil => exact h.1
    | cons next rest =>
      rw [List.map_cons, List.map_cons] at hRest ⊢
      rw [List.map_cons, List.map_cons, commaSep, commaSep, String.length_append,
        String.length_append, String.length_append, String.length_append]
      have hFirst := h.1
      omega

/-- Texts none of which is longer than the one in its place give the same
sequence only if they are the same. -/
theorem commaSep_map_injective (h : ∀ entry ∈ entries, (p entry).length ≤ (q entry).length)
    (hEq : commaSep (entries.map p) = commaSep (entries.map q)) :
    ∀ entry ∈ entries, p entry = q entry := by
  -- the first texts end at the same place, so what is behind them can be compared
  induction entries with
  | nil => exact fun entry hEntry => absurd hEntry List.not_mem_nil
  | cons entry rest ih =>
    rw [List.forall_mem_cons] at h ⊢
    cases rest with
    | nil => exact ⟨hEq, fun entry hEntry => absurd hEntry List.not_mem_nil⟩
    | cons next rest =>
      have hRest := length_commaSep_map_le h.2
      have hFirst := h.1
      have hApart : p entry ++ "," ++ commaSep ((next :: rest).map p) =
          q entry ++ "," ++ commaSep ((next :: rest).map q) := hEq
      -- the lengths add up to the same, so none of them differs
      have hLengths := congrArg String.length hApart
      rw [String.length_append, String.length_append, String.length_append,
        String.length_append] at hLengths
      have hLength : (p entry).toList.length = (q entry).toList.length := by
        rw [String.length_toList, String.length_toList]
        omega
      have hLists := congrArg String.toList hApart
      rw [String.toList_append, String.toList_append, String.toList_append, String.toList_append,
        List.append_assoc, List.append_assoc] at hLists
      obtain ⟨hHead, hTail⟩ := List.append_inj hLists hLength
      exact ⟨String.toList_inj.mp hHead,
        ih h.2 (String.toList_inj.mp (List.append_cancel_left hTail))⟩

/-- Writing one text for another, wherever that is done, changes the sequence
unless the two are the same. -/
theorem commaSep_map_injective_of_instead {text instead : String}
    (h : ∀ entry ∈ entries, p entry = q entry ∨ (p entry = text ∧ q entry = instead))
    (hEq : commaSep (entries.map p) = commaSep (entries.map q)) :
    ∀ entry ∈ entries, p entry = q entry := by
  -- no text on one of the two sides is longer than that in its place
  rcases Nat.le_total text.length instead.length with hLength | hLength
  · refine commaSep_map_injective (fun entry hEntry => ?_) hEq
    rcases h entry hEntry with hSame | ⟨hText, hInstead⟩
    · exact Nat.le_of_eq (congrArg String.length hSame)
    · rw [hText, hInstead]
      exact hLength
  · intro entry hEntry
    refine (commaSep_map_injective (fun entry hEntry => ?_) hEq.symm entry hEntry).symm
    rcases h entry hEntry with hSame | ⟨hText, hInstead⟩
    · exact Nat.le_of_eq (congrArg String.length hSame.symm)
    · rw [hText, hInstead]
      exact hLength

end Texts

/-! ## What stands in place of null and undefined -/

namespace Schema

variable {s : Schema}

/-- Whether a value is a null or an undefined that the node has among its
members, its own or those of the node it wraps. The node then writes its
default in place of the value. -/
def replaces (s : Schema) (v : Value) : Bool :=
  admitsNullish (s.peel.nullable || s.peel.schema.nullishMembers.1)
    (s.peel.undefinable || s.peel.schema.nullishMembers.2) v

variable {escaping : Json.Escaping} {v : Value}

/-- What is copied for null and undefined is `null`. -/
theorem rawText_of_replaces (h : s.replaces v = true) : v.rawText escaping = "null" := by
  rcases nullish_of_admitsNullish h with rfl | rfl <;> rfl

/-- By itself a string of digits is written with its default in place of null
and undefined. -/
theorem direct_of_isIntegerString (h : s.isIntegerString = true) :
    s.direct escaping v =
      if s.replaces v then defaultText s.peel.schema s else v.rawText escaping := by
  rw [direct_eq, node_of_isIntegerString h, Node.direct, wideGuard, guardedText_of?]
  rfl

/-- As an item of a join it is copied. -/
theorem directItem_of_isIntegerString (h : s.isIntegerString = true) :
    directItem escaping s v = v.rawText escaping := by
  obtain ⟨members, marks, rfl⟩ := union_of_isIntegerString h
  have hWriter : itemWriter? (.union members marks) = some .raw := if_pos h
  rw [directItem, hWriter]
  rfl

/-- The items of any other join are written as they are by themselves. -/
theorem directItem_eq_direct (h : s.isIntegerString = false) :
    directItem escaping s v = s.direct escaping v := by
  rw [directItem]
  cases hWriter : s.itemWriter? with
  | none => rfl
  | some writer =>
    rw [direct_eq]
    -- a scalar that is joined is written by the same writer as by itself
    cases s with
    | scalar kind _ =>
      cases kind with
      | string _ | number | boolean | bigint =>
        cases hWriter
        rfl
      | _ => cases hWriter
    | _ =>
      -- among these nothing but a string of digits is written directly
      unfold itemWriter? at hWriter
      dsimp only at hWriter
      rw [h] at hWriter
      cases hWriter

/-- The items of an array are written as they are by themselves exactly if no
default of a string of digits is called for. -/
theorem map_directItem_eq_iff (s : Schema) (escaping : Json.Escaping) (entries : List Value) :
    bracketed (entries.map (directItem escaping s)) =
        bracketed (entries.map (s.direct escaping)) ↔
      (s.isIntegerString = true → ∀ entry ∈ entries, s.replaces entry = true →
        defaultText s.peel.schema s = "null") := by
  -- only a string of digits may be written otherwise in an array
  cases hDigits : s.isIntegerString with
  | false =>
    have hSame : entries.map (directItem escaping s) = entries.map (s.direct escaping) :=
      List.map_congr_left fun entry _ => directItem_eq_direct hDigits
    rw [hSame]
    exact ⟨fun _ h => (nomatch h), fun _ => rfl⟩
  | true =>
    have hKept : ∀ entry, s.replaces entry = false →
        directItem escaping s entry = s.direct escaping entry := by
      intro entry h
      rw [directItem_of_isIntegerString hDigits, direct_of_isIntegerString hDigits, h]
      rfl
    have hReplaced : ∀ entry, s.replaces entry = true →
        directItem escaping s entry = "null" ∧
          s.direct escaping entry = defaultText s.peel.schema s := by
      intro entry h
      rw [directItem_of_isIntegerString hDigits, direct_of_isIntegerString hDigits, h,
        rawText_of_replaces h]
      exact ⟨rfl, rfl⟩
    -- an item that is written otherwise is always null on one side
    have hInstead : ∀ entry ∈ entries, directItem escaping s entry = s.direct escaping entry ∨
        (directItem escaping s entry = "null" ∧
          s.direct escaping entry = defaultText s.peel.schema s) := by
      intro entry _
      cases h : s.replaces entry with
      | false => exact Or.inl (hKept entry h)
      | true => exact Or.inr (hReplaced entry h)
    constructor
    · intro hEq _ entry hEntry h
      rw [bracketed, bracketed, String.append_left_inj, String.append_right_inj] at hEq
      have hText := commaSep_map_injective_of_instead hInstead hEq entry hEntry
      rw [(hReplaced entry h).1, (hReplaced entry h).2] at hText
      exact hText.symm
    · intro hNull
      refine congrArg bracketed (List.map_congr_left fun entry hEntry => ?_)
      cases h : s.replaces entry with
      | false => exact hKept entry h
      | true => rw [(hReplaced entry h).1, (hReplaced entry h).2, hNull rfl entry hEntry h]

end Schema

/-! ## The plans of arrays -/

namespace Plan

/-- The plan of an array with the given items behind a guard. -/
def ofArray (items : Schema) (guard : Option Guard) : Plan :=
  let root := Schema.compileArray items .root guard {}
  root.2.finish root.1

/-- The plan of the same array if it loops over the items, whatever they
are. -/
def ofLoop (items : Schema) (guard : Option Guard) : Plan :=
  let next := ({} : Allocation).nextLoop
  let item := items.compile (.item next.1) next.2
  item.2.finish ((Fragment.of (.loop .root next.1 item.1.steps)).guarded .root guard)

variable (items : Schema) (guard : Option Guard) (escaping : Json.Escaping)
  (entries : List Value)

/-- A loop writes what each item is written as by itself. -/
theorem ofLoop_run :
    (ofLoop items guard).run escaping (.array entries) =
      .ok (bracketed (entries.map (items.direct escaping))) := by
  have hRun := (Node.loop items guard).plan_run [] escaping (.array entries)
  rw [Node.direct, guardedText_of_not_hits (guardHits_array guard entries)] at hRun
  exact hRun

/-- The array writes what each item is written as in an array. -/
theorem ofArray_run :
    (ofArray items guard).run escaping (.array entries) =
      .ok (bracketed (entries.map (Schema.directItem escaping items))) := by
  have hRun := (items.arrayNode guard).plan_run [] escaping (.array entries)
  rw [Schema.direct_arrayNode, guardedText_of_not_hits (guardHits_array guard entries)] at hRun
  rw [ofArray, Schema.compileArray_eq]
  exact hRun

/-- The texts of the items by themselves. -/
theorem mapM_encode :
    entries.mapM (Encoder.ofSchema items escaping).encode =
      .ok (entries.map (items.direct escaping)) := by
  have hEncode : (Encoder.ofSchema items escaping).encode = pure ∘ items.direct escaping :=
    funext fun v => Encoder.encode_eq_direct items escaping v
  rw [hEncode]
  exact List.mapM_pure

/-- **Joins and loops agree but for one default.** Looping over the items of an
array writes between brackets what each item is written as by itself. The
plan of the array, which may join the items instead, writes the same for all
items and under every guard, except where an item of a string of digits is a
null or an undefined that the node replaces by a default other than `null`:
there it always writes something else. -/
theorem ofArray_run_eq_ofLoop_iff :
    ∃ texts, entries.mapM (Encoder.ofSchema items escaping).encode = .ok texts ∧
      (ofLoop items guard).run escaping (.array entries) = .ok (bracketed texts) ∧
      ((ofArray items guard).run escaping (.array entries) = .ok (bracketed texts) ↔
        (items.isIntegerString = true → ∀ entry ∈ entries, items.replaces entry = true →
          Schema.defaultText items.peel.schema items = "null")) := by
  refine ⟨_, mapM_encode items escaping entries, ofLoop_run items guard escaping entries, ?_⟩
  rw [ofArray_run, Except.ok.injEq]
  exact items.map_directItem_eq_iff escaping entries

/-- A nullable string of digits with a default is written with the default in
place of null by itself, as a property and in a loop. An array of such items
is joined, and the default is lost. -/
theorem ofArray_drops_default :
    let items := Schema.integerString.nullable.withDefault (.number (.integer 7))
    let entries := [Value.null, .string "12"]
    entries.mapM (Encoder.ofSchema items .json).encode = .ok ["7", "12"] ∧
      (ofLoop items none).run .json (.array entries) = .ok "[7,12]" ∧
      (ofArray items none).run .json (.array entries) = .ok "[null,12]" ∧
      (Encoder.ofSchema (.arrayOf items) .json).encode (.array entries) = .ok "[null,12]" := by
  intro items entries
  have hDigits : items.isIntegerString = true := by decide
  -- by itself null is written as the default, and in a join it is copied
  have hTexts : entries.map (items.direct .json) = ["7", "12"] := by
    rw [List.map_cons, List.map_cons, List.map_nil, Schema.direct_of_isIntegerString hDigits,
      Schema.direct_of_isIntegerString hDigits]
    decide
  have hJoined : entries.map (Schema.directItem .json items) = ["null", "12"] := by
    rw [List.map_cons, List.map_cons, List.map_nil, Schema.directItem_of_isIntegerString hDigits,
      Schema.directItem_of_isIntegerString hDigits]
    decide
  have hArray : (Schema.arrayOf items).node = items.arrayNode none := rfl
  refine ⟨?_, ?_, ?_, ?_⟩
  · rw [mapM_encode, hTexts]
  · rw [ofLoop_run, hTexts]
    rfl
  · rw [ofArray_run, hJoined]
    rfl
  · rw [Encoder.encode_eq_direct, Schema.direct_eq, hArray, Schema.direct_arrayNode,
      guardedText_none, Value.joinedText, hJoined]
    rfl

end Plan

end JsonStencil
