import JsonStencil.Proofs.Nodes

/-!
# Unions with an encoding of their own

A union is looked at with the unions among its members spliced in, one level
deep, and without the members that admit null alone or undefined alone. If a
string of format `integer` and a number are left, in either order, it is a
string of digits. Which of the two levels the members stand on does not matter
for that, so a string of digits is one still after peeling.

Main results:

* `filter_flatMap_splice` — null and undefined can be left out on either
  level.
* `isIntegerString_iff` — what makes a string of digits.
* `node_of_isIntegerString` — a string of digits is written raw, however it
  is wrapped.
-/

namespace JsonStencil.Schema

/-! ## Splicing -/

variable {s : Schema}

/-- What admits null alone or undefined alone is no union and stands for
itself. -/
theorem splice_of_isNullish (h : s.isNullish = true) : s.splice = [s] := by
  cases s with
  | union members marks => cases h
  | _ => rfl

/-- Null and undefined members can be left out before nested unions are
spliced in. -/
theorem filter_flatMap_splice (members : List Schema) :
    (members.flatMap splice).filter (fun member => !member.isNullish) =
      (members.filter fun member => !member.isNullish).flatMap fun member =>
        member.splice.filter fun inner => !inner.isNullish := by
  induction members with
  | nil => rfl
  | cons member rest ih =>
    rw [List.flatMap_cons, List.filter_append, ih, List.filter_cons]
    cases hNullish : member.isNullish with
    | false => rw [Bool.not_false, if_pos rfl, List.flatMap_cons]
    | true =>
      rw [splice_of_isNullish hNullish, List.filter_cons, hNullish]
      rfl

/-! ## Strings of digits -/

/-- A string of digits is known by its two members beside null and
undefined. -/
theorem isIntegerString_iff :
    s.isIntegerString = true ↔
      ∃ first second, (s.flatMembers.filter fun member => !member.isNullish) = [first, second] ∧
        ((first.isIntegerFormat = true ∧ second.isNumber = true) ∨
          (first.isNumber = true ∧ second.isIntegerFormat = true)) := by
  unfold isIntegerString
  constructor
  · intro h
    -- two members are left, and not one or three
    split at h
    · next first second hMembers =>
      rw [Bool.or_eq_true, Bool.and_eq_true, Bool.and_eq_true] at h
      exact ⟨first, second, hMembers, h⟩
    · cases h
  · rintro ⟨first, second, hMembers, hKinds⟩
    rw [hMembers]
    dsimp only
    rw [Bool.or_eq_true, Bool.and_eq_true, Bool.and_eq_true]
    exact hKinds

/-- No node is of both kinds. -/
theorem isNumber_of_isIntegerFormat (h : s.isIntegerFormat = true) : s.isNumber = false := by
  cases s with
  | scalar kind _ =>
    cases kind with
    | string _ => rfl
    | _ => cases h
  | _ => cases h

/-- The order of the two members does not matter. -/
theorem isIntegerString_eq (s : Schema) :
    s.isIntegerString =
      ((s.flatMembers.filter fun member => !member.isNullish).length == 2 &&
        (s.flatMembers.filter fun member => !member.isNullish).any isIntegerFormat &&
        (s.flatMembers.filter fun member => !member.isNullish).any isNumber) := by
  rw [isIntegerString]
  generalize (s.flatMembers.filter fun member => !member.isNullish) = kept
  split
  · next first second =>
    have hFirst := isNumber_of_isIntegerFormat (s := first)
    have hSecond := isNumber_of_isIntegerFormat (s := second)
    rw [List.any_cons, List.any_cons, List.any_nil, List.any_cons, List.any_cons, List.any_nil]
    -- no member has both kinds, so some member of each kind is one of each
    cases hLeft : first.isIntegerFormat <;> cases hRight : second.isIntegerFormat <;> grind
  · next hOther =>
    have hCount : kept.length ≠ 2 := by
      intro hCount
      match kept, hCount with
      | [first, second], _ => exact hOther first second rfl
    rw [beq_eq_false_iff_ne.mpr hCount, Bool.false_and, Bool.false_and]

/-- Only a union can be a string of digits. -/
theorem union_of_isIntegerString (h : s.isIntegerString = true) :
    ∃ members marks, s = .union members marks := by
  cases s with
  | union members marks => exact ⟨members, marks, rfl⟩
  | _ => cases h

/-- The members that make a string of digits are scalars that stand for
themselves, and no dates. -/
theorem splice_of_isIntegerFormat_or_isNumber
    (h : s.isIntegerFormat = true ∨ s.isNumber = true) :
    s.splice = [s] ∧ s.isNullish = false ∧ s.isDate = false := by
  cases s with
  | scalar kind _ =>
    cases kind with
    | string _ | number => exact ⟨rfl, rfl, rfl⟩
    | _ => rcases h with h | h <;> cases h
  | _ => rcases h with h | h <;> cases h

section Members

variable {first second : Schema}
  (hKinds : (first.isIntegerFormat = true ∧ second.isNumber = true) ∨
    (first.isNumber = true ∧ second.isIntegerFormat = true))

include hKinds

/-- Both members are of one of the two kinds. -/
theorem kinds_of_mem {member : Schema} (h : member ∈ [first, second]) :
    member.isIntegerFormat = true ∨ member.isNumber = true := by
  rcases List.mem_cons.mp h with rfl | hSecond
  · exact hKinds.imp And.left And.left
  · rw [List.mem_singleton.mp hSecond]
    exact (hKinds.imp And.right And.right).symm

/-- Splicing leaves the two members as they are. -/
theorem flatMap_splice_pair :
    ([first, second].flatMap fun member =>
      member.splice.filter fun inner => !inner.isNullish) = [first, second] := by
  have hKeeps : ∀ member ∈ [first, second],
      member.splice.filter (fun inner => !inner.isNullish) = [member] := by
    intro member hMember
    obtain ⟨hAlone, hKept, -⟩ :=
      splice_of_isIntegerFormat_or_isNumber (kinds_of_mem hKinds hMember)
    rw [hAlone, List.filter_cons_of_pos (by rw [hKept]; rfl)]
    rfl
  rw [List.flatMap_cons, List.flatMap_cons, hKeeps first (List.mem_cons_self ..),
    hKeeps second (List.mem_cons_of_mem _ (List.mem_singleton_self _))]
  rfl

end Members

/-- No date stands among the members of a string of digits. -/
theorem isDateLike_of_isIntegerString (h : s.isIntegerString = true) : s.isDateLike = false := by
  obtain ⟨first, second, hMembers, hKinds⟩ := isIntegerString_iff.mp h
  rw [isDateLike, List.any_eq_false]
  intro member hMember hDate
  -- an instant is kept besides null and undefined
  have hKept : member ∈ s.flatMembers.filter fun member => !member.isNullish := by
    refine List.mem_filter.mpr ⟨hMember, ?_⟩
    cases member with
    | scalar kind _ =>
      cases kind with
      | date => rfl
      | _ => cases hDate
    | _ => cases hDate
  rw [hMembers] at hKept
  have hNoDate := (splice_of_isIntegerFormat_or_isNumber (kinds_of_mem hKinds hKept)).2.2
  exact absurd (hDate.symm.trans hNoDate) Bool.noConfusion

/-- The node that a wrapped string of digits is peeled down to is one by
itself. -/
theorem isIntegerString_peel (h : s.isIntegerString = true) :
    s.peel.schema.isIntegerString = true := by
  obtain ⟨members, marks, rfl⟩ := union_of_isIntegerString h
  obtain ⟨first, second, hMembers, hKinds⟩ := isIntegerString_iff.mp h
  rw [peel]
  split
  · next core hCore =>
    -- the two members are those of the only member that is left
    rw [flatMembers, filter_flatMap_splice, hCore, List.flatMap_cons, List.flatMap_nil,
      List.append_nil] at hMembers
    cases core with
    | union inner innerMarks =>
      refine isIntegerString_iff.mpr ⟨first, second, ?_, hKinds⟩
      rw [flatMembers, filter_flatMap_splice]
      exact hMembers ▸ flatMap_splice_pair hKinds
    | _ =>
      -- any other node stands for itself alone
      rw [splice, List.filter_cons] at hMembers
      · split at hMembers <;> cases hMembers
      · intro _ _ hEq
        cases hEq
  · exact h

/-- A string of digits is written raw, however it is wrapped. Its guard knows
the null and undefined members of the node and those of the node it wraps. -/
theorem node_of_isIntegerString (h : s.isIntegerString = true) :
    s.node =
      .scalar .raw (wideGuard s.peel.schema s s.peel.nullable s.peel.undefinable) := by
  have hCore := isIntegerString_peel h
  obtain ⟨members, marks, hUnion⟩ := union_of_isIntegerString hCore
  -- the core is a union that is not merged
  have hOther : s.node =
      otherNode s.peel.schema s s.peel.nullable s.peel.undefinable := by
    unfold node
    simp only [hUnion]
  have hNoDate : s.peel.schema.isDate = false := by
    rw [hUnion]
    rfl
  rw [hOther, otherNode, isDateLike_of_isIntegerString hCore, hNoDate, hCore]
  rfl

end JsonStencil.Schema
