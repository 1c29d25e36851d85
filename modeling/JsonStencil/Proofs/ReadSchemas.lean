import JsonStencil.Proofs.LoadedSchemas

/-!
# Schemas read from text

A document that is read from text keyword by keyword is as settled as one
made of a JSON value: whatever its readers take in, documents inside it come
from the reader of documents one level further in, properties are put under
distinct keys, and a default is taken from a value that has been read. So a
schema loaded from the bytes of a file has all that a schema loaded from a
JSON value has.

Main results:

* `Document.ofBytes_settled` — a document that is read is settled.
* `Schema.ofDocumentBytes_loaded` — what is loaded of the bytes of a text.
-/

namespace JsonStencil

namespace Document

open Json (Cursor byte)

section Between

variable {α : Type} {c behind : Cursor}

/-- Every item that is read has been read by the reader of items. -/
theorem mem_readItems {item : Cursor → Except Fault (α × Cursor)} {fuel position : Nat}
    {items : List α} (h : readItems item fuel position c = .ok (items, behind)) :
    ∀ value ∈ items, ∃ before after, item before = .ok (value, after) := by
  -- each round reads one item, or finds the closing bracket
  induction fuel generalizing position c items with
  | zero => cases h
  | succ fuel ih =>
    obtain ⟨⟨more, between⟩, -, hMore⟩ := bind_inv h
    cases more with
    | false =>
      cases hMore
      exact nofun
    | true =>
      obtain ⟨⟨value, after⟩, hValue, hRest⟩ := bind_inv hMore
      obtain ⟨⟨others, rest⟩, hOthers, hEnd⟩ := bind_inv hRest
      cases hEnd
      exact List.forall_mem_cons.mpr ⟨⟨_, _, mapError_inv hValue⟩, ih hOthers⟩

/-- So has every member. -/
theorem mem_readMembers {reader : Cursor → Except Fault (α × Cursor)} {fuel : Nat} {first : Bool}
    {members : List (String × α)} (h : readMembers reader fuel first c = .ok (members, behind)) :
    ∀ entry ∈ members, ∃ before after, reader before = .ok (entry.2, after) := by
  -- by the turns of the loop, each of which reads one member
  induction fuel generalizing first c members with
  | zero => cases h
  | succ fuel ih =>
    obtain ⟨⟨key, between⟩, -, hMore⟩ := bind_inv h
    cases key with
    | none =>
      cases hMore
      exact nofun
    | some key =>
      obtain ⟨⟨_, colon⟩, -, hMore⟩ := bind_inv hMore
      obtain ⟨⟨value, after⟩, hValue, hRest⟩ := bind_inv hMore
      obtain ⟨⟨others, rest⟩, hOthers, hEnd⟩ := bind_inv hRest
      cases hEnd
      exact List.forall_mem_cons.mpr ⟨⟨_, _, mapError_inv hValue⟩, ih hOthers⟩

/-- What fails gives nothing. -/
theorem failNext_ne_ok {cause : Json.Cause} {a : α} : failNext c cause ≠ .ok a := nofun

/-- Nor does what has the wrong shape. -/
theorem misshapen_ne_ok {expected : Shape} {a : α} : misshapen expected c ≠ .ok a := by
  intro h
  obtain ⟨found, -, hEnd⟩ := bind_inv h
  exact nomatch hEnd

/-- An array has items of the reader only where there may be nested ones. -/
theorem mem_readArray {item : Option (Cursor → Except Fault (α × Cursor))} {items : List α}
    (h : readArray item c = .ok (items, behind)) :
    ∃ reader ∈ item, ∀ value ∈ items, ∃ before after, reader before = .ok (value, after) := by
  unfold readArray at h
  dsimp only at h
  split at h
  · cases item with
    | none => exact absurd h failNext_ne_ok
    | some reader => exact ⟨reader, rfl, mem_readItems h⟩
  · exact absurd h misshapen_ne_ok

/-- A map has distinct keys, and values of the reader. -/
theorem mem_readMap {reader : Option (Cursor → Except Fault (α × Cursor))}
    {fields : List (String × α)} (h : readMap reader c = .ok (fields, behind)) :
    ∃ value ∈ reader, ∃ members, fields = Fields.ofPairs members ∧
      ∀ entry ∈ members, ∃ before after, value before = .ok (entry.2, after) := by
  unfold readMap at h
  dsimp only at h
  split at h
  · cases reader with
    | none => exact absurd h failNext_ne_ok
    | some value =>
      obtain ⟨⟨members, after⟩, hMembers, hEnd⟩ := bind_inv h
      cases hEnd
      exact ⟨value, rfl, members, rfl, mem_readMembers hMembers⟩
  · exact absurd h misshapen_ne_ok

end Between

/-- Documents inside the value of a keyword are settled. -/
def Nesting.Settles (n : Nesting) : Prop :=
  ∀ reader ∈ n.document, ∀ (before after : Cursor) (d : Document),
    reader before = .ok (d, after) → d.Settled

section Keywords

variable {n : Nesting} {settle : Cursor → Json.Place} {d d' : Document} {c behind : Cursor}

/-- A value that is read first and then taken in leaves a document settled. -/
theorem readChecked_settled {keyword : Keyword} (hd : d.Settled)
    (h : readChecked n settle d keyword c = .ok (d', behind)) : d'.Settled := by
  obtain ⟨⟨value, after⟩, -, hMore⟩ := bind_inv h
  dsimp only at hMore
  split at hMore
  · next taken hTaken =>
    cases hMore
    exact withKeyword_settled value hd hTaken
  · cases hMore

/-- One more keyword leaves a document settled. -/
theorem readKeyword_settled (hn : n.Settles) {keyword : Keyword} (hd : d.Settled)
    (h : readKeyword n settle d keyword c = .ok (d', behind)) : d'.Settled := by
  have hDocuments {items : List Document} {before after : Cursor}
      (hRead : readArray n.document before = .ok (items, after)) :
      ∀ item ∈ items, item.Settled := by
    obtain ⟨reader, hReader, hItems⟩ := mem_readArray hRead
    intro item hItem
    obtain ⟨_, _, hItem⟩ := hItems item hItem
    exact hn reader hReader _ _ _ hItem
  unfold readKeyword at h
  dsimp only at h
  split at h
  · -- null leaves the document as it is
    obtain ⟨read, -, hEq⟩ := map_inv (mapError_inv h)
    cases hEq
    exact hd
  · -- only keywords with documents inside need what is known of those
    cases keyword with
    | type | additionalProperties | items | default => exact readChecked_settled hd h
    | properties =>
      obtain ⟨⟨fields, after⟩, hFields, hEnd⟩ := bind_inv h
      cases hEnd
      obtain ⟨reader, hReader, members, rfl, hMembers⟩ := mem_readMap hFields
      refine hd.withProperties fun entry hEntry => ?_
      obtain ⟨_, _, hRead⟩ := hMembers entry hEntry
      exact hn reader hReader _ _ _ hRead
    | anyOf =>
      obtain ⟨⟨members, after⟩, hMembers, hEnd⟩ := bind_inv h
      cases hEnd
      exact hd.withAnyOf (hDocuments hMembers)
    | allOf =>
      obtain ⟨⟨members, after⟩, hMembers, hEnd⟩ := bind_inv h
      cases hEnd
      exact hd.withAllOf (hDocuments hMembers)
    | patternProperties | required | prefixItems | format =>
      obtain ⟨⟨_, after⟩, -, hEnd⟩ := bind_inv h
      cases hEnd
      exact hd.congr rfl rfl rfl rfl rfl

/-- The keywords of an object leave it settled. -/
theorem readKeywords_settled (hn : n.Settles) {fuel : Nat} {seen : List Keyword} {first : Bool}
    (hd : d.Settled) (h : readKeywords n fuel seen first d c = .ok (d', behind)) : d'.Settled := by
  induction fuel generalizing seen first d c with
  | zero => cases h
  | succ fuel ih =>
    obtain ⟨⟨key, between⟩, -, hMore⟩ := bind_inv h
    cases key with
    | none =>
      cases hMore
      exact hd
    | some key =>
      dsimp only at hMore
      -- an unknown keyword is passed over, a repeated one is an error
      split at hMore
      · obtain ⟨⟨_, colon⟩, -, hMore⟩ := bind_inv hMore
        obtain ⟨⟨_, skipped⟩, -, hRest⟩ := bind_inv hMore
        exact ih hd hRest
      · split at hMore
        · cases hMore
        · obtain ⟨⟨_, colon⟩, -, hMore⟩ := bind_inv hMore
          obtain ⟨⟨taken, after⟩, hTaken, hRest⟩ := bind_inv hMore
          exact ih (readKeyword_settled hn hd (mapError_inv hTaken)) hRest

/-- So do the values of an array. -/
theorem readPositions_settled (hn : n.Settles) {keywords : List Keyword} {position : Nat}
    (hd : d.Settled) (h : readPositions n keywords position d c = .ok (d', behind)) :
    d'.Settled := by
  -- by the keywords that are left
  induction keywords generalizing position d c with
  | nil =>
    obtain ⟨read, -, hEq⟩ := map_inv h
    cases hEq
    exact hd
  | cons keyword others ih =>
    obtain ⟨⟨more, between⟩, -, hMore⟩ := bind_inv h
    cases more with
    | false => cases hMore
    | true =>
      obtain ⟨⟨taken, after⟩, hTaken, hRest⟩ := bind_inv hMore
      exact ih (readKeyword_settled hn hd (mapError_inv hTaken)) hRest

end Keywords

/-- How a document that may be nested is read inside. -/
def nestingBelow (depth : Nat) : Nesting where
  depth := depth
  document := match depth with
    | 0 => none
    | deeper + 1 => some (readDocument deeper)

/-- No document is read at the last level. -/
theorem readDocument_zero (c : Cursor) :
    readDocument 0 c =
      if c.skipBlanks.peek = some (byte '\x7b') ∨ c.skipBlanks.peek = some (byte '[') then
        failNext c.skipBlanks .recursionLimit
      else misshapen .document c.skipBlanks := rfl

/-- A document is an object of keywords or an array of their values. -/
theorem readDocument_succ (depth : Nat) (c : Cursor) :
    readDocument (depth + 1) c =
      if c.skipBlanks.peek = some (byte '\x7b') then
        readKeywords (nestingBelow depth) (c.skipBlanks.rest.length + 1) [] true {}
          c.skipBlanks.advance
      else if c.skipBlanks.peek = some (byte '[') then
        readPositions (nestingBelow depth) Keyword.all 0 {} c.skipBlanks.advance
      else misshapen .document c.skipBlanks := by
  cases depth <;> rfl

/-- A document that is read is settled. -/
theorem readDocument_settled {depth : Nat} {c behind : Cursor} {d : Document}
    (h : readDocument depth c = .ok (d, behind)) : d.Settled := by
  induction depth using Nat.strongRecOn generalizing c behind d with
  | ind depth ih =>
    cases depth with
    | zero =>
      rw [readDocument_zero] at h
      split at h
      · exact absurd h failNext_ne_ok
      · exact absurd h misshapen_ne_ok
    | succ depth =>
      -- a document inside is read with two levels less: its keyword takes one as well
      have hn : (nestingBelow depth).Settles := by
        intro reader hReader before after inner hRead
        cases depth with
        | zero => cases hReader
        | succ deeper =>
          cases hReader
          exact ih deeper (by omega) hRead
      rw [readDocument_succ] at h
      split at h
      · exact readKeywords_settled hn settled_empty h
      · split at h
        · exact readPositions_settled hn settled_empty h
        · exact absurd h misshapen_ne_ok

/-- The document of the bytes of a text is settled. -/
theorem ofBytes_settled {bytes : List UInt8} {d : Document} (h : ofBytes bytes = .ok d) :
    d.Settled := by
  obtain ⟨read, hRead, rfl⟩ := map_inv h
  exact readDocument_settled hRead

end Document

/-- What is loaded of the bytes of a text. -/
theorem Schema.ofDocumentBytes_loaded {bytes : List UInt8} {s : Schema}
    (h : ofDocumentBytes bytes = .ok s) : s.LoadedAlone := by
  obtain ⟨d, hDocument, hLoad⟩ := bind_inv h
  exact loadsWell_of_settled (Document.ofBytes_settled (mapError_inv hDocument)) [] s hLoad

end JsonStencil
