import JsonStencil.Proofs.Computations
import JsonStencil.Proofs.Pruned
import JsonStencil.Proofs.Scope
import Mathlib.Data.List.Forall2
import Mathlib.Logic.Relation

/-!
# What a run sees of a value

A run looks a key up, asks whether there is anything under it, enters the
items of an array and writes texts. An entry that holds undefined shows in
none of these: looking it up gives what looking up a missing key gives, and
the generic text passes over it. So a plan, whether it has been compiled or
put together by hand, ends in the same way for two values that are the same
once such entries are left out.

Main definitions:

* `Value.SameContent` — equality but for entries that hold undefined.
* `Frame.SameContent` — the same for all that a run knows.
* `Value.Omits` — one such entry is left out, at any depth.

Main results:

* `get_pruned` — lookups pass over entries that hold undefined.
* `Step.run_sameContent` — what one step sees.
* `Plan.run_sameContent` — what a plan sees.
-/

namespace JsonStencil

namespace Value

/-! ## Writers -/

/-- Pruning makes nothing null that was not. -/
theorem isNull_pruned (v : Value) : v.pruned.isNull = v.isNull := by
  cases v <;> rfl

/-- A text that leaves arrays and objects to the generic text passes over
entries that hold undefined, as the generic text does. -/
theorem leafText_pruned (text : Value → String)
    (hArray : ∀ items, text (.array items) = (Value.array items).text)
    (hObject : ∀ entries, text (.object entries) = (Value.object entries).text) (v : Value) :
    text v.pruned = text v := by
  cases v with
  | array items =>
    have hGeneric := text_pruned (.array items)
    rw [pruned] at hGeneric ⊢
    rw [hArray, hArray, hGeneric]
  | object entries =>
    have hGeneric := text_pruned (.object entries)
    rw [pruned] at hGeneric ⊢
    rw [hObject, hObject, hGeneric]
  | _ => rfl

/-- A value between quotes is such a text. -/
theorem quotedText_pruned (escaping : Json.Escaping) (v : Value) :
    v.pruned.quotedText escaping = v.quotedText escaping :=
  leafText_pruned (quotedText escaping) (fun _ => rfl) (fun _ => rfl) v

/-- So is a value that is copied. -/
theorem rawText_pruned (escaping : Json.Escaping) (v : Value) :
    v.pruned.rawText escaping = v.rawText escaping :=
  leafText_pruned (rawText escaping) (fun _ => rfl) (fun _ => rfl) v

/-- So is a date. -/
theorem dateText_pruned (escaping : Json.Escaping) (v : Value) :
    v.pruned.dateText escaping = v.dateText escaping :=
  leafText_pruned (dateText escaping) (fun _ => rfl) (fun _ => rfl) v

/-- So does a join whose items are written in this way. -/
theorem joinedText_pruned {item : Value → String} (h : ∀ v : Value, item v.pruned = item v)
    (v : Value) : v.pruned.joinedText item = v.joinedText item := by
  cases v with
  | array items =>
    rw [pruned, prunedItems_eq_map, joinedText, joinedText, List.map_map]
    exact congrArg bracketed (List.map_congr_left fun entry _ => h entry)
  | object entries => exact text_pruned (.object entries)
  | _ => rfl

/-! ## Lookups -/

/-- Only undefined is undefined. -/
theorem eq_undefined {v : Value} (h : v.isUndefined = true) : v = .undefined := by
  cases v <;> first | rfl | cases h

/-- An entry that holds undefined is looked up like one that is missing. -/
theorem get_pruned {v : Value} (h : v.KeysDistinct) (key : String) :
    v.pruned.get key = (v.get key).pruned := by
  cases v with
  | object entries =>
    obtain ⟨hKeys, -⟩ := keysDistinct_object_iff.mp h
    have hKept := (keys_prunedEntries_sublist entries).nodup hKeys
    rw [pruned]
    rcases (Value.object (prunedEntries entries)).get_cases key with hNone | ⟨_, hSame, hEntry⟩
    · -- nothing is kept under the key: there was no entry, or it held undefined
      rcases (Value.object entries).get_cases key with hMissing | ⟨_, hSame, hEntry⟩
      · rw [hNone, hMissing]
        rfl
      · cases hSame
        cases hDefined : ((Value.object entries).get key).isUndefined with
        | true =>
          rw [hNone, eq_undefined hDefined]
          rfl
        | false => exact get_of_mem hKept (mem_prunedEntries.mpr ⟨_, hEntry, hDefined, rfl⟩)
    · cases hSame
      obtain ⟨value, hValue, -, hEq⟩ := mem_prunedEntries.mp hEntry
      rw [hEq, get_of_mem hKeys hValue]
  | _ => rfl

/-! ## The same content -/

/-- Values without repeated keys that are the same once the entries that hold
undefined are left out. -/
structure SameContent (v w : Value) : Prop where
  left : v.KeysDistinct
  right : w.KeysDistinct
  pruned_eq : v.pruned = w.pruned

namespace SameContent

variable {v w : Value}

/-- It makes no difference which of the two comes first. -/
theorem symm (h : v.SameContent w) : w.SameContent v := ⟨h.right, h.left, h.pruned_eq.symm⟩

/-- The slots of loops that have not begun hold the same. -/
theorem undefined : SameContent .undefined .undefined := ⟨trivial, trivial, rfl⟩

/-- A text that does not depend on entries that hold undefined is the same. -/
theorem text_eq (h : v.SameContent w) {text : Value → String}
    (hText : ∀ v : Value, text v.pruned = text v) : text v = text w := by
  rw [← hText v, h.pruned_eq, hText]

/-- Both are undefined or neither is. -/
theorem isUndefined_eq (h : v.SameContent w) : v.isUndefined = w.isUndefined := by
  rw [← isUndefined_pruned v, h.pruned_eq, isUndefined_pruned]

/-- A guard hits both or neither. -/
theorem hits_eq (h : v.SameContent w) (guard : Guard) : guard.hits v = guard.hits w := by
  have hNull : v.isNull = w.isNull := by rw [← isNull_pruned v, h.pruned_eq, isNull_pruned]
  rw [Guard.hits, Guard.hits, hNull, h.isUndefined_eq]

/-- Under a key both have something of the same content. -/
theorem get (h : v.SameContent w) (key : String) : (v.get key).SameContent (w.get key) :=
  ⟨h.left.get key, h.right.get key, by
    rw [← get_pruned h.left, ← get_pruned h.right, h.pruned_eq]⟩

/-- Lists have the same content item by item if they are pruned to the same
list. -/
theorem ofItems {entries others : List Value} (hLeft : ∀ entry ∈ entries, entry.KeysDistinct)
    (hRight : ∀ other ∈ others, other.KeysDistinct)
    (h : entries.map pruned = others.map pruned) : List.Forall₂ SameContent entries others := by
  -- along both lists; one that ends earlier would be pruned to a shorter list
  induction entries generalizing others with
  | nil =>
    cases others with
    | nil => exact .nil
    | cons _ _ => cases h
  | cons entry rest ih =>
    cases others with
    | nil => cases h
    | cons other more =>
      obtain ⟨hFirst, hRest⟩ := List.cons.inj h
      rw [List.forall_mem_cons] at hLeft hRight
      exact .cons ⟨hLeft.1, hRight.1, hFirst⟩ (ih hLeft.2 hRight.2 hRest)

/-- What has the content of an array is an array with as many items of the same
content. -/
theorem items {entries : List Value} (h : SameContent (.array entries) w) :
    ∃ others, w = .array others ∧ List.Forall₂ SameContent entries others := by
  -- what is pruned to an array is an array
  cases w with
  | array others =>
    refine ⟨others, rfl, ofItems (fun _ => h.left.item) (fun _ => h.right.item) ?_⟩
    rw [← prunedItems_eq_map, ← prunedItems_eq_map]
    exact array.inj h.pruned_eq
  | _ => cases h.pruned_eq

end SameContent

end Value

/-! ## Frames -/

section Entries

variable {α : Type} {R : α → α → Prop} {entries others : List α}

/-- Related lists are asked for an index with related answers. -/
theorem fetch_alike (h : List.Forall₂ R entries others) (index : Nat) :
    EndsAlike R (fetch entries index) (fetch others index) := by
  obtain ⟨hLength, hRelated⟩ := List.forall₂_iff_get.mp h
  -- within the lists there are related entries, beyond them the same failure
  by_cases hIndex : index < entries.length
  · rw [fetch_of_lt hIndex, fetch_of_lt (hLength ▸ hIndex)]
    exact .ok (hRelated index hIndex (hLength ▸ hIndex))
  · rw [fetch, fetch, List.getElem?_eq_none (Nat.le_of_not_lt hIndex),
      List.getElem?_eq_none (hLength ▸ Nat.le_of_not_lt hIndex), hLength]
    exact .error _

/-- They stay related when related entries are stored. -/
theorem store_alike (h : List.Forall₂ R entries others) (index : Nat) {entry other : α}
    (hEntry : R entry other) :
    EndsAlike (List.Forall₂ R) (store entries index entry) (store others index other) := by
  obtain ⟨hLength, hRelated⟩ := List.forall₂_iff_get.mp h
  rw [store, store, hLength]
  split
  · have hSame : (entries.set index entry).length = (others.set index other).length := by
      rw [List.length_set, List.length_set, hLength]
    refine .ok (List.forall₂_iff_get.mpr ⟨hSame, fun place hLeft hRight => ?_⟩)
    rw [List.get_eq_getElem, List.get_eq_getElem, List.getElem_set, List.getElem_set]
    split
    · exact hEntry
    · exact hRelated place _ _
  · exact .error _

end Entries

/-- Frames with the same flags and with values of the same content. -/
structure Frame.SameContent (f g : Frame) : Prop where
  root : f.root.SameContent g.root
  aliases : List.Forall₂ Value.SameContent f.aliases g.aliases
  items : List.Forall₂ Value.SameContent f.items g.items
  groups : f.groups = g.groups

/-- The same result, and frames of the same content after it. -/
def SameOutcome {α : Type} (left right : α × Frame) : Prop :=
  left.1 = right.1 ∧ left.2.SameContent right.2

namespace Frame.SameContent

variable {f g : Frame}

/-- A path leads to values of the same content, or fails alike. -/
theorem resolve (h : f.SameContent g) (path : Path) :
    EndsAlike Value.SameContent (path.resolve f) (path.resolve g) := by
  -- a path starts at the root, at an alias or at an item, and each key is one lookup more
  induction path with
  | root => exact .ok h.root
  | «alias» index => exact fetch_alike h.aliases index
  | item slot => exact fetch_alike h.items slot
  | field parent key ih => exact ih.map fun _ _ hValue => hValue.get key

/-- Frames keep their content when an item of the same content is stored. -/
theorem setItem (h : f.SameContent g) (slot : Nat) {item other : Value}
    (hItem : item.SameContent other) :
    EndsAlike SameContent (f.setItem slot item) (g.setItem slot other) :=
  (store_alike h.items slot hItem).map fun _ _ hItems => { h with items := hItems }

/-- And when a flag is set. -/
theorem setGroup (h : f.SameContent g) (group : Nat) (flag : Bool) :
    EndsAlike SameContent (f.setGroup group flag) (g.setGroup group flag) := by
  rw [Frame.setGroup, Frame.setGroup, h.groups]
  cases store g.groups group flag with
  | error e => exact .error e
  | ok groups => exact .ok { h with groups := rfl }

end Frame.SameContent

/-! ## Steps -/

section Runs

variable {escaping : Json.Escaping}

/-- A step that writes what it finds at a path leaves its frame alone. -/
theorem read_sameContent {f g : Frame} (h : f.SameContent g) (path : Path) {text : Value → String}
    (hText : ∀ v : Value, text v.pruned = text v) :
    EndsAlike SameOutcome ((path.resolve f) >>= fun v => .ok (text v, f))
      ((path.resolve g) >>= fun v => .ok (text v, g)) :=
  (h.resolve path).bind fun _ _ hValue => .ok ⟨hValue.text_eq hText, h⟩

/-- Loops run alike if their bodies do. -/
theorem overItems_sameContent (slot : Nat) {body : Frame → Except OutOfRange (String × Frame)}
    (hBody : ∀ f g : Frame, f.SameContent g → EndsAlike SameOutcome (body f) (body g))
    {entries others : List Value} (hItems : List.Forall₂ Value.SameContent entries others)
    {f g : Frame} (h : f.SameContent g) :
    EndsAlike SameOutcome (overItems slot body entries f) (overItems slot body others g) := by
  -- every item goes on from the frames that the items before it left
  induction hItems generalizing f g with
  | nil => exact .ok ⟨rfl, h⟩
  | cons hItem hRest ih =>
    refine (h.setItem slot hItem).bind fun entered other hEntered => ?_
    refine (hBody entered other hEntered).bind fun first second hFirst => ?_
    refine (ih hFirst.2).bind fun rest more hMore => ?_
    exact .ok ⟨by rw [hFirst.1, hMore.1], hMore.2⟩

mutual

/-- A step writes the same text from frames of the same content, leaves frames
of the same content, or fails alike. -/
theorem Step.run_sameContent : ∀ {f g : Frame}, f.SameContent g → ∀ step : Step,
    EndsAlike SameOutcome (Step.run escaping f step) (Step.run escaping g step)
  -- what writes without a choice is settled by its writer
  | _, _, h, .text literal => by
    rw [run, run]
    exact .ok ⟨rfl, h⟩
  | _, _, h, .quoted path => by
    rw [run, run]
    exact read_sameContent h path (Value.quotedText_pruned escaping)
  | _, _, h, .raw path => by
    rw [run, run]
    exact read_sameContent h path (Value.rawText_pruned escaping)
  | _, _, h, .date path => by
    rw [run, run]
    exact read_sameContent h path (Value.dateText_pruned escaping)
  | _, _, h, .generic path => by
    rw [run, run]
    exact read_sameContent h path Value.text_pruned
  | _, _, h, .joinQuoted path => by
    rw [run, run]
    exact read_sameContent h path (Value.joinedText_pruned (Value.quotedText_pruned escaping))
  | _, _, h, .joinRaw path => by
    rw [run, run]
    exact read_sameContent h path (Value.joinedText_pruned (Value.rawText_pruned escaping))
  | _, _, h, .reset group => by
    rw [run, run]
    exact (h.setGroup group false).bind fun _ _ hAfter => .ok ⟨rfl, hAfter⟩
  | f, g, h, .comma group => by
    -- the flags are the same, whatever the values
    rw [run, run, h.groups]
    cases fetch g.groups group with
    | error e => exact .error e
    | ok flag =>
      cases flag with
      | true => exact .ok ⟨rfl, h⟩
      | false => exact (h.setGroup group true).bind fun _ _ hAfter => .ok ⟨rfl, hAfter⟩
  -- where there is a choice, both frames choose the same branch
  | f, g, h, .guarded path guard steps => by
    rw [run, run]
    refine (h.resolve path).bind fun v w hValue => ?_
    rw [hValue.hits_eq guard]
    split
    · exact .ok ⟨rfl, h⟩
    · exact Step.runAll_sameContent h steps
  | f, g, h, .optional path present absent => by
    rw [run, run]
    refine (h.resolve path).bind fun v w hValue => ?_
    -- a key that is missing and one that holds undefined are both absent
    rw [hValue.isUndefined_eq]
    split
    · exact Step.runAll_sameContent h absent
    · exact Step.runAll_sameContent h present
  | f, g, h, .loop path slot item => by
    rw [run, run]
    refine (h.resolve path).bind fun v w hValue => ?_
    split
    · obtain ⟨others, rfl, hItems⟩ := hValue.items
      have hBody : ∀ entered other : Frame, entered.SameContent other →
          EndsAlike SameOutcome (Step.runAll escaping entered item)
            (Step.runAll escaping other item) :=
        fun _ _ hEntered => Step.runAll_sameContent hEntered item
      have hLoop := overItems_sameContent slot hBody hItems h
      exact hLoop.bind fun texts more hTexts => .ok ⟨congrArg bracketed hTexts.1, hTexts.2⟩
    · next hOther =>
      split
      · -- the one is no array, so neither is the other
        obtain ⟨entries, rfl, -⟩ := hValue.symm.items
        exact absurd rfl (hOther entries)
      · exact .ok ⟨hValue.text_eq Value.text_pruned, h⟩

/-- So do steps in turn. -/
theorem Step.runAll_sameContent : ∀ {f g : Frame}, f.SameContent g → ∀ steps : List Step,
    EndsAlike SameOutcome (Step.runAll escaping f steps) (Step.runAll escaping g steps)
  | _, _, h, [] => by
    rw [runAll, runAll]
    exact .ok ⟨rfl, h⟩
  | _, _, h, step :: rest => by
    rw [runAll, runAll]
    refine (Step.run_sameContent h step).bind fun first second hFirst => ?_
    refine (Step.runAll_sameContent hFirst.2 rest).bind fun others more hOthers => ?_
    exact .ok ⟨by rw [hFirst.1, hOthers.1], hOthers.2⟩

end

end Runs

/-! ## Plans -/

/-- Aliases are bound to values of the same content. -/
theorem Frame.bind_sameContent {f g : Frame} (h : f.SameContent g) (paths : List Path) :
    EndsAlike Frame.SameContent (f.bind paths) (g.bind paths) := by
  -- an alias may lead back through those that are bound before it
  induction paths generalizing f g with
  | nil =>
    rw [bind, bind]
    exact .ok h
  | cons path rest ih =>
    rw [bind, bind]
    refine (h.resolve path).bind fun v w hValue => ih { h with aliases := ?_ }
    exact List.rel_append h.aliases (.cons hValue .nil)

/-- Runs start from frames of the same content. -/
theorem Plan.emptyFrame_sameContent (p : Plan) {v w : Value} (h : v.SameContent w) :
    (p.emptyFrame v).SameContent (p.emptyFrame w) where
  root := h
  aliases := .nil
  items := List.forall₂_same.mpr fun item hItem => by
    rw [List.eq_of_mem_replicate hItem]
    exact .undefined
  groups := rfl

/-- A plan writes the same text for values of the same content, or fails
alike. -/
theorem Plan.run_sameContent (p : Plan) (escaping : Json.Escaping) {v w : Value}
    (h : v.SameContent w) : p.run escaping v = p.run escaping w := by
  refine EndsAlike.eq ?_
  rw [run, run]
  refine (Frame.bind_sameContent (p.emptyFrame_sameContent h) p.aliases).bind fun f g hBound => ?_
  refine (Step.runAll_sameContent hBound p.steps).bind fun written other hWritten => ?_
  exact .ok hWritten.1

/-! ## Leaving entries out -/

namespace Value

/-- One entry that holds undefined is left out of the value or of a value
somewhere inside it. -/
inductive Omits : Value → Value → Prop where
  | entry (before : List (String × Value)) (key : String) (after : List (String × Value)) :
    Omits (.object (before ++ (key, .undefined) :: after)) (.object (before ++ after))
  | inEntry (before : List (String × Value)) (key : String) {value rest : Value}
    (after : List (String × Value)) (h : Omits value rest) :
    Omits (.object (before ++ (key, value) :: after)) (.object (before ++ (key, rest) :: after))
  | inItem (before : List Value) {item rest : Value} (after : List Value) (h : Omits item rest) :
    Omits (.array (before ++ item :: after)) (.array (before ++ rest :: after))

/-- Entries are pruned one by one. -/
theorem prunedEntries_append (entries others : List (String × Value)) :
    prunedEntries (entries ++ others) = prunedEntries entries ++ prunedEntries others := by
  induction entries with
  | nil => rw [List.nil_append, prunedEntries, List.nil_append]
  | cons entry rest ih =>
    rw [List.cons_append, prunedEntries, prunedEntries, ih]
    split <;> rfl

namespace Omits

variable {v w : Value}

/-- Leaving out an entry makes nothing undefined. -/
theorem isUndefined_eq (h : Omits v w) : v.isUndefined = w.isUndefined := by
  cases h <;> rfl

/-- What is left out would be pruned anyway. -/
theorem pruned_eq (h : Omits v w) : v.pruned = w.pruned := by
  induction h with
  | entry before key after =>
    rw [pruned, pruned, prunedEntries_append, prunedEntries_append, prunedEntries]
    rfl
  | inEntry before key after h ih =>
    rw [pruned, pruned, prunedEntries_append, prunedEntries_append, prunedEntries, prunedEntries,
      h.isUndefined_eq, ih]
  | inItem before after h ih =>
    rw [pruned, pruned, prunedItems_eq_map, prunedItems_eq_map, List.map_append, List.map_append,
      List.map_cons, List.map_cons, ih]

/-- No key is repeated for that. -/
theorem keysDistinct (h : Omits v w) (hKeys : v.KeysDistinct) : w.KeysDistinct := by
  -- the derivation leads to the one place where an entry is left out
  induction h with
  | entry before key after =>
    rw [keysDistinct_object_iff, List.forall_mem_append] at hKeys ⊢
    rw [List.forall_mem_cons] at hKeys
    have hFewer : (before ++ after).Sublist (before ++ (key, .undefined) :: after) :=
      (List.sublist_cons_self _ after).append_left before
    exact ⟨(hFewer.map Prod.fst).nodup hKeys.1, hKeys.2.1, hKeys.2.2.2⟩
  | inEntry before key after h ih =>
    rw [keysDistinct_object_iff, List.forall_mem_append, List.forall_mem_cons] at hKeys ⊢
    obtain ⟨hNodup, hBefore, hValue, hAfter⟩ := hKeys
    refine ⟨?_, hBefore, ih hValue, hAfter⟩
    rwa [Fields.keys, List.map_append, List.map_cons] at hNodup ⊢
  | inItem before after h ih =>
    rw [keysDistinct_array_iff, List.forall_mem_append, List.forall_mem_cons] at hKeys ⊢
    exact ⟨hKeys.1, ih hKeys.2.1, hKeys.2.2⟩

/-- A value has the same content once some entries are left out. -/
theorem sameContent (h : Relation.ReflTransGen Omits v w) (hKeys : v.KeysDistinct) :
    v.SameContent w := by
  induction h with
  | refl => exact ⟨hKeys, hKeys, rfl⟩
  | tail _ hLast ih =>
    exact ⟨hKeys, hLast.keysDistinct ih.right, ih.pruned_eq.trans hLast.pruned_eq⟩

end Omits

end Value

end JsonStencil
