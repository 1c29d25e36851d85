import JsonStencil.Proofs.Allocation
import JsonStencil.Proofs.Direct

/-!
# Plans write the direct text

The plan of a schema writes what the schema gives the value directly. The
steps of a node run in a frame that serves what was handed out for them:
there are flags, slots and aliases enough, and every alias stands for the
value that its path finds. What the flags and slots hold when the steps begin
does not matter. The steps leave alone every flag and slot that had been
handed out before, so that an object may go on with its own flag after each
field, and a loop with its own slot inside each item.

The commas of an object are literal or hang on its flag, by what is known
when the plan is made. In both cases a comma is written exactly when a field
has been written before.

Main definitions:

* `Frame.Serves` — a frame in which the steps of a node may run.
* `Frame.Keeps` — what the steps leave alone.
* `CommaDue` — the state of the commas between two fields.

Main results:

* `compileFields_run` — fields write their texts with commas between.
* `compile_run` — the steps of a node write the direct text.
* `ofSchema_run` — so does the plan of a schema.
-/

namespace JsonStencil

/-! ## Frames that serve an allocation -/

/-- A frame with the flags and slots of an allocation, in which every alias
stands for the value of its path. -/
structure Frame.Serves (f : Frame) (a : Allocation) : Prop where
  groups : a.groups ≤ f.groups.length
  loops : a.loops ≤ f.items.length
  inScope : AliasesInScope a.hoisted
  aliases : ∀ (index : Nat) (path : Path), a.hoisted[index]? = some path →
    ∃ v, path.resolve f = .ok v ∧ fetch f.aliases index = .ok v

/-- A frame that differs from another one at most in the slots and flags from
some numbers on. -/
structure Frame.Keeps (loops groups : Nat) (f g : Frame) : Prop where
  root : g.root = f.root
  aliases : g.aliases = f.aliases
  itemCount : g.items.length = f.items.length
  groupCount : g.groups.length = f.groups.length
  items : ∀ slot < loops, fetch g.items slot = fetch f.items slot
  groups : ∀ group < groups, fetch g.groups group = fetch f.groups group

/-- Setting one place leaves the others alone. -/
theorem fetch_set_of_ne {α : Type} {entries : List α} {index other : Nat} (h : index ≠ other)
    (entry : α) : fetch (entries.set index entry) other = fetch entries other := by
  rw [fetch, fetch, List.getElem?_set_ne h, List.length_set]

/-- What was set is found there. -/
theorem fetch_set_self {α : Type} {entries : List α} {index : Nat} (h : index < entries.length)
    (entry : α) : fetch (entries.set index entry) index = .ok entry := by
  rw [fetch, List.getElem?_set_self h]

namespace Frame

variable {loops groups : Nat} {f g h : Frame}

theorem Keeps.refl (loops groups : Nat) (f : Frame) : f.Keeps loops groups f :=
  ⟨rfl, rfl, rfl, rfl, fun _ _ => rfl, fun _ _ => rfl⟩

/-- Along two runs the same slots and flags are left alone. -/
theorem Keeps.trans (hFirst : f.Keeps loops groups g) (hSecond : g.Keeps loops groups h) :
    f.Keeps loops groups h where
  root := hSecond.root.trans hFirst.root
  aliases := hSecond.aliases.trans hFirst.aliases
  itemCount := hSecond.itemCount.trans hFirst.itemCount
  groupCount := hSecond.groupCount.trans hFirst.groupCount
  items := fun slot hSlot => (hSecond.items slot hSlot).trans (hFirst.items slot hSlot)
  groups := fun group hGroup => (hSecond.groups group hGroup).trans (hFirst.groups group hGroup)

/-- What leaves more alone leaves less alone. -/
theorem Keeps.mono (hKeeps : f.Keeps loops groups g) {fewerLoops fewerGroups : Nat}
    (hLoops : fewerLoops ≤ loops) (hGroups : fewerGroups ≤ groups) :
    f.Keeps fewerLoops fewerGroups g where
  root := hKeeps.root
  aliases := hKeeps.aliases
  itemCount := hKeeps.itemCount
  groupCount := hKeeps.groupCount
  items := fun slot hSlot => hKeeps.items slot (Nat.lt_of_lt_of_le hSlot hLoops)
  groups := fun group hGroup => hKeeps.groups group (Nat.lt_of_lt_of_le hGroup hGroups)

/-- Setting a flag leaves the earlier ones alone. -/
theorem keeps_setGroup {group : Nat} (hGroup : groups ≤ group) (flag : Bool) :
    f.Keeps loops groups { f with groups := f.groups.set group flag } where
  root := rfl
  aliases := rfl
  itemCount := rfl
  groupCount := List.length_set ..
  items := fun _ _ => rfl
  groups := fun other hOther => fetch_set_of_ne (by omega) flag

/-- Setting the item of a slot leaves the earlier ones alone. -/
theorem keeps_setItem {slot : Nat} (hSlot : loops ≤ slot) (item : Value) :
    f.Keeps loops groups { f with items := f.items.set slot item } where
  root := rfl
  aliases := rfl
  itemCount := List.length_set ..
  groupCount := rfl
  items := fun other hOther => fetch_set_of_ne (by omega) item
  groups := fun _ _ => rfl

/-- A frame with what was handed out later serves what was handed out earlier.
-/
theorem Serves.ofExtends {a b : Allocation} (hServes : f.Serves b) (hExtends : a.Extends b)
    (hScope : AliasesInScope a.hoisted) : f.Serves a where
  groups := Nat.le_trans hExtends.groups hServes.groups
  loops := Nat.le_trans hExtends.loops hServes.loops
  inScope := hScope
  aliases := by
    intro index path hPath
    obtain ⟨later, hLater⟩ := hExtends.hoisted
    refine hServes.aliases index path ?_
    rw [← hLater, List.getElem?_append_left (List.getElem?_eq_some_iff.mp hPath).1]
    exact hPath

/-- Flags and slots may be set meanwhile, since only their number counts. -/
theorem Serves.ofKeeps {a : Allocation} (hServes : f.Serves a) (hKeeps : f.Keeps loops groups g) :
    g.Serves a where
  groups := hKeeps.groupCount ▸ hServes.groups
  loops := hKeeps.itemCount ▸ hServes.loops
  inScope := hServes.inScope
  aliases := by
    intro index path hPath
    obtain ⟨v, hResolve, hFetch⟩ := hServes.aliases index path hPath
    refine ⟨v, ?_, by rw [hKeeps.aliases, hFetch]⟩
    rw [← hResolve]
    exact Path.resolve_congr (hServes.inScope index path hPath) hKeeps.root
      (fun other _ => by rw [hKeeps.aliases]) (fun _ hSlot => absurd hSlot List.not_mem_nil)

end Frame

/-- A frame that finds a value at a path, the path being in scope of an
allocation inside some loops. -/
structure Frame.Finds (f : Frame) (items : List Nat) (path : Path) (a : Allocation) (v : Value) :
    Prop where
  aliases : AliasesInScope a.hoisted
  inScope : path.InScope (a.scope items)
  slots : ∀ slot ∈ items, slot < a.loops
  value : path.resolve f = .ok v

namespace Frame.Finds

variable {f g : Frame} {items : List Nat} {path : Path} {a b : Allocation} {v : Value}

/-- The value is still there after steps that leave the slots alone. -/
theorem ofKeeps {groups : Nat} (hFinds : f.Finds items path a v)
    (hKeeps : f.Keeps a.loops groups g) : g.Finds items path a v where
  aliases := hFinds.aliases
  inScope := hFinds.inScope
  slots := hFinds.slots
  value := by
    rw [← hFinds.value]
    exact Path.resolve_congr hFinds.inScope hKeeps.root (fun index _ => by rw [hKeeps.aliases])
      (fun slot hSlot => hKeeps.items slot (hFinds.slots slot hSlot))

/-- More may be handed out meanwhile. -/
theorem ofExtends (hFinds : f.Finds items path a v) (hExtends : a.Extends b)
    (hAliases : AliasesInScope b.hoisted) : f.Finds items path b v where
  aliases := hAliases
  inScope := hFinds.inScope.mono (hExtends.within items)
  slots := fun slot hSlot => Nat.lt_of_lt_of_le (hFinds.slots slot hSlot) hExtends.loops
  value := hFinds.value

/-- A property is found where it is read, be it through an alias. -/
theorem property (hFinds : f.Finds items path a v) (key : String) (s : Schema)
    (hServes : f.Serves (Schema.propertyPath s (path.field key) a).2) :
    f.Finds items (Schema.propertyPath s (path.field key) a).1
      (Schema.propertyPath s (path.field key) a).2 (v.get key) := by
  have hName : (path.field key).resolve f = .ok (v.get key) := by
    rw [Path.resolve, hFinds.value]
    rfl
  obtain ⟨hAliases, hScope⟩ := Schema.propertyPath_inScope s (path.field key) hFinds.aliases
    hFinds.inScope
  have hExtends := Schema.propertyPath_extends s (path.field key) a
  refine ⟨hAliases, hScope, fun slot hSlot =>
    Nat.lt_of_lt_of_le (hFinds.slots slot hSlot) hExtends.loops, ?_⟩
  rcases Schema.propertyPath_cases s (path.field key) a with h | ⟨h, -⟩
  · rw [h]
    exact hName
  · -- the alias that was just bound stands for the value under the key
    rw [h] at hServes ⊢
    obtain ⟨w, hResolve, hFetch⟩ := hServes.aliases a.hoisted.length (path.field key)
      List.getElem?_concat_length
    rw [hName] at hResolve
    cases hResolve
    exact hFetch

end Frame.Finds

/-! ## Runs -/

/-- The steps write a text and leave the earlier slots and flags alone. -/
def Writes (escaping : Json.Escaping) (loops groups : Nat) (f : Frame) (steps : List Step)
    (text : String) : Prop :=
  ∃ g, Step.runAll escaping f steps = .ok (text, g) ∧ f.Keeps loops groups g

section Writes

variable {escaping : Json.Escaping} {loops groups : Nat} {f : Frame}

/-- A step that leaves the frame as it is leaves everything alone. -/
theorem Writes.ofStep {step : Step} {text : String}
    (h : Step.run escaping f step = .ok (text, f)) :
    Writes escaping loops groups f (Fragment.of step).steps text :=
  ⟨f, by rw [Fragment.runAll_of, h], Frame.Keeps.refl ..⟩

/-- A guard writes its fallback or what stands behind it. -/
theorem Writes.guarded {fragment : Fragment} {text : String} {path : Path} {v : Value}
    (h : Writes escaping loops groups f fragment.steps text) (hPath : path.resolve f = .ok v)
    (guard : Option Guard) :
    Writes escaping loops groups f (fragment.guarded path guard).steps
      (guardedText guard v text) := by
  cases guard with
  | none => exact h
  | some guard =>
    obtain ⟨g, hRun, hKeeps⟩ := h
    rw [Fragment.guarded, Writes, Fragment.runAll_of, Step.run, hPath, guardedText]
    simp only [bind, Except.bind]
    split
    · exact ⟨f, rfl, Frame.Keeps.refl ..⟩
    · exact ⟨g, hRun, hKeeps⟩

end Writes

/-! ## Commas -/

/-- Texts behind one another with a comma before each; before the first one
only if something was written already. -/
def continued : Bool → List String → String
  | _, [] => ""
  | started, text :: rest => (if started then "," else "") ++ text ++ continued true rest

/-- From the start on, texts are separated by commas. -/
theorem continued_false (texts : List String) : continued false texts = commaSep texts := by
  have hStarted : ∀ (text : String) (rest : List String),
      text ++ continued true rest = commaSep (text :: rest) := by
    intro text rest
    induction rest generalizing text with
    | nil => rw [continued, commaSep, String.append_empty]
    | cons next rest ih =>
      rw [continued, commaSep, ← ih next, if_pos rfl, String.append_assoc, String.append_assoc]
  cases texts with
  | nil => rfl
  | cons text rest =>
    rw [continued, ← hStarted, if_neg Bool.false_ne_true, String.empty_append]

/-- Texts behind others have a comma in front if any was written. -/
theorem continued_append (started : Bool) (first second : List String) :
    continued started (first ++ second) =
      continued started first ++ continued (started || !first.isEmpty) second := by
  induction first generalizing started with
  | nil =>
    rw [List.nil_append, continued, List.isEmpty_nil, Bool.not_true, Bool.or_false,
      String.empty_append]
  | cons text rest ih =>
    rw [List.cons_append, continued, continued, ih, List.isEmpty_cons, Bool.not_false,
      Bool.or_true, Bool.true_or, String.append_assoc, String.append_assoc, String.append_assoc]

/-- Whether a field has been written, by what is known when the plan is made
or else by the flag of the object. -/
def CommaDue (f : Frame) (placed : Bool) (group : Option Nat) (started : Bool) : Prop :=
  match placed, group with
  | true, _ => started = true
  | false, some flag => fetch f.groups flag = .ok started
  | false, none => started = false

/-- A flag of an object, with numbers of flags that had been handed out
before it. -/
structure FlagAbove (floor : Nat) (a : Allocation) (group : Option Nat) : Prop where
  base : floor ≤ a.groups
  above : ∀ flag, group = some flag → floor ≤ flag
  handed : ∀ flag, group = some flag → flag < a.groups

/-- The flag is the same when more is handed out. -/
theorem FlagAbove.ofExtends {floor : Nat} {a b : Allocation} {group : Option Nat}
    (h : FlagAbove floor a group) (hExtends : a.Extends b) : FlagAbove floor b group where
  base := Nat.le_trans h.base hExtends.groups
  above := h.above
  handed := fun flag hFlag => Nat.lt_of_lt_of_le (h.handed flag hFlag) hExtends.groups

/-- The commas are as before after steps that leave the flag alone. -/
theorem CommaDue.ofKeeps {f g : Frame} {placed started : Bool} {group : Option Nat}
    {loops groups : Nat} (h : CommaDue f placed group started) (hKeeps : f.Keeps loops groups g)
    (hFlag : ∀ flag, group = some flag → flag < groups) : CommaDue g placed group started := by
  cases placed with
  | true => exact h
  | false =>
    cases group with
    | none => exact h
    | some flag => exact (hKeeps.groups flag (hFlag flag rfl)).trans h

section Fields

variable {escaping : Json.Escaping} {loops floor : Nat} {f : Frame} {a : Allocation}
  {group : Option Nat} {placed started : Bool}

/-- A separator writes the comma that is due. Behind it a comma is due unless
the object does without a flag. -/
theorem separator_run (hServes : f.Serves a) (hFlag : FlagAbove floor a group)
    (hDue : CommaDue f placed group started) :
    ∃ g, Step.runAll escaping f (Schema.separator placed group).steps =
        .ok (if started then "," else "", g) ∧
      f.Keeps loops floor g ∧ (group.isSome ∨ placed → CommaDue g placed group true) := by
  cases placed with
  | true =>
    cases (hDue : started = true)
    exact ⟨f, Step.runAll_text f ",", Frame.Keeps.refl .., fun _ => rfl⟩
  | false =>
    cases group with
    | none =>
      cases (hDue : started = false)
      exact ⟨f, Step.runAll_nil f, Frame.Keeps.refl .., fun h => by simp at h⟩
    | some flag =>
      have hRange := Nat.lt_of_lt_of_le (hFlag.handed flag rfl) hServes.groups
      have hDueFlag : fetch f.groups flag = .ok started := hDue
      rw [Schema.separator, Fragment.runAll_of, Step.run, hDueFlag, Frame.setGroup_of_lt hRange]
      cases started with
      | true => exact ⟨f, rfl, Frame.Keeps.refl .., fun _ => hDue⟩
      | false =>
        -- the first field writes no comma but switches the flag on
        exact ⟨_, rfl, Frame.keeps_setGroup (hFlag.above flag rfl) true,
          fun _ => fetch_set_self hRange true⟩

end Fields

/-! ## Fields -/

namespace Schema

/-- In every frame that serves them, the steps of a node write the direct
text and leave alone what was handed out before. -/
def Simulates (escaping : Json.Escaping) (s : Schema) : Prop :=
  ∀ (items : List Nat) (path : Path) (a : Allocation) (f : Frame) (v : Value),
    f.Finds items path a v → f.Serves (s.compile path a).2 →
    Writes escaping a.loops a.groups f (s.compile path a).1.steps (s.direct escaping v)

section Fields

variable {escaping : Json.Escaping} {floor : Nat} {f : Frame} {items : List Nat} {path : Path}
  {a : Allocation} {v : Value} {group : Option Nat} {placed started : Bool}

/-- A field writes the comma that is due, its label and its value. -/
theorem compileField_run {key : String} {property : Schema}
    (hProperty : property.Simulates escaping) (hFinds : f.Finds items path a v)
    (hServes : f.Serves (compileField key property path group placed a).2)
    (hFlag : FlagAbove floor a group) (hDue : CommaDue f placed group started) :
    ∃ g, Step.runAll escaping f (compileField key property path group placed a).1.steps =
        .ok ((if started then "," else "") ++ (label key ++ property.direct escaping (v.get key)),
          g) ∧
      f.Keeps a.loops floor g ∧ (group.isSome ∨ placed → CommaDue g placed group true) := by
  have hGrows := propertyPath_extends property (path.field key) a
  have hBound := (propertyPath_inScope property (path.field key) hFinds.aliases hFinds.inScope).1
  have hSource := hServes.ofExtends (compile_extends property _ _) hBound
  -- the separator, then the label, then the value in the frame the separator leaves
  obtain ⟨g, hSeparator, hSepKeeps, hSepDue⟩ :=
    separator_run hSource (hFlag.ofExtends hGrows) hDue
  obtain ⟨h, hValue, hKeeps⟩ := hProperty items _ _ g (v.get key)
    ((hFinds.property key property hSource).ofKeeps hSepKeeps) (hServes.ofKeeps hSepKeeps)
  have hLabel : Step.runAll escaping f ((separator placed group).addText (label key)).steps =
      .ok ((if started then "," else "") ++ label key, g) := by
    rw [Fragment.runAll_addText]
    exact Step.runAll_append_ok hSeparator (Step.runAll_text g (label key))
  refine ⟨h, ?_, ?_, fun hSome => ?_⟩
  · rw [compileField, Fragment.runAll_appendFragment, ← String.append_assoc]
    exact Step.runAll_append_ok hLabel hValue
  · exact (hSepKeeps.mono hGrows.loops (Nat.le_refl _)).trans
      (hKeeps.mono hGrows.loops (Nat.le_trans hFlag.base hGrows.groups))
  · exact (hSepDue hSome).ofKeeps hKeeps (hFlag.ofExtends hGrows).handed

/-- An absent field writes its default if it has one. -/
theorem absentField_run (escaping : Json.Escaping) (key : String) (property : Schema)
    (hServes : f.Serves a)
    (hFlag : FlagAbove floor a group) (hDue : CommaDue f placed group started)
    (hSome : group.isSome ∨ placed) :
    ∃ g, Step.runAll escaping f (absentField placed group key property).steps =
        .ok (continued started
          (property.default.map fun default => label key ++ default.text).toList, g) ∧
      f.Keeps a.loops floor g ∧
      CommaDue g placed group (started || property.default.isSome) := by
  unfold absentField
  -- without a default nothing is written, and the commas stay as they are
  cases property.default with
  | none =>
    refine ⟨f, Step.runAll_nil f, Frame.Keeps.refl .., ?_⟩
    rw [Option.isSome_none, Bool.or_false]
    exact hDue
  | some default =>
    obtain ⟨g, hSeparator, hKeeps, hSepDue⟩ := separator_run hServes hFlag hDue
    refine ⟨g, ?_, hKeeps, ?_⟩
    · rw [Fragment.runAll_addText, Step.runAll_append, Fragment.runAll_addText,
        Step.runAll_append_ok hSeparator (Step.runAll_text g (label key))]
      simp only [Except.bind, Step.runAll_text, Option.map_some, Option.toList_some, continued,
        String.append_assoc, String.append_empty]
    · rw [Option.isSome_some, Bool.or_true]
      exact hSepDue hSome

/-- A property that may be absent writes its field or nothing, by the value
that is found. -/
theorem optionalField_run {key : String} {property : Schema}
    (hProperty : property.Simulates escaping) (hDefined : property.isUndefined = false)
    (hOptional : property.optional = true) (hFinds : f.Finds items path a v)
    (hServes : f.Serves (compileField key property path group placed a).2)
    (hFlag : FlagAbove floor a group) (hDue : CommaDue f placed group started)
    (hSome : group.isSome ∨ placed) :
    ∃ g, Step.run escaping f (.optional (propertyPath property (path.field key) a).1
          (compileField key property path group placed a).1.steps
          (absentField placed group key property).steps) =
        .ok (continued started (directField escaping key property v), g) ∧
      f.Keeps a.loops floor g ∧
      CommaDue g placed group (started || !(directField escaping key property v).isEmpty) := by
  have hGrows := propertyPath_extends property (path.field key) a
  have hBound := (propertyPath_inScope property (path.field key) hFinds.aliases hFinds.inScope).1
  have hSource := hServes.ofExtends (compile_extends property _ _) hBound
  have hValue := (hFinds.property key property hSource).value
  rw [Step.run, hValue]
  simp only [bind, Except.bind, directField, hDefined, hOptional, Bool.true_and,
    Bool.false_eq_true, if_false]
  -- the steps for the default or those for the value
  cases hAbsent : (v.get key).isUndefined with
  | true =>
    obtain ⟨g, hRun, hKeeps, hDueAfter⟩ := absentField_run escaping key property
      (hSource.ofExtends hGrows hFinds.aliases) hFlag hDue hSome
    simp only [if_true]
    refine ⟨g, hRun, hKeeps, ?_⟩
    cases hDefault : property.default with
    | none => simpa [hDefault] using hDueAfter
    | some default => simpa [hDefault] using hDueAfter
  | false =>
    obtain ⟨g, hRun, hKeeps, hDueAfter⟩ := compileField_run hProperty hFinds hServes hFlag hDue
    simp only [Bool.false_eq_true, if_false]
    refine ⟨g, ?_, hKeeps, ?_⟩
    · rw [hRun, continued, continued, String.append_empty]
    · rw [List.isEmpty_cons, Bool.not_false, Bool.or_true]
      exact hDueAfter hSome

/-- Fields write their texts, with a comma in front of each field behind
another one. -/
theorem compileFields_run {properties : List (String × Schema)}
    (hParts : ∀ part ∈ properties.map Prod.snd, part.Simulates escaping)
    (hFinds : f.Finds items path a v)
    (hServes : f.Serves (compileFields properties path group placed a).2)
    (hFlag : FlagAbove floor a group) (hDue : CommaDue f placed group started)
    (hSome : ∀ part ∈ properties.map Prod.snd, part.optional = true → group.isSome) :
    ∃ g, Step.runAll escaping f (compileFields properties path group placed a).1.steps =
        .ok (continued started (directFields escaping properties v), g) ∧
      f.Keeps a.loops floor g := by
  -- the state of the commas changes from field to field, and the frame with it
  induction properties generalizing placed started a f with
  | nil =>
    rw [compileFields_nil, directFields]
    exact ⟨f, Step.runAll_nil f, Frame.Keeps.refl ..⟩
  | cons entry rest ih =>
    obtain ⟨key, property⟩ := entry
    -- the field, what it hands out, and what the fields behind it hand out
    have hProperty := hParts property (List.mem_cons_self ..)
    have hTail : ∀ part ∈ rest.map Prod.snd, part.Simulates escaping :=
      fun part hPart => hParts part (List.mem_cons_of_mem _ hPart)
    have hTailSome : ∀ part ∈ rest.map Prod.snd, part.optional = true → group.isSome :=
      fun part hPart => hSome part (List.mem_cons_of_mem _ hPart)
    have hGrows := compileField_extends (compile_extends property) key path group placed a
    have hBound := (compileField_inScope (compile_inScope property) hFinds.aliases hFinds.inScope
      hFlag.handed key placed).aliases
    have hRestGrows := fun later => compileFields_extends rest (fun part _ => compile_extends part)
      path group later (compileField key property path group placed a).2
    rw [directFields_cons]
    cases hUndefined : property.isUndefined with
    | true =>
      rw [compileFields_undefined _ _ _ _ _ hUndefined] at hServes ⊢
      rw [directField, hUndefined, if_pos rfl, List.nil_append]
      exact ih hTail hFinds hServes hFlag hDue hTailSome
    | false =>
      cases hOptional : property.optional with
      | false =>
        rw [compileFields_required _ _ _ _ _ hUndefined hOptional] at hServes ⊢
        have hFieldServes := hServes.ofExtends (hRestGrows true) hBound
        obtain ⟨g, hField, hKeeps, -⟩ := compileField_run hProperty hFinds hFieldServes hFlag hDue
        -- every comma behind this field is certain
        have hCertain : CommaDue g true group true := rfl
        obtain ⟨h, hRest, hRestKeeps⟩ := ih hTail
          ((hFinds.ofKeeps hKeeps).ofExtends hGrows hBound) (hServes.ofKeeps hKeeps)
          (hFlag.ofExtends hGrows) hCertain hTailSome
        refine ⟨h, ?_, hKeeps.trans (hRestKeeps.mono hGrows.loops (Nat.le_refl _))⟩
        rw [Fragment.runAll_appendFragment, Step.runAll_append_ok hField hRest, directField,
          hUndefined, hOptional]
        rfl
      | true =>
        rw [compileFields_optional _ _ _ _ _ hUndefined hOptional] at hServes ⊢
        have hFieldServes := hServes.ofExtends (hRestGrows placed) hBound
        -- whether a comma is due behind it hangs on the value
        obtain ⟨g, hField, hKeeps, hDueAfter⟩ := optionalField_run hProperty hUndefined hOptional
          hFinds hFieldServes hFlag hDue
          (Or.inl (hSome property (List.mem_cons_self ..) hOptional))
        obtain ⟨h, hRest, hRestKeeps⟩ := ih hTail
          ((hFinds.ofKeeps hKeeps).ofExtends hGrows hBound) (hServes.ofKeeps hKeeps)
          (hFlag.ofExtends hGrows) hDueAfter hTailSome
        refine ⟨h, ?_, hKeeps.trans (hRestKeeps.mono hGrows.loops (Nat.le_refl _))⟩
        rw [Fragment.runAll_appendFragment, continued_append]
        refine Step.runAll_append_ok ?_ hRest
        rw [Fragment.runAll_of]
        exact hField

end Fields

/-! ## Objects and loops -/

section Nodes

variable {escaping : Json.Escaping} {f : Frame} {items : List Nat} {path : Path}
  {a : Allocation} {v : Value}

/-- An object opens with its flag, if it has one, switched off. -/
theorem opening_run (escaping : Json.Escaping) (properties : List (String × Schema))
    (hServes : f.Serves (openGroup properties a).2) :
    ∃ g, Step.runAll escaping f (opening (openGroup properties a).1).steps = .ok ("\x7b", g) ∧
      f.Keeps a.loops a.groups g ∧ CommaDue g false (openGroup properties a).1 false := by
  unfold openGroup at hServes ⊢
  -- only an object with optional properties has a flag to switch off
  split
  · next hOptional =>
    rw [if_pos hOptional] at hServes
    have hRange : a.groups < f.groups.length := hServes.groups
    have hReset : Step.runAll escaping f (Fragment.of (.reset a.groups)).steps =
        .ok ("", { f with groups := f.groups.set a.groups false }) := by
      rw [Fragment.runAll_of, Step.run, Frame.setGroup_of_lt hRange]
      rfl
    refine ⟨_, ?_, Frame.keeps_setGroup (Nat.le_refl _) false, fetch_set_self hRange false⟩
    show Step.runAll escaping f ((Fragment.of (.reset a.groups)).addText "\x7b").steps = _
    rw [Fragment.runAll_addText, Step.runAll_append_ok hReset (Step.runAll_text _ _)]
    rfl
  · exact ⟨f, Step.runAll_text f "\x7b", Frame.Keeps.refl .., rfl⟩

/-- The flag of an object is a new one. -/
theorem openGroup_flagAbove (properties : List (String × Schema)) (a : Allocation) :
    FlagAbove a.groups (openGroup properties a).2 (openGroup properties a).1 where
  base := (openGroup_extends properties a).groups
  handed := openGroup_lt properties a
  above := by
    intro flag hFlag
    unfold openGroup at hFlag
    split at hFlag
    · cases hFlag
      exact Nat.le_refl _
    · cases hFlag

/-- An object with an optional property has a flag. -/
theorem openGroup_isSome {properties : List (String × Schema)} {part : Schema}
    (hPart : part ∈ properties.map Prod.snd) (hOptional : part.optional = true) (a : Allocation) :
    (openGroup properties a).1.isSome := by
  obtain ⟨entry, hEntry, rfl⟩ := List.mem_map.mp hPart
  have hAny : (properties.any fun property => property.2.optional) = true :=
    List.any_eq_true.mpr ⟨entry, hEntry, hOptional⟩
  rw [openGroup, if_pos hAny]
  rfl

/-- An object writes its fields between braces. -/
theorem object_run {properties : List (String × Schema)}
    (hParts : ∀ part ∈ properties.map Prod.snd, part.Simulates escaping)
    (hFinds : f.Finds items path a v) (guard : Option Guard)
    (hServes : f.Serves ((Node.object properties guard).compiled path a).2) :
    Writes escaping a.loops a.groups f ((Node.object properties guard).compiled path a).1.steps
      (guardedText guard v (braced (directFields escaping properties v))) := by
  have hOpened := openGroup_extends properties a
  have hAliases : AliasesInScope (openGroup properties a).2.hoisted := by
    unfold openGroup
    split <;> exact hFinds.aliases
  have hGrows := compileFields_extends properties (fun part _ => compile_extends part) path
    (openGroup properties a).1 false (openGroup properties a).2
  have hFlag := openGroup_flagAbove properties a
  refine Writes.guarded ?_ hFinds.value guard
  -- the brace, the fields in the frame it leaves, and the brace at the end
  obtain ⟨g, hOpening, hOpenKeeps, hDue⟩ :=
    opening_run escaping properties (hServes.ofExtends hGrows hAliases)
  obtain ⟨h, hFields, hKeeps⟩ := compileFields_run hParts
    ((hFinds.ofKeeps hOpenKeeps).ofExtends hOpened hAliases) (hServes.ofKeeps hOpenKeeps) hFlag
    hDue (fun part hPart hOptional => openGroup_isSome hPart hOptional a)
  have hBody := Step.runAll_append_ok hOpening hFields
  rw [← Fragment.runAll_appendFragment] at hBody
  refine ⟨h, ?_, hOpenKeeps.trans (hKeeps.mono hOpened.loops (Nat.le_refl _))⟩
  rw [Fragment.runAll_addText, Step.runAll_append_ok hBody (Step.runAll_text h _),
    continued_false]
  rfl

/-- A loop whose body writes the text of the item in its slot, and leaves alone
what lies before the slot, writes the texts of the items in turn. -/
theorem overItems_run {slot groups : Nat} {body : Frame → Except OutOfRange (String × Frame)}
    {text : Value → String} (hSlot : slot < f.items.length)
    (hBody : ∀ (g : Frame) (item : Value), f.Keeps slot groups g →
      fetch g.items slot = .ok item →
        ∃ h, body g = .ok (text item, h) ∧ g.Keeps slot groups h)
    (entries : List Value) :
    ∃ g, overItems slot body entries f = .ok (entries.map text, g) ∧ f.Keeps slot groups g := by
  induction entries generalizing f with
  | nil => exact ⟨f, rfl, Frame.Keeps.refl ..⟩
  | cons item rest ih =>
    -- the slot is set anew for every item, whatever the body left in it
    have hEntered : f.Keeps slot groups { f with items := f.items.set slot item } :=
      Frame.keeps_setItem (Nat.le_refl _) item
    obtain ⟨g, hRun, hKeeps⟩ := hBody _ item hEntered (fetch_set_self hSlot item)
    have hFirst := hEntered.trans hKeeps
    obtain ⟨h, hRest, hRestKeeps⟩ := ih (hFirst.itemCount ▸ hSlot)
      fun later item hLater => hBody later item (hFirst.trans hLater)
    refine ⟨h, ?_, hFirst.trans hRestKeeps⟩
    simp only [overItems, Frame.setItem_of_lt hSlot, bind, Except.bind, hRun, hRest, List.map_cons]

/-- An array writes the texts of its items between brackets. -/
theorem loop_run {itemSchema : Schema} (hItem : itemSchema.Simulates escaping)
    (hFinds : f.Finds items path a v) (guard : Option Guard)
    (hServes : f.Serves ((Node.loop itemSchema guard).compiled path a).2) :
    Writes escaping a.loops a.groups f ((Node.loop itemSchema guard).compiled path a).1.steps
      (guardedText guard v (v.joinedText (itemSchema.direct escaping))) := by
  refine Writes.guarded ?_ hFinds.value guard
  have hGrows := compile_extends itemSchema (.item a.nextLoop.1) a.nextLoop.2
  have hSlot : a.loops < f.items.length :=
    Nat.lt_of_lt_of_le (Nat.lt_succ_self _) (Nat.le_trans hGrows.loops hServes.loops)
  have hBody : ∀ (g : Frame) (item : Value), f.Keeps a.loops a.groups g →
      fetch g.items a.loops = .ok item →
        ∃ h, Step.runAll escaping g
            (itemSchema.compile (.item a.nextLoop.1) a.nextLoop.2).1.steps =
              .ok (itemSchema.direct escaping item, h) ∧ g.Keeps a.loops a.groups h := by
    intro g item hKeeps hFetch
    -- inside the loop its slot is one more that holds an item
    have hFound : g.Finds (a.loops :: items) (.item a.nextLoop.1) a.nextLoop.2 item := {
      aliases := hFinds.aliases
      inScope := List.mem_cons_self ..
      slots := by
        intro slot hIn
        rcases List.mem_cons.mp hIn with rfl | hOuter
        · exact Nat.lt_succ_self _
        · exact Nat.lt_succ_of_lt (hFinds.slots slot hOuter)
      value := hFetch }
    obtain ⟨h, hRun, hAfter⟩ := hItem _ _ _ g item hFound (hServes.ofKeeps hKeeps)
    exact ⟨h, hRun, hAfter.mono (Nat.le_succ _) (Nat.le_refl _)⟩
  rw [Writes, Fragment.runAll_of, Step.run, hFinds.value]
  cases v with
  | array entries =>
    obtain ⟨g, hRun, hKeeps⟩ := overItems_run hSlot hBody entries
    refine ⟨g, ?_, hKeeps⟩
    show (overItems a.loops _ entries f).bind _ = _
    rw [hRun]
    rfl
  | _ => exact ⟨f, rfl, Frame.Keeps.refl ..⟩

/-- The steps of a shape write the text of the shape, if those of its parts
write theirs. -/
theorem compiled_run {node : Node} (hParts : ∀ part ∈ node.parts, part.Simulates escaping)
    (hFinds : f.Finds items path a v) (hServes : f.Serves (node.compiled path a).2) :
    Writes escaping a.loops a.groups f (node.compiled path a).1.steps
      (node.direct escaping v) := by
  have hValue := hFinds.value
  -- a leaf is one step, and only objects and loops go through their parts
  cases node with
  | silent => exact ⟨f, Step.runAll_nil f, Frame.Keeps.refl ..⟩
  | generic => exact Writes.ofStep (by rw [Step.run, hValue]; rfl)
  | scalar writer guard =>
    refine Writes.guarded (Writes.ofStep ?_) hValue guard
    cases writer <;> (rw [Writer.step, Step.run, hValue]; rfl)
  | date guard =>
    exact Writes.guarded (Writes.ofStep (by rw [Step.run, hValue]; rfl)) hValue guard
  | joined writer guard =>
    refine Writes.guarded (Writes.ofStep ?_) hValue guard
    cases writer <;> (rw [Writer.joinStep, Step.run, hValue]; rfl)
  | object properties guard => exact object_run hParts hFinds guard hServes
  | loop itemSchema guard =>
    exact loop_run (hParts itemSchema (List.mem_singleton_self _)) hFinds guard hServes

/-- The steps of a node write the direct text of the value they find. -/
theorem compile_run (s : Schema) : s.Simulates escaping := by
  induction s using node_induction with
  | step s ih =>
    intro items path a f v hFinds hServes
    obtain ⟨notes, hCompile⟩ := compile_eq s path a
    rw [hCompile] at hServes ⊢
    rw [direct_eq]
    -- notes change nothing of what is handed out
    exact compiled_run ih (hFinds.ofExtends (a.extends_noteAll notes) hFinds.aliases) hServes

end Nodes

end Schema

/-! ## Plans -/

/-- The frame in which the steps of a plan begin serves all that has been
handed out for them. -/
theorem Allocation.finish_serves (a : Allocation) (root : Fragment)
    (hScope : AliasesInScope a.hoisted) (v : Value) :
    ∃ f, ((a.finish root).emptyFrame v).bind (a.finish root).aliases = .ok f ∧ f.root = v ∧
      f.Serves a := by
  have hZero (index : Nat) : ((a.finish root).emptyFrame v).aliases.length + index = index :=
    Nat.zero_add index
  -- the aliases are bound in the order in which they were handed out
  obtain ⟨values, hBind, hCount, hValues⟩ := Frame.bind_completes ((a.finish root).emptyFrame v)
    (a.finish root).aliases fun index path hPath => by
      rw [hZero]
      exact hScope index path hPath
  refine ⟨_, hBind, rfl, Nat.le_of_eq List.length_replicate.symm,
    Nat.le_of_eq List.length_replicate.symm, hScope, fun index path hPath => ?_⟩
  have hRange : index < values.length :=
    hCount ▸ (List.getElem?_eq_some_iff.mp hPath).1
  have hBound := hValues index path hPath
  rw [hZero] at hBound
  exact ⟨_, hBound.trans (fetch_of_lt hRange), fetch_of_lt hRange⟩

/-- The plan of a shape at the root writes the text of the shape. -/
theorem Node.plan_run (node : Node) (notes : List Note) (escaping : Json.Escaping) (v : Value) :
    ((node.compiled .root (Allocation.noteAll {} notes)).2.finish
      (node.compiled .root (Allocation.noteAll {} notes)).1).run escaping v =
        .ok (node.direct escaping v) := by
  generalize hStart : Allocation.noteAll {} notes = a
  have hNone : AliasesInScope a.hoisted := by
    rw [← hStart]
    exact fun _ _ hPath => by simp [Allocation.noteAll] at hPath
  have hScope : UsesHandedOut [] (node.compiled .root a) :=
    Schema.compiled_inScope (fun part _ => part.compile_inScope) [] .root hNone trivial
  -- the frame that a plan starts from serves all that was handed out
  obtain ⟨f, hBind, hRoot, hServes⟩ := Allocation.finish_serves (node.compiled .root a).2
    (node.compiled .root a).1 hScope.aliases v
  have hFinds : f.Finds [] .root a v := {
    aliases := hNone
    inScope := trivial
    slots := fun _ hSlot => absurd hSlot List.not_mem_nil
    value := by rw [Path.resolve, hRoot] }
  obtain ⟨g, hRun, -⟩ := Schema.compiled_run (fun part _ => part.compile_run) hFinds hServes
  rw [Plan.run, hBind]
  show (Step.runAll escaping f (node.compiled .root a).1.steps).bind _ = _
  rw [hRun]
  rfl

/-- The encoder of a schema writes the direct text. -/
theorem Encoder.encode_eq_direct (s : Schema) (escaping : Json.Escaping) (v : Value) :
    (Encoder.ofSchema s escaping).encode v = .ok (s.direct escaping v) := by
  obtain ⟨notes, hCompile⟩ := Schema.compile_eq s .root {}
  show ((s.compile .root {}).2.finish (s.compile .root {}).1).run escaping v = _
  rw [hCompile, Schema.direct_eq]
  exact s.node.plan_run notes escaping v

/-- **A plan writes the direct text.** Binding the aliases of a compiled plan
and running its steps ends on every value, whether the value fits the schema
or not, and writes what recursion on the schema and the value writes. -/
theorem Plan.ofSchema_run (s : Schema) (escaping : Json.Escaping) (v : Value) :
    (Plan.ofSchema s).run escaping v = .ok (s.direct escaping v) :=
  Encoder.encode_eq_direct s escaping v

end JsonStencil
