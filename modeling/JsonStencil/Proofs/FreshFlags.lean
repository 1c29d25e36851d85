import JsonStencil.Proofs.Allocation
import JsonStencil.Proofs.Computations

/-!
# Flags and slots are set before they are read

Group flags and loop slots outlive the objects and items that they were set
for: a loop enters its next item with the flags that the last one left, a
guarded section may be skipped and leave its flags as they were, and the slot
of an inner loop keeps the last item of the array before. None of this shows
in the text. Every object with a flag clears it before its first comma, on
the same level as the comma or on a level around it, and the item of a loop is
read inside the loop alone.

Two runs from frames that differ are compared step by step. It is enough that
the frames agree on the flags cleared so far and on the slots of the loops
around; what else they hold is set anew in both before it is read.

Main definitions:

* `Step.ClearsFirst` — flags are cleared before they are read.
* `Frame.AgreesOn` — frames that agree on some flags and slots.
* `Plan.Reaches` — the steps still to run at some point, with the flags
  cleared on the way and the slots of the loops around.

Main results:

* `runAll_alike` — such frames lead to the same text.
* `compile_clearsFirst` — the steps of a node clear flags first.
* `ofSchema_run_anyStart` — what flags and slots hold at the start does not
  matter, nor does what they are left with at any later point.
-/

namespace JsonStencil

/-! ## Clearing before reading -/

namespace Step

/-- The flag that a step clears, if it is one that does. -/
def clears : Step → List Nat
  | .reset group => [group]
  | _ => []

mutual

/-- Every flag that a step reads is one of the given ones, or is cleared
inside the step before it is read. -/
def ClearsFirst (flags : List Nat) : Step → Prop
  | .comma group => group ∈ flags
  | .guarded _ _ steps => AllClearFirst flags steps
  | .optional _ present absent => AllClearFirst flags present ∧ AllClearFirst flags absent
  | .loop _ _ item => AllClearFirst flags item
  | _ => True

/-- Every flag that steps read is one of the given ones, or is cleared before
it is read. What a step clears inside itself does not count behind it, since
that part of it may not be run. -/
def AllClearFirst (flags : List Nat) : List Step → Prop
  | [] => True
  | step :: rest => ClearsFirst flags step ∧ AllClearFirst (step.clears ++ flags) rest

end

/-- The flags cleared behind some steps. -/
def clearedBehind (flags : List Nat) : List Step → List Nat
  | [] => flags
  | step :: rest => clearedBehind (step.clears ++ flags) rest

/-- Steps behind others may count on what those clear. -/
theorem allClearFirst_append {flags : List Nat} {first second : List Step} :
    AllClearFirst flags (first ++ second) ↔
      AllClearFirst flags first ∧ AllClearFirst (clearedBehind flags first) second := by
  -- each step adds what it clears to the flags of those behind it
  induction first generalizing flags with
  | nil => simp [AllClearFirst, clearedBehind]
  | cons step rest ih => simp [AllClearFirst, clearedBehind, ih, and_assoc]

/-- More flags cleared do no harm. -/
theorem mem_clearedBehind {flags : List Nat} {flag : Nat} (h : flag ∈ flags)
    (steps : List Step) : flag ∈ clearedBehind flags steps := by
  induction steps generalizing flags with
  | nil => exact h
  | cons step rest ih => exact ih (List.mem_append_right _ h)

/-- Whether a step is a text. -/
def isText : Step → Bool
  | .text _ => true
  | _ => false

/-- Texts neither read nor clear a flag. -/
theorem allClearFirst_filter {flags : List Nat} {steps : List Step} :
    AllClearFirst flags (steps.filter fun step => !step.isText) ↔
      AllClearFirst flags steps := by
  induction steps generalizing flags with
  | nil => simp
  | cons step rest ih =>
    -- a text asks for no flag and clears none
    cases hText : step.isText with
    | true =>
      cases step with
      | text literal =>
        show _ ↔ True ∧ AllClearFirst flags rest
        rw [List.filter_cons_of_neg (by simp [hText]), ih, true_and]
      | _ => exact absurd hText Bool.false_ne_true
    | false => simp [hText, AllClearFirst, ih]

end Step

/-! ## Fragments -/

namespace Fragment

/-- The steps of a fragment without its texts. -/
def active (f : Fragment) : List Step := f.steps.filter fun step => !step.isText

/-- A text added does not count. -/
theorem active_addText (f : Fragment) (literal : String) :
    (f.addText literal).active = f.active := by
  have hJoin : ∀ steps : List Step,
      (joinText literal steps).filter (fun step => !step.isText) =
        steps.filter fun step => !step.isText := by
    intro steps
    -- the text goes into the last step or behind it
    fun_induction joinText literal steps with
    | case1 => rfl
    | case2 last => rfl
    | case3 step rest _ ih => simp [List.filter_cons, ih]
  unfold addText
  split
  · rfl
  · exact hJoin f.steps

/-- A step pushed counts unless it is a text. -/
theorem active_push (f : Fragment) (step : Step) :
    (f.push step).active = f.active ++ [step].filter fun step => !step.isText := by
  cases step with
  | text literal => simpa [Step.isText] using active_addText f literal
  | _ => simp [push, active]

/-- Two fragments in turn, without their texts. -/
theorem active_append (f other : Fragment) :
    (f.append other).active = f.active ++ other.active := by
  unfold append active
  generalize other.steps = steps
  induction steps generalizing f with
  | nil => simp
  | cons step rest ih =>
    have hPush := active_push f step
    unfold active at hPush
    rw [List.foldl_cons, ih, hPush, List.append_assoc, ← List.filter_append]
    rfl

/-- One step counts unless it is a text. -/
theorem active_of (step : Step) :
    (of step).active = [step].filter fun step => !step.isText :=
  active_push {} step

/-- Every flag that a fragment reads is one of the given ones, or is cleared
before. -/
def ClearsFirst (flags : List Nat) (f : Fragment) : Prop := Step.AllClearFirst flags f.active

variable {flags : List Nat}

/-- It makes no difference whether texts are counted. -/
theorem clearsFirst_iff {f : Fragment} :
    f.ClearsFirst flags ↔ Step.AllClearFirst flags f.steps :=
  Step.allClearFirst_filter

theorem clearsFirst_empty : ({} : Fragment).ClearsFirst flags := trivial

/-- A text reads no flag. -/
theorem ClearsFirst.addText {f : Fragment} (h : f.ClearsFirst flags) (literal : String) :
    (f.addText literal).ClearsFirst flags := by
  rw [ClearsFirst, active_addText]
  exact h

/-- Of two fragments in turn, the second one may read what the first one clears.
-/
theorem clearsFirst_append {f other : Fragment} :
    (f.append other).ClearsFirst flags ↔
      f.ClearsFirst flags ∧ other.ClearsFirst (Step.clearedBehind flags f.active) := by
  rw [ClearsFirst, active_append, Step.allClearFirst_append]
  rfl

/-- A single step reads what it is given, or what it clears inside itself. -/
theorem clearsFirst_of {step : Step} (h : step.ClearsFirst flags) :
    (of step).ClearsFirst flags := by
  rw [ClearsFirst, active_of, Step.allClearFirst_filter]
  exact ⟨h, trivial⟩

/-- A guard reads no flag of its own. -/
theorem ClearsFirst.guarded {f : Fragment} (h : f.ClearsFirst flags) (path : Path)
    (guard : Option Guard) : (f.guarded path guard).ClearsFirst flags := by
  cases guard with
  | none => exact h
  | some guard => exact clearsFirst_of (clearsFirst_iff.mp h)

end Fragment

/-! ## Compiled nodes -/

namespace Schema

/-- Whatever flags are cleared before, the steps of a node clear the others
before they read them. -/
def CompilesClearing (s : Schema) : Prop :=
  ∀ (flags : List Nat) (path : Path) (a : Allocation), (s.compile path a).1.ClearsFirst flags

section Fields

variable {flags : List Nat} {group : Option Nat}

/-- The comma of a field reads the flag of its object, if that has one. -/
theorem separator_clearsFirst (hGroup : ∀ flag, group = some flag → flag ∈ flags)
    (placed : Bool) : (separator placed group).ClearsFirst flags := by
  cases placed with
  | true => exact Fragment.clearsFirst_empty.addText ","
  | false =>
    cases group with
    | none => exact Fragment.clearsFirst_empty
    | some flag => exact Fragment.clearsFirst_of (hGroup flag rfl)

/-- A field reads that flag for its comma, and its value clears its own flags.
-/
theorem compileField_clearsFirst {property : Schema} (hProperty : property.CompilesClearing)
    (hGroup : ∀ flag, group = some flag → flag ∈ flags) (key : String) (path : Path)
    (placed : Bool) (a : Allocation) :
    (compileField key property path group placed a).1.ClearsFirst flags :=
  Fragment.clearsFirst_append.mpr
    ⟨(separator_clearsFirst hGroup placed).addText _, hProperty _ _ _⟩

/-- So does the default of a missing field. -/
theorem absentField_clearsFirst (hGroup : ∀ flag, group = some flag → flag ∈ flags)
    (placed : Bool) (key : String) (property : Schema) :
    (absentField placed group key property).ClearsFirst flags := by
  unfold absentField
  -- without a default nothing is written, and no comma either
  split
  · exact ((separator_clearsFirst hGroup placed).addText _).addText _
  · exact Fragment.clearsFirst_empty

/-- Behind the step that clears it, fields may read the flag of their
object. -/
theorem compileFields_clearsFirst {properties : List (String × Schema)}
    (hParts : ∀ part ∈ properties.map Prod.snd, part.CompilesClearing)
    (hGroup : ∀ flag, group = some flag → flag ∈ flags) (path : Path) (placed : Bool)
    (a : Allocation) :
    (compileFields properties path group placed a).1.ClearsFirst flags := by
  -- the flags cleared grow from field to field, so they are left general
  induction properties generalizing flags placed a with
  | nil =>
    rw [compileFields_nil]
    exact Fragment.clearsFirst_empty
  | cons entry rest ih =>
    obtain ⟨key, property⟩ := entry
    have hProperty := hParts property (List.mem_cons_self ..)
    have hTail : ∀ part ∈ rest.map Prod.snd, part.CompilesClearing :=
      fun part hPart => hParts part (List.mem_cons_of_mem _ hPart)
    -- what is cleared before a field is still cleared behind it
    have hBehind (steps : List Step) :
        ∀ flag, group = some flag → flag ∈ Step.clearedBehind flags steps :=
      fun flag hFlag => Step.mem_clearedBehind (hGroup flag hFlag) steps
    cases hUndefined : property.isUndefined with
    | true =>
      rw [compileFields_undefined _ _ _ _ _ hUndefined]
      exact ih hTail hGroup placed a
    | false =>
      have hField := compileField_clearsFirst hProperty hGroup key path placed a
      cases hOptional : property.optional with
      | false =>
        rw [compileFields_required _ _ _ _ _ hUndefined hOptional]
        exact Fragment.clearsFirst_append.mpr ⟨hField, ih hTail (hBehind _) true _⟩
      | true =>
        rw [compileFields_optional _ _ _ _ _ hUndefined hOptional]
        refine Fragment.clearsFirst_append.mpr ⟨?_, ih hTail (hBehind _) placed _⟩
        have hAbsent := absentField_clearsFirst hGroup placed key property
        exact Fragment.clearsFirst_of
          ⟨Fragment.clearsFirst_iff.mp hField, Fragment.clearsFirst_iff.mp hAbsent⟩

end Fields

/-- The steps of a node clear flags before they read them. -/
theorem compile_clearsFirst (s : Schema) : s.CompilesClearing := by
  induction s using node_induction with
  | step s ih =>
    intro flags path a
    obtain ⟨notes, hCompile⟩ := compile_eq s path a
    rw [hCompile]
    generalize a.noteAll notes = a
    generalize s.node = node at ih
    -- one case for each kind of step a node makes; only objects set flags
    cases node with
    | silent => exact Fragment.clearsFirst_empty
    | generic =>
      exact Fragment.clearsFirst_of (show (Step.generic path).ClearsFirst flags from trivial)
    | scalar writer guard =>
      refine (Fragment.clearsFirst_of ?_).guarded path guard
      cases writer <;> trivial
    | date guard =>
      have hDate : (Step.date path).ClearsFirst flags := trivial
      exact (Fragment.clearsFirst_of hDate).guarded path guard
    | joined writer guard =>
      refine (Fragment.clearsFirst_of ?_).guarded path guard
      cases writer <;> trivial
    | object properties guard =>
      -- the flag of the object is cleared in front of the brace
      refine ((Fragment.clearsFirst_append.mpr ⟨?_, ?_⟩).addText _).guarded path guard
      · cases (openGroup properties a).1 with
        | none => exact Fragment.clearsFirst_empty.addText _
        | some flag =>
          have hReset : (Step.reset flag).ClearsFirst flags := trivial
          exact (Fragment.clearsFirst_of hReset).addText _
      · refine compileFields_clearsFirst ih ?_ path false _
        intro flag hFlag
        rw [hFlag]
        have hCleared : (opening (some flag)).active = [.reset flag] := by
          rw [opening, Fragment.active_addText]
          rfl
        rw [hCleared]
        exact List.mem_cons_self ..
    -- an item may count on what was cleared before the loop, and on no more
    | loop items guard =>
      have hItem := ih items (List.mem_singleton_self _) flags (.item a.nextLoop.1) a.nextLoop.2
      refine Fragment.ClearsFirst.guarded ?_ path guard
      exact Fragment.clearsFirst_of (Fragment.clearsFirst_iff.mp hItem)

end Schema

/-! ## Frames that agree -/

/-- Two frames for the same value with the same aliases and as many flags and
slots, which agree on some of the flags and slots. -/
structure Frame.AgreesOn (flags slots : List Nat) (f g : Frame) : Prop where
  root : g.root = f.root
  aliases : g.aliases = f.aliases
  groupCount : g.groups.length = f.groups.length
  itemCount : g.items.length = f.items.length
  groups : ∀ flag ∈ flags, g.groups[flag]? = f.groups[flag]?
  items : ∀ slot ∈ slots, g.items[slot]? = f.items[slot]?

/-- Two runs that write the same text and leave frames that agree, or fail
alike. -/
inductive RunAlike {α : Type} (flags slots : List Nat) :
    Except OutOfRange (α × Frame) → Except OutOfRange (α × Frame) → Prop where
  | ok (result : α) {f g : Frame} (agrees : f.AgreesOn flags slots g) :
    RunAlike flags slots (.ok (result, f)) (.ok (result, g))
  | error (e : OutOfRange) : RunAlike flags slots (.error e) (.error e)

namespace Frame.AgreesOn

variable {flags slots : List Nat} {f g : Frame}

/-- Frames that agree agree on less. -/
theorem mono {fewerFlags fewerSlots : List Nat} (h : f.AgreesOn flags slots g)
    (hFlags : ∀ flag ∈ fewerFlags, flag ∈ flags) (hSlots : ∀ slot ∈ fewerSlots, slot ∈ slots) :
    f.AgreesOn fewerFlags fewerSlots g :=
  { h with
    groups := fun flag hFlag => h.groups flag (hFlags flag hFlag)
    items := fun slot hSlot => h.items slot (hSlots slot hSlot) }

/-- A path that reads no other slots finds the same value. -/
theorem resolve_eq (h : f.AgreesOn flags slots g) {σ : Scope} (hItems : σ.items = slots)
    {path : Path} (hPath : path.InScope σ) : path.resolve g = path.resolve f := by
  refine Path.resolve_congr hPath h.root (fun _ _ => by rw [h.aliases]) fun slot hSlot => ?_
  rw [fetch, fetch, h.items slot (hItems ▸ hSlot), h.itemCount]

/-- Setting a flag in both frames makes them agree on it. -/
theorem setGroup (h : f.AgreesOn flags slots g) (group : Nat) (flag : Bool) :
    AgreesOn (group :: flags) slots { f with groups := f.groups.set group flag }
      { g with groups := g.groups.set group flag } where
  root := h.root
  aliases := h.aliases
  groupCount := by simpa using h.groupCount
  itemCount := h.itemCount
  items := h.items
  groups := by
    intro other hOther
    -- the flag that is set, or one that both frames keep
    by_cases hSame : group = other
    · simp [hSame, List.getElem?_set, h.groupCount]
    · rw [List.getElem?_set_ne hSame, List.getElem?_set_ne hSame]
      exact h.groups other ((List.mem_cons.mp hOther).resolve_left fun hEq => hSame hEq.symm)

/-- Entering an item in both frames makes them agree on its slot. -/
theorem setItem (h : f.AgreesOn flags slots g) (slot : Nat) (item : Value) :
    AgreesOn flags (slot :: slots) { f with items := f.items.set slot item }
      { g with items := g.items.set slot item } where
  root := h.root
  aliases := h.aliases
  groupCount := h.groupCount
  itemCount := by simpa using h.itemCount
  groups := h.groups
  items := by
    intro other hOther
    -- the slot that is entered, or one that both frames keep
    by_cases hSame : slot = other
    · simp [hSame, List.getElem?_set, h.itemCount]
    · rw [List.getElem?_set_ne hSame, List.getElem?_set_ne hSame]
      exact h.items other ((List.mem_cons.mp hOther).resolve_left fun hEq => hSame hEq.symm)

end Frame.AgreesOn

/-! ## Runs side by side -/

namespace RunAlike

variable {α β : Type} {flags slots : List Nat}
  {run other : Except OutOfRange (α × Frame)}

/-- Runs go on alike. -/
theorem bind {moreFlags moreSlots : List Nat} (h : RunAlike flags slots run other)
    {next after : α × Frame → Except OutOfRange (β × Frame)}
    (hNext : ∀ (result : α) (f g : Frame), f.AgreesOn flags slots g →
      RunAlike moreFlags moreSlots (next (result, f)) (after (result, g))) :
    RunAlike moreFlags moreSlots (run.bind next) (other.bind after) := by
  cases h with
  | ok result agrees => exact hNext result _ _ agrees
  | error e => exact .error e

/-- The texts are the same. -/
theorem text_eq (h : RunAlike flags slots run other) :
    run.map Prod.fst = other.map Prod.fst := by
  cases h with
  | ok result agrees => rfl
  | error e => rfl

end RunAlike

section Runs

variable {escaping : Json.Escaping} {flags slots : List Nat} {f g : Frame}

/-- A step that writes what it finds at a path leaves its frame alone. -/
theorem RunAlike.ofRead (h : f.AgreesOn flags slots g) {σ : Scope} (hItems : σ.items = slots)
    {path : Path} (hPath : path.InScope σ) (text : Value → String) :
    RunAlike flags slots ((path.resolve f).bind fun v => .ok (text v, f))
      ((path.resolve g).bind fun v => .ok (text v, g)) := by
  rw [h.resolve_eq hItems hPath]
  cases path.resolve f with
  | error e => exact .error e
  | ok v => exact .ok (text v) h

/-- Loops run alike if their bodies do for each item entered in both. -/
theorem overItems_alike {slot : Nat} {body : Frame → Except OutOfRange (String × Frame)}
    (hBody : ∀ f g, f.AgreesOn flags (slot :: slots) g →
      RunAlike flags (slot :: slots) (body f) (body g))
    (entries : List Value) (h : f.AgreesOn flags slots g) :
    RunAlike flags slots (overItems slot body entries f) (overItems slot body entries g) := by
  -- the frames that one item leaves are those the next one starts from
  induction entries generalizing f g with
  | nil => exact .ok [] h
  | cons item rest ih =>
    simp only [overItems, Frame.setItem, store, h.itemCount]
    by_cases hSlot : slot < f.items.length
    · simp only [hSlot, if_true, Except.map]
      -- the slot holds the item in both frames, whatever it held before
      refine RunAlike.bind (hBody _ _ (h.setItem slot item)) fun text f' g' hAfter => ?_
      have hOuter := hAfter.mono (fun _ hFlag => hFlag) fun _ => List.mem_cons_of_mem slot
      exact RunAlike.bind (ih hOuter) fun texts f'' g'' hEnd => .ok (text :: texts) hEnd
    · simp only [hSlot, if_false, Except.map]
      exact .error _

mutual

/-- A step that clears a flag before it asks for it runs alike from frames that
agree on the other ones. -/
theorem Step.run_alike : ∀ {σ : Scope} {flags : List Nat} {f g : Frame},
    f.AgreesOn flags σ.items g → ∀ {step : Step}, step.InScope σ → step.ClearsFirst flags →
      RunAlike (step.clears ++ flags) σ.items (Step.run escaping f step)
        (Step.run escaping g step)
  | _, _, f, g, h, .text literal, _, _ => by
    rw [Step.run, Step.run]
    exact .ok literal h
  | _, _, _, _, h, .quoted path, hPath, _ | _, _, _, _, h, .raw path, hPath, _
  | _, _, _, _, h, .date path, hPath, _ | _, _, _, _, h, .generic path, hPath, _
  | _, _, _, _, h, .joinQuoted path, hPath, _
  | _, _, _, _, h, .joinRaw path, hPath, _ => by
    rw [Step.run, Step.run]
    exact .ofRead h rfl hPath _
  | _, _, f, g, h, .reset group, _, _ => by
    rw [Step.run, Step.run]
    simp only [Frame.setGroup, store, h.groupCount]
    split
    · exact .ok "" (h.setGroup group false)
    · exact .error _
  | _, flags, f, g, h, .comma group, _, hFlag => by
    -- the flag has been cleared before, so both runs find it the same
    have hSame : fetch g.groups group = fetch f.groups group := by
      rw [fetch, fetch, h.groups group hFlag, h.groupCount]
    rw [Step.run, Step.run, hSame]
    by_cases hGroup : group < f.groups.length
    · rw [fetch_of_lt hGroup, Frame.setGroup_of_lt hGroup,
        Frame.setGroup_of_lt (h.groupCount.symm ▸ hGroup)]
      cases f.groups[group] with
      | true => exact .ok "," h
      | false =>
        exact .ok "" ((h.setGroup group true).mono (fun _ => List.mem_cons_of_mem group)
          fun _ hSlot => hSlot)
    · rw [fetch, List.getElem?_eq_none (Nat.le_of_not_lt hGroup)]
      exact .error _
  | _, _, f, g, h, .guarded path guard steps, hScope, hClears => by
    rw [Step.run, Step.run, h.resolve_eq rfl hScope.1]
    cases path.resolve f with
    | error e => exact .error e
    | ok v =>
      simp only [bind, Except.bind]
      -- the fallback reads no flag; the steps behind the guard do
      split
      · exact .ok guard.fallback h
      · exact Step.runAll_alike h hScope.2 hClears
  | _, _, f, g, h, .optional path present absent, hScope, hClears => by
    rw [Step.run, Step.run, h.resolve_eq rfl hScope.1]
    cases path.resolve f with
    | error e => exact .error e
    | ok v =>
      simp only [bind, Except.bind]
      split
      · exact Step.runAll_alike h hScope.2.2 hClears.2
      · exact Step.runAll_alike h hScope.2.1 hClears.1
  | σ, _, f, g, h, .loop path slot item, hScope, hClears => by
    rw [Step.run, Step.run, h.resolve_eq rfl hScope.1]
    cases path.resolve f with
    | error e => exact .error e
    | ok v =>
      cases v with
      | array entries =>
        -- each item is entered with the flags that are clear at the start of the loop
        have hLoop := overItems_alike (fun _ _ hEntered =>
          Step.runAll_alike (σ := σ.enter slot) hEntered hScope.2.2 hClears) entries h
        exact RunAlike.bind hLoop fun texts _ _ hAfter => .ok (bracketed texts) hAfter
      | _ => exact .ok _ h

/-- Steps that clear flags first write the same text from frames that agree on
the flags cleared before them and on the slots of the loops around. -/
theorem Step.runAll_alike : ∀ {σ : Scope} {flags : List Nat} {f g : Frame},
    f.AgreesOn flags σ.items g → ∀ {steps : List Step}, Step.AllInScope σ steps →
      Step.AllClearFirst flags steps →
        RunAlike flags σ.items (Step.runAll escaping f steps) (Step.runAll escaping g steps)
  | _, _, f, g, h, [], _, _ => by
    rw [Step.runAll_nil, Step.runAll_nil]
    exact .ok "" h
  | _, flags, f, g, h, step :: rest, hScope, hClears => by
    rw [Step.runAll_cons, Step.runAll_cons]
    -- the flags a step clears are those the steps behind it may read
    refine RunAlike.bind (Step.run_alike h hScope.1 hClears.1) fun text f' g' hAfter => ?_
    have hRest := Step.runAll_alike hAfter hScope.2 hClears.2
    refine RunAlike.bind hRest fun others _ _ hEnd => .ok (text ++ others) ?_
    exact hEnd.mono (fun _ => List.mem_append_right _) fun _ hSlot => hSlot

end

end Runs

/-! ## Points of a run -/

/-- The steps that are still to run at some point of a run, together with the
flags that have been cleared on the way there and the slots of the loops
around. What is cleared inside a step does not count behind it. -/
inductive Plan.Reaches (p : Plan) : List Nat → List Nat → List Step → Prop where
  /-- Before the first step nothing has been cleared. -/
  | start : Reaches p [] [] p.steps
  /-- Behind a step. -/
  | behind {flags slots : List Nat} {step : Step} {rest : List Step}
    (h : Reaches p flags slots (step :: rest)) : Reaches p (step.clears ++ flags) slots rest
  /-- Behind a guard that does not hit. -/
  | guarded {flags slots : List Nat} {path : Path} {guard : Guard} {steps rest : List Step}
    (h : Reaches p flags slots (.guarded path guard steps :: rest)) : Reaches p flags slots steps
  /-- Where an optional field is there. -/
  | present {flags slots : List Nat} {path : Path} {present absent rest : List Step}
    (h : Reaches p flags slots (.optional path present absent :: rest)) :
    Reaches p flags slots present
  /-- Where an optional field is missing. -/
  | absent {flags slots : List Nat} {path : Path} {present absent rest : List Step}
    (h : Reaches p flags slots (.optional path present absent :: rest)) :
    Reaches p flags slots absent
  /-- At the start of any item of a loop. -/
  | item {flags slots : List Nat} {path : Path} {slot : Nat} {item rest : List Step}
    (h : Reaches p flags slots (.loop path slot item :: rest)) :
    Reaches p flags (slot :: slots) item

/-- In a plan in scope that clears flags first, so do the steps that are left
at any point. -/
theorem Plan.Reaches.inScope {p : Plan} (hScope : p.InScope)
    (hClears : Step.AllClearFirst [] p.steps) {flags slots : List Nat} {steps : List Step}
    (h : p.Reaches flags slots steps) :
    Step.AllInScope ⟨p.groups, p.loops, p.aliases.length, slots⟩ steps ∧
      Step.AllClearFirst flags steps := by
  -- going on or going inside takes apart what is known of the steps there
  induction h with
  | start => exact ⟨hScope.steps, hClears⟩
  | behind _ ih => exact ⟨ih.1.2, ih.2.2⟩
  | guarded _ ih => exact ⟨ih.1.1.2, ih.2.1⟩
  | present _ ih => exact ⟨ih.1.1.2.1, ih.2.1.1⟩
  | absent _ ih => exact ⟨ih.1.1.2.2, ih.2.1.2⟩
  | item _ ih => exact ⟨ih.1.1.2.2, ih.2.1⟩

/-! ## Plans -/

/-- **Nothing stale is read.** A compiled plan binds its aliases and then
writes its text whatever the flags and slots hold when its steps begin: the
text is that of the run from flags that are off and slots that are undefined.
The same is true at every later point. From there on the text depends on the
value, on the aliases, on the flags cleared on the way there and on the items
of the loops around, and on nothing that an earlier item, an earlier sibling
or a skipped section has left behind. -/
theorem Plan.ofSchema_run_anyStart (s : Schema) (escaping : Json.Escaping) (v : Value) :
    ∃ bound, ((Plan.ofSchema s).emptyFrame v).bind (Plan.ofSchema s).aliases = .ok bound ∧
      (∀ (items : List Value) (groups : List Bool), items.length = (Plan.ofSchema s).loops →
        groups.length = (Plan.ofSchema s).groups →
          ∃ text left, (Plan.ofSchema s).run escaping v = .ok text ∧
            Step.runAll escaping { bound with items := items, groups := groups }
              (Plan.ofSchema s).steps = .ok (text, left)) ∧
      ∀ (flags slots : List Nat) (steps : List Step),
        (Plan.ofSchema s).Reaches flags slots steps → ∀ f g : Frame, f.AgreesOn flags slots g →
          (Step.runAll escaping f steps).map Prod.fst =
            (Step.runAll escaping g steps).map Prod.fst := by
  have hRoot := Schema.compile_inScope s [] .root {} (fun _ _ hPath => by simp at hPath) trivial
  have hScope : (Plan.ofSchema s).InScope :=
    ⟨hRoot.aliases, Step.allInScope_iff.mpr hRoot.steps⟩
  have hClears : Step.AllClearFirst [] (Plan.ofSchema s).steps :=
    Fragment.clearsFirst_iff.mp (Schema.compile_clearsFirst s [] .root {})
  obtain ⟨values, hBind, -, -⟩ := Frame.bind_completes ((Plan.ofSchema s).emptyFrame v)
    (Plan.ofSchema s).aliases hScope.aliases.zero_add
  -- the run that the others are held to starts with flags off and slots undefined
  have hFresh : (Plan.ofSchema s).run escaping v = (Step.runAll escaping
      (((Plan.ofSchema s).emptyFrame v).withAliases values) (Plan.ofSchema s).steps).map
        Prod.fst := by
    rw [Plan.run, hBind]
    rfl
  obtain ⟨text, hRun⟩ := Plan.run_completes hScope escaping v
  refine ⟨_, hBind, fun items groups hItems hGroups => ?_,
    fun flags slots steps hReaches f g h => ?_⟩
  · -- with no flag cleared and no loop around, the frames need not agree on any of them
    have hAgrees : (((Plan.ofSchema s).emptyFrame v).withAliases values).AgreesOn [] []
        { ((Plan.ofSchema s).emptyFrame v).withAliases values with
          items := items, groups := groups } :=
      { root := rfl
        aliases := rfl
        groupCount := by rw [hGroups]; exact List.length_replicate.symm
        itemCount := by rw [hItems]; exact List.length_replicate.symm
        groups := fun _ hFlag => absurd hFlag List.not_mem_nil
        items := fun _ hSlot => absurd hSlot List.not_mem_nil }
    have hAlike : RunAlike [] [] (Step.runAll escaping _ (Plan.ofSchema s).steps)
        (Step.runAll escaping _ (Plan.ofSchema s).steps) :=
      Step.runAll_alike (σ := ⟨_, _, _, []⟩) hAgrees hScope.steps hClears
    have hStale := hAlike.text_eq
    rw [← hFresh, hRun] at hStale
    obtain ⟨⟨written, left⟩, hEnd, hText⟩ := map_inv hStale.symm
    exact ⟨text, left, hRun, hText ▸ hEnd⟩
  · obtain ⟨hSteps, hFlags⟩ := hReaches.inScope hScope hClears
    exact (Step.runAll_alike h hSteps hFlags).text_eq

/-- Readings of which either bound may be missing. -/
def Schema.readings : Schema :=
  .arrayOf (.ofProperties [("low", Schema.number.asOptional), ("high", Schema.number.asOptional)])

/-- A reading without an upper and one without a lower bound. -/
def Value.twoReadings : Value :=
  .array [.object [("low", .number (.integer 1))], .object [("high", .number (.integer 2))]]

/-- A flag that is on and a slot that holds another reading do not show. -/
theorem Plan.ofSchema_run_anyStart_readings :
    ∃ bound text left,
      ((Plan.ofSchema .readings).emptyFrame .twoReadings).bind
          (Plan.ofSchema .readings).aliases = .ok bound ∧
        (Plan.ofSchema .readings).run .json .twoReadings = .ok text ∧
        Step.runAll .json { bound with items := [.string "stale"], groups := [true] }
          (Plan.ofSchema .readings).steps = .ok (text, left) := by
  obtain ⟨bound, hBind, hAnyStart, -⟩ := Plan.ofSchema_run_anyStart .readings .json .twoReadings
  have hLoops : (Plan.ofSchema .readings).loops = 1 := by decide +kernel
  have hGroups : (Plan.ofSchema .readings).groups = 1 := by decide +kernel
  obtain ⟨text, left, hRun, hStale⟩ :=
    hAnyStart [.string "stale"] [true] hLoops.symm hGroups.symm
  exact ⟨bound, text, left, hBind, hRun, hStale⟩

example : ((Plan.ofSchema .readings).run .json .twoReadings).toOption =
    some "[\x7b\"low\":1\x7d,\x7b\"high\":2\x7d]" := by decide +kernel

end JsonStencil
