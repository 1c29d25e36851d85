import JsonStencil.Proofs.Fragments
import JsonStencil.Proofs.Nodes

/-!
# Folded texts

A fragment folds the literal texts that it is given while it is put together,
one piece at a time and always at its end. Here the same is said of a whole
list of steps at once: texts that stand side by side are joined, from the last
one to the first, and empty ones are dropped. Both come to the same, in
whatever order texts, steps and other fragments were put together.

A step that is put into a fragment is taken as it is, with the steps inside
it. A guard around a fragment is one such step, and inside it stand the steps
of that fragment, which are folded already. Compiling only ever puts folded
fragments inside steps, and so the steps of a plan are folded at every depth.

Main definitions:

* `Step.IsFolded` — no text is empty or stands behind another one.
* `Step.folded` — the steps with their texts joined and the empty ones
  dropped.
* `Fragment.Building` — the ways to put a fragment together, with the steps
  given on the way.
* `Step.Nested` — the lists of steps inside a list of steps.

Main results:

* `isFolded_folded` / `IsFolded.folded_eq` — folding yields a folded list and
  leaves such a list as it is.
* `runAll_folded` — folded steps write what the steps themselves write.
* `Building.steps_fragment` — the steps of a fragment are those given, folded.
* `compile_foldedThroughout` — compiled steps are folded at every depth.
* `folding_normalizes` — folding is a normal form and changes nothing.
-/

namespace JsonStencil

variable {escaping : Json.Escaping}

namespace Step

/-! ## Folding a list of steps -/

/-- No text is empty, and no two texts stand side by side. -/
structure IsFolded (steps : List Step) : Prop where
  noEmpty : .text "" ∉ steps
  noNeighbours : ∀ first second, ¬ [.text first, .text second] <:+: steps

/-- Puts a text in front of steps, into the text that comes next if one
does. -/
def putText (literal : String) : List Step → List Step
  | .text next :: behind => .text (literal ++ next) :: behind
  | rest => .text literal :: rest

/-- Puts a step in front of folded ones; an empty text leaves no step. -/
def foldIn : Step → List Step → List Step
  | .text literal, rest => if literal = "" then rest else putText literal rest
  | step, rest => step :: rest

/-- The steps with neighbouring texts joined and empty ones dropped. -/
def folded (steps : List Step) : List Step := steps.foldr foldIn []

@[simp] theorem folded_nil : folded [] = [] := rfl

/-- A first step is put in front of the others once these are folded. -/
theorem folded_cons (step : Step) (rest : List Step) :
    folded (step :: rest) = foldIn step (folded rest) := rfl

@[simp] theorem foldIn_empty (rest : List Step) : foldIn (.text "") rest = rest := rfl

/-- A text that is not empty goes into the text that comes next, if one does. -/
theorem foldIn_text {literal : String} (h : literal ≠ "") (rest : List Step) :
    foldIn (.text literal) rest = putText literal rest :=
  if_neg h

theorem isFolded_nil : IsFolded [] :=
  ⟨List.not_mem_nil, fun _ _ h => by simp at h⟩

/-- A folded list grows at its front by what is no empty text, and by a text
only where no text comes next. -/
theorem isFolded_cons {step : Step} {rest : List Step} :
    IsFolded (step :: rest) ↔
      step ≠ .text "" ∧
        (∀ first second behind, step = .text first → rest ≠ .text second :: behind) ∧
          IsFolded rest := by
  constructor
  · intro h
    refine ⟨fun hStep => h.noEmpty (by simp [hStep]), ?_, ?_, ?_⟩
    · intro first second behind hStep hRest
      refine h.noNeighbours first second ?_
      rw [hStep, hRest]
      exact (List.prefix_append [.text first, .text second] behind).isInfix
    · exact fun hMem => h.noEmpty (List.mem_cons_of_mem _ hMem)
    · exact fun first second hInfix =>
        h.noNeighbours first second (List.infix_cons_iff.mpr (.inr hInfix))
  · intro ⟨hStep, hNext, hRest⟩
    refine ⟨?_, ?_⟩
    · intro hMem
      rcases List.mem_cons.mp hMem with hHead | hTail
      · exact hStep hHead.symm
      · exact hRest.noEmpty hTail
    · intro first second hInfix
      rcases List.infix_cons_iff.mp hInfix with hPrefix | hTail
      · -- the pair stands at the very front
        obtain ⟨hHead, behind, hBehind⟩ := List.cons_prefix_cons.mp hPrefix
        exact hNext first second behind hHead.symm hBehind.symm
      · exact hRest.noNeighbours first second hTail

/-- What a folded list may have in front is put there as it is. -/
theorem foldIn_eq_cons {step : Step} {rest : List Step} (hStep : step ≠ .text "")
    (hNext : ∀ first second behind, step = .text first → rest ≠ .text second :: behind) :
    foldIn step rest = step :: rest := by
  cases step with
  | text literal =>
    have hLiteral : literal ≠ "" := fun h => hStep (by rw [h])
    rw [foldIn_text hLiteral]
    fun_cases putText literal rest with
    | case1 next behind => exact absurd rfl (hNext literal next behind rfl)
    | case2 => rfl
  | _ => rfl

/-- A folded list is left as it is. -/
theorem IsFolded.folded_eq {steps : List Step} (h : IsFolded steps) : folded steps = steps := by
  induction steps with
  | nil => rfl
  | cons step rest ih =>
    obtain ⟨hStep, hNext, hRest⟩ := isFolded_cons.mp h
    rw [folded_cons, ih hRest]
    exact foldIn_eq_cons hStep hNext

/-- Folded steps stay folded when a text is put in front of them. -/
theorem IsFolded.putText {rest : List Step} (h : IsFolded rest) {literal : String}
    (hLiteral : literal ≠ "") : IsFolded (putText literal rest) := by
  fun_cases Step.putText literal rest with
  | case1 next behind =>
    -- the longer text has the same steps behind it as the one it grew from
    obtain ⟨-, hNext, hBehind⟩ := isFolded_cons.mp h
    refine isFolded_cons.mpr ⟨?_, fun _ second others _ => hNext next second others rfl, hBehind⟩
    simp [hLiteral]
  | case2 _ hFront =>
    exact isFolded_cons.mpr
      ⟨by simpa using hLiteral, fun _ second behind _ => hFront second behind, h⟩

/-- Folded steps stay folded whatever step is put in front of them. -/
theorem IsFolded.foldIn {rest : List Step} (h : IsFolded rest) (step : Step) :
    IsFolded (foldIn step rest) := by
  cases step with
  | text literal =>
    rw [Step.foldIn]
    split
    · exact h
    · next hLiteral => exact h.putText hLiteral
  | _ => exact isFolded_cons.mpr ⟨Step.noConfusion, fun _ _ _ h => Step.noConfusion h, h⟩

/-- A step that is no text is put at the end of folded steps as it is. -/
theorem IsFolded.concat {steps : List Step} (h : IsFolded steps) {step : Step}
    (hStep : ∀ literal, step ≠ .text literal) : IsFolded (steps ++ [step]) := by
  refine ⟨?_, ?_⟩
  · intro hMem
    rcases List.mem_append.mp hMem with hOld | hNew
    · exact h.noEmpty hOld
    · exact hStep "" (List.mem_singleton.mp hNew).symm
  · intro first second hInfix
    rcases List.infix_concat_iff.mp hInfix with hSuffix | hOld
    · -- the second text of the pair would be the step at the end
      obtain ⟨before, hBefore⟩ := hSuffix
      have hEnd : before ++ [.text first] ++ [.text second] = steps ++ [step] := by
        rw [← hBefore, List.append_assoc, List.singleton_append]
      have hLast : [Step.text second] = [step] := List.append_inj_right' hEnd rfl
      exact hStep second (List.singleton_inj.mp hLast).symm
    · exact h.noNeighbours first second hOld

/-- **Folding leaves no empty text and no two texts side by side.** -/
theorem isFolded_folded (steps : List Step) : IsFolded (folded steps) := by
  induction steps with
  | nil => exact isFolded_nil
  | cons step rest ih => exact ih.foldIn step

/-! ## Folding in parts -/

/-- A text in front of a text is one text. -/
theorem putText_putText (first second : String) (rest : List Step) :
    putText first (putText second rest) = putText (first ++ second) rest := by
  fun_cases putText second rest with
  | case1 next behind => simp only [putText, String.append_assoc]
  | case2 _ hFront =>
    rw [putText, putText]
    exact hFront

/-- Two texts put in front one by one are put there as one. -/
theorem foldIn_foldIn (first second : String) (rest : List Step) :
    foldIn (.text first) (foldIn (.text second) rest) = foldIn (.text (first ++ second)) rest := by
  by_cases hFirst : first = ""
  · rw [hFirst, foldIn_empty, String.empty_append]
  by_cases hSecond : second = ""
  · rw [hSecond, foldIn_empty, String.append_empty]
  have hBoth : first ++ second ≠ "" := by simp [hFirst]
  rw [foldIn_text hFirst, foldIn_text hSecond, foldIn_text hBoth, putText_putText]

/-- A step may be put in front before or after more steps follow. -/
theorem folded_foldIn_append (step : Step) (rest behind : List Step) :
    folded (foldIn step rest ++ behind) = foldIn step (folded (rest ++ behind)) := by
  -- only a text looks at what it is put in front of
  cases step with
  | text literal =>
    by_cases hLiteral : literal = ""
    · rw [hLiteral, foldIn_empty, foldIn_empty]
    rw [foldIn_text hLiteral]
    fun_cases putText literal rest with
    | case1 next others =>
      -- the joined text is put in front again, now of more steps
      rw [List.cons_append, List.cons_append, folded_cons, folded_cons, foldIn_foldIn]
    | case2 => rfl
  | _ => rfl

/-- What stands in front may be folded first. -/
theorem folded_folded_append (first second : List Step) :
    folded (folded first ++ second) = folded (first ++ second) := by
  induction first with
  | nil => rfl
  | cons step rest ih =>
    rw [folded_cons, folded_foldIn_append, ih]
    rfl

/-- So may what stands behind. -/
theorem folded_append_folded (first second : List Step) :
    folded (first ++ folded second) = folded (first ++ second) := by
  induction first with
  | nil => exact (isFolded_folded second).folded_eq
  | cons step rest ih => exact congrArg (foldIn step) ih

/-! ## Running folded steps -/

/-- A text that has gone into the next one is still written in front of it. -/
theorem runAll_putText (f : Frame) (literal : String) (rest : List Step) :
    runAll escaping f (putText literal rest) = runAll escaping f (.text literal :: rest) := by
  fun_cases putText literal rest with
  | case1 next behind =>
    simp only [runAll_cons, run, Except.bind]
    -- a text leaves the frame as it is, so the rest runs as before
    cases runAll escaping f behind <;> simp [String.append_assoc]
  | case2 => rfl

/-- A step folded in front of others runs before them. -/
theorem runAll_foldIn (f : Frame) (step : Step) (rest : List Step) :
    runAll escaping f (foldIn step rest) = runAll escaping f (step :: rest) := by
  cases step with
  | text literal =>
    by_cases hLiteral : literal = ""
    · -- an empty text writes nothing
      rw [hLiteral, foldIn_empty, runAll_cons, run]
      cases hRun : runAll escaping f rest <;> simp [Except.bind, hRun]
    · rw [foldIn_text hLiteral, runAll_putText]
  | _ => rfl

/-- **Folded steps write what the steps themselves write**, and fail where
those fail. -/
theorem runAll_folded (f : Frame) (steps : List Step) :
    runAll escaping f (folded steps) = runAll escaping f steps := by
  -- the steps behind the first one run in the frame that it leaves
  induction steps generalizing f with
  | nil => rfl
  | cons step rest ih =>
    rw [folded_cons, runAll_foldIn, runAll_cons, runAll_cons]
    simp only [ih]

end Step

/-! ## Fragments as folded lists -/

namespace Fragment

/-- A text joined at the end of folded steps comes to folding it with them. -/
theorem joinText_eq_folded {literal : String} (hLiteral : literal ≠ "") {steps : List Step}
    (h : Step.IsFolded steps) :
    joinText literal steps = Step.folded (steps ++ [.text literal]) := by
  -- joining looks for the end of the steps, folding begins there
  fun_induction joinText literal steps with
  | case1 => simp [Step.folded_cons, Step.foldIn_text hLiteral, Step.putText]
  | case2 last =>
    obtain ⟨hLast, -, -⟩ := Step.isFolded_cons.mp h
    have hLast : last ≠ "" := fun hEmpty => hLast (by rw [hEmpty])
    simp [Step.folded_cons, Step.foldIn_text hLiteral, Step.foldIn_text hLast, Step.putText]
  | case3 step rest hLonger ih =>
    obtain ⟨hStep, hNext, hRest⟩ := Step.isFolded_cons.mp h
    rw [List.cons_append, Step.folded_cons, ← ih hRest, Step.foldIn_eq_cons hStep]
    -- behind a text there is another step, and that one stays in front
    intro first second behind hText
    cases rest with
    | nil => exact absurd rfl (hLonger first hText)
    | cons next others =>
      have hOther : ∀ second, next ≠ .text second :=
        fun second hSecond => hNext first second others hText (by rw [hSecond])
      rw [joinText]
      · exact fun hFront => hOther second (List.cons.inj hFront).1
      · exact fun last hLast => absurd hLast (hOther last)

section Folded

variable {fragment : Fragment} {given : List Step}

/-- A step pushed into a fragment is folded with what was given for it. -/
theorem steps_push (h : fragment.steps = Step.folded given) (step : Step) :
    (fragment.push step).steps = Step.folded (given ++ [step]) := by
  -- what is there is folded already, so only the end can change
  have hFolded : Step.IsFolded fragment.steps := h ▸ Step.isFolded_folded given
  rw [← Step.folded_folded_append, ← h]
  cases step with
  | text literal =>
    rw [push_text, addText]
    split
    · next hLiteral =>
      rw [hLiteral, Step.folded, List.foldr_append]
      exact hFolded.folded_eq.symm
    · next hLiteral => exact joinText_eq_folded hLiteral hFolded
  | _ => exact (hFolded.concat fun _ => Step.noConfusion).folded_eq.symm

/-- So are steps pushed one by one. -/
theorem steps_foldl_push (h : fragment.steps = Step.folded given) (steps : List Step) :
    (steps.foldl push fragment).steps = Step.folded (given ++ steps) := by
  -- after each push more steps have been given, and the next one goes on from there
  induction steps generalizing fragment given with
  | nil => rw [List.foldl_nil, List.append_nil, h]
  | cons step rest ih =>
    rw [List.foldl_cons, ih (steps_push h step), List.append_assoc, List.singleton_append]

theorem steps_append (h : fragment.steps = Step.folded given) (other : Fragment) :
    (fragment.append other).steps = Step.folded (given ++ other.steps) :=
  steps_foldl_push h other.steps

theorem steps_of (step : Step) : (of step).steps = Step.folded [step] :=
  steps_push Step.folded_nil.symm step

end Folded

/-! ## Putting fragments together -/

/-- The ways to put a fragment together. -/
inductive Building where
  | empty
  /-- One step, whatever came before. -/
  | of (step : Step)
  | text (before : Building) (literal : String)
  | push (before : Building) (step : Step)
  | append (before other : Building)
  | guarded (before : Building) (path : Path) (guard : Option Guard)

namespace Building

/-- The fragment that is put together. -/
def fragment : Building → Fragment
  | .empty => {}
  | .of step => Fragment.of step
  | .text before literal => before.fragment.addText literal
  | .push before step => before.fragment.push step
  | .append before other => before.fragment.append other.fragment
  | .guarded before path guard => before.fragment.guarded path guard

/-- The steps and texts given, in order and as they were given. A guard turns
all that was there before into one step. -/
def given : Building → List Step
  | .empty => []
  | .of step => [step]
  | .text before literal => before.given ++ [.text literal]
  | .push before step => before.given ++ [step]
  | .append before other => before.given ++ other.given
  | .guarded before path (some guard) => [.guarded path guard before.fragment.steps]
  | .guarded before _ none => before.given

/-- The steps and texts given where those under a guard are left unfolded
too. -/
def unfolded : Building → List Step
  | .empty => []
  | .of step => [step]
  | .text before literal => before.unfolded ++ [.text literal]
  | .push before step => before.unfolded ++ [step]
  | .append before other => before.unfolded ++ other.unfolded
  | .guarded before path (some guard) => [.guarded path guard before.unfolded]
  | .guarded before _ none => before.unfolded

/-- **The steps of a fragment are those given, folded.** -/
theorem steps_fragment (b : Building) : b.fragment.steps = Step.folded b.given := by
  induction b with
  | empty => rfl
  | of step => exact steps_of step
  | text before literal ih => exact steps_push ih (.text literal)
  | push before step ih => exact steps_push ih step
  | append before other ih ihOther =>
    rw [fragment, steps_append ih, ihOther, Step.folded_append_folded, given]
  | guarded before path guard ih =>
    -- a guard makes one step of what is there, and folding does not look inside a step
    cases guard with
    | none => exact ih
    | some guard => exact steps_of _

/-- Texts are joined whether they come as texts or as steps. -/
example : (Building.empty.text "[" |>.text "" |>.text "x:" |>.push (.raw .root) |>.push
    (.text ",") |>.text "]").fragment.steps = [.text "[x:", .raw .root, .text ",]"] := by
  rfl

/-- What is left unfolded under a guard makes no difference to a run. -/
theorem runAll_unfolded (b : Building) (f : Frame) :
    Step.runAll escaping f b.unfolded = Step.runAll escaping f b.given := by
  -- parts built later run in the frame that the earlier ones leave
  induction b generalizing f with
  | empty | of _ => rfl
  | text before literal ih => rw [unfolded, given, Step.runAll_append, ih, ← Step.runAll_append]
  | push before step ih => rw [unfolded, given, Step.runAll_append, ih, ← Step.runAll_append]
  | append before other ih ihOther =>
    rw [unfolded, given, Step.runAll_append, Step.runAll_append, ih]
    simp only [ihOther]
  | guarded before path guard ih =>
    cases guard with
    | none => exact ih f
    | some guard =>
      -- where the guard does not hit, the steps under it run in the same frame
      rw [unfolded, given, steps_fragment, Step.runAll_singleton, Step.runAll_singleton,
        Step.run, Step.run, Step.runAll_folded, ih f]

end Building

end Fragment

/-! ## Folded at every depth -/

namespace Step

/-- The lists of steps inside a step. -/
def parts : Step → List (List Step)
  | .guarded _ _ steps => [steps]
  | .optional _ present absent => [present, absent]
  | .loop _ _ item => [item]
  | _ => []

/-- The second list is the first one, or stands inside one of its steps at
some depth. -/
inductive Nested : List Step → List Step → Prop where
  | self (steps : List Step) : Nested steps steps
  | inside {outer part inner : List Step} {step : Step} (hStep : step ∈ outer)
      (hPart : part ∈ step.parts) (h : Nested part inner) : Nested outer inner

/-- The steps are folded, and so are the steps inside them. -/
def FoldedThroughout (steps : List Step) : Prop := ∀ inner, Nested steps inner → IsFolded inner

/-- Folded at every depth is folded here and so inside each step. -/
theorem foldedThroughout_iff {steps : List Step} :
    FoldedThroughout steps ↔
      IsFolded steps ∧ ∀ step ∈ steps, ∀ part ∈ step.parts, FoldedThroughout part := by
  constructor
  · intro h
    exact ⟨h steps (.self steps),
      fun step hStep part hPart inner hInner => h inner (.inside hStep hPart hInner)⟩
  · intro ⟨hFolded, hParts⟩ inner hInner
    cases hInner with
    | self => exact hFolded
    | inside hStep hPart hInner => exact hParts _ hStep _ hPart inner hInner

end Step

namespace Fragment

/-- The steps of a fragment are folded at every depth. -/
def FoldedThroughout (f : Fragment) : Prop := Step.FoldedThroughout f.steps

theorem foldedThroughout_empty : ({} : Fragment).FoldedThroughout :=
  Step.foldedThroughout_iff.mpr ⟨Step.isFolded_nil, fun _ hStep => absurd hStep List.not_mem_nil⟩

/-- There is nothing inside a text. -/
theorem parts_text (literal : String) :
    ∀ part ∈ (Step.text literal).parts, Step.FoldedThroughout part :=
  fun _ hPart => absurd hPart List.not_mem_nil

/-- A text is folded in as it comes. -/
theorem FoldedThroughout.addText {f : Fragment} (h : f.FoldedThroughout) (literal : String) :
    (f.addText literal).FoldedThroughout := by
  obtain ⟨hFolded, hParts⟩ := Step.foldedThroughout_iff.mp h
  refine Step.foldedThroughout_iff.mpr ⟨?_, forall_addText parts_text literal hParts⟩
  -- the steps there are folded, so they are what was given for them
  rw [← push_text, steps_push hFolded.folded_eq.symm]
  exact Step.isFolded_folded _

/-- Fragments folded at every depth may be put one behind the other. -/
theorem FoldedThroughout.append {f other : Fragment} (h : f.FoldedThroughout)
    (hOther : other.FoldedThroughout) : (f.append other).FoldedThroughout := by
  obtain ⟨hFolded, hParts⟩ := Step.foldedThroughout_iff.mp h
  obtain ⟨-, hOtherParts⟩ := Step.foldedThroughout_iff.mp hOther
  refine Step.foldedThroughout_iff.mpr ⟨?_, forall_appendFragment parts_text hParts hOtherParts⟩
  rw [steps_append hFolded.folded_eq.symm]
  exact Step.isFolded_folded _

/-- A step whose parts are folded at every depth makes such a fragment. -/
theorem foldedThroughout_of {step : Step}
    (h : ∀ part ∈ step.parts, Step.FoldedThroughout part) : (of step).FoldedThroughout := by
  refine Step.foldedThroughout_iff.mpr ⟨?_, forall_of parts_text h⟩
  rw [steps_of]
  exact Step.isFolded_folded _

/-- A step without steps inside it makes a fragment by itself. -/
theorem foldedThroughout_of_plain {step : Step} (h : step.parts = []) :
    (of step).FoldedThroughout :=
  foldedThroughout_of fun _ hPart => absurd (h ▸ hPart) List.not_mem_nil

/-- A guard takes the steps under it as one part. -/
theorem FoldedThroughout.guarded {f : Fragment} (h : f.FoldedThroughout) (path : Path)
    (guard : Option Guard) : (f.guarded path guard).FoldedThroughout := by
  cases guard with
  | none => exact h
  | some guard =>
    refine foldedThroughout_of fun part hPart => ?_
    rw [List.mem_singleton.mp hPart]
    exact h

end Fragment

/-! ## Compiled nodes -/

namespace Schema

/-- Whatever was handed out before, the steps of a node are folded at every
depth. -/
def CompilesFolded (s : Schema) : Prop :=
  ∀ (path : Path) (a : Allocation), (s.compile path a).1.FoldedThroughout

/-- The comma of a field, or the step that decides on it. -/
theorem separator_foldedThroughout (placed : Bool) (group : Option Nat) :
    (separator placed group).FoldedThroughout := by
  cases placed with
  | true => exact Fragment.foldedThroughout_empty.addText ","
  | false =>
    cases group with
    | none => exact Fragment.foldedThroughout_empty
    | some flag => exact Fragment.foldedThroughout_of_plain rfl

/-- What is written for a field that is missing: texts, if anything. -/
theorem absentField_foldedThroughout (placed : Bool) (group : Option Nat) (key : String)
    (property : Schema) : (absentField placed group key property).FoldedThroughout := by
  unfold absentField
  split
  · exact ((separator_foldedThroughout placed group).addText _).addText _
  · exact Fragment.foldedThroughout_empty

/-- A field: its comma, its label and the steps of its value. -/
theorem compileField_foldedThroughout {property : Schema} (hProperty : property.CompilesFolded)
    (key : String) (path : Path) (group : Option Nat) (placed : Bool) (a : Allocation) :
    (compileField key property path group placed a).1.FoldedThroughout :=
  ((separator_foldedThroughout placed group).addText _).append (hProperty _ _)

/-- The fields of an object are folded at every depth if their values are. -/
theorem compileFields_foldedThroughout {properties : List (String × Schema)}
    (hParts : ∀ part ∈ properties.map Prod.snd, part.CompilesFolded) (path : Path)
    (group : Option Nat) (placed : Bool) (a : Allocation) :
    (compileFields properties path group placed a).1.FoldedThroughout := by
  -- whether a comma has been placed changes from field to field
  induction properties generalizing placed a with
  | nil =>
    rw [compileFields_nil]
    exact Fragment.foldedThroughout_empty
  | cons entry rest ih =>
    obtain ⟨key, property⟩ := entry
    have hProperty := hParts property (List.mem_cons_self ..)
    have hRest := ih fun part hPart => hParts part (List.mem_cons_of_mem _ hPart)
    cases hUndefined : property.isUndefined with
    | true =>
      rw [compileFields_undefined _ _ _ _ _ hUndefined]
      exact hRest placed a
    | false =>
      have hField := compileField_foldedThroughout hProperty key path group placed a
      cases hOptional : property.optional with
      | false =>
        -- the comma or label of the field may run on from the text before it
        rw [compileFields_required _ _ _ _ _ hUndefined hOptional]
        exact hField.append (hRest true _)
      | true =>
        rw [compileFields_optional _ _ _ _ _ hUndefined hOptional]
        refine Fragment.FoldedThroughout.append (Fragment.foldedThroughout_of ?_) (hRest placed _)
        -- both branches are lists of their own, and neither joins a text outside
        intro part hPart
        rcases List.mem_cons.mp hPart with rfl | hPart
        · exact hField
        · rw [List.mem_singleton.mp hPart]
          exact absentField_foldedThroughout placed group key property

/-- The steps of a node are folded at every depth. -/
theorem compile_foldedThroughout (s : Schema) : s.CompilesFolded := by
  induction s using node_induction with
  | step s ih =>
    intro path a
    obtain ⟨notes, hCompile⟩ := compile_eq s path a
    rw [hCompile]
    generalize a.noteAll notes = a
    generalize s.node = node at ih
    -- texts are only ever added at the end, where they join the text that stands there
    cases node with
    | silent => exact Fragment.foldedThroughout_empty
    | generic => exact Fragment.foldedThroughout_of_plain rfl
    | scalar writer guard =>
      refine (Fragment.foldedThroughout_of_plain ?_).guarded path guard
      cases writer <;> rfl
    | date guard => exact (Fragment.foldedThroughout_of_plain rfl).guarded path guard
    | joined writer guard =>
      refine (Fragment.foldedThroughout_of_plain ?_).guarded path guard
      cases writer <;> rfl
    | object properties guard =>
      -- the opening brace, the fields and the closing one
      have hFields := compileFields_foldedThroughout ih path (openGroup properties a).1 false
        (openGroup properties a).2
      have hOpening : (opening (openGroup properties a).1).FoldedThroughout := by
        cases (openGroup properties a).1 with
        | none => exact Fragment.foldedThroughout_empty.addText _
        | some flag => exact (Fragment.foldedThroughout_of_plain rfl).addText _
      exact ((hOpening.append hFields).addText _).guarded path guard
    | loop items guard =>
      -- the steps of an item are a list of their own
      have hItem := ih items (List.mem_singleton_self _) (.item a.nextLoop.1) a.nextLoop.2
      refine (Fragment.foldedThroughout_of ?_).guarded path guard
      intro part hPart
      rw [List.mem_singleton.mp hPart]
      exact hItem

end Schema

/-- **Folding is a normal form and changes nothing.** However a fragment is
put together, no text in it is empty or stands beside another one. In every
frame it runs as the steps and texts given, with those under a guard folded or
not. Two fragments are the same exactly if what was given for them is the same
once neighbouring texts are joined and empty ones dropped. And in a compiled
plan every list of steps is folded, at whatever depth it stands. -/
theorem Fragment.folding_normalizes :
    (∀ b : Building, Step.IsFolded b.fragment.steps) ∧
    (∀ (b : Building) (escaping : Json.Escaping) (f : Frame),
      Step.runAll escaping f b.fragment.steps = Step.runAll escaping f b.given ∧
      Step.runAll escaping f b.fragment.steps = Step.runAll escaping f b.unfolded) ∧
    (∀ b c : Building, b.fragment = c.fragment ↔ Step.folded b.given = Step.folded c.given) ∧
    ∀ (s : Schema) (inner : List Step),
      Step.Nested (Plan.ofSchema s).steps inner → Step.IsFolded inner := by
  refine ⟨?_, ?_, ?_, ?_⟩
  · intro b
    rw [b.steps_fragment]
    exact Step.isFolded_folded b.given
  · intro b escaping f
    rw [b.steps_fragment, Step.runAll_folded, b.runAll_unfolded]
    exact ⟨rfl, rfl⟩
  · -- a fragment is nothing but its steps
    intro b c
    rw [← b.steps_fragment, ← c.steps_fragment]
    exact ⟨congrArg Fragment.steps, fun h => congrArg Fragment.mk h⟩
  · exact fun s => Schema.compile_foldedThroughout s .root {}

end JsonStencil
