import JsonStencil.Plan.Run

/-!
# Running fragments

A fragment folds the literal texts that are put into it. Folding changes how
many steps there are and nothing else: in every frame the folded steps write
what the steps and texts write one behind the other, and they fail where
those fail. A property of steps that every literal text has is kept by each
way of building a fragment.

Main results:

* `runAll_append` — running two lists of steps in turn.
* `runAll_addText` / `runAll_push` / `runAll_appendFragment` — what a
  fragment writes after something was added to it.
* `forall_appendFragment` — what all steps of a fragment have in common.
-/

namespace JsonStencil

variable {escaping : Json.Escaping}

/-! ## Steps in turn -/

namespace Step

@[simp] theorem runAll_nil (f : Frame) : runAll escaping f [] = .ok ("", f) := by
  rw [runAll]

/-- A first step, and the others in the frame that it leaves. -/
theorem runAll_cons (f : Frame) (step : Step) (rest : List Step) :
    runAll escaping f (step :: rest) =
      (run escaping f step).bind fun first =>
        (runAll escaping first.2 rest).bind fun others =>
          .ok (first.1 ++ others.1, others.2) := by
  rw [runAll]
  rfl

/-- Steps behind others run in the frame that those leave. -/
theorem runAll_append (f : Frame) (first second : List Step) :
    runAll escaping f (first ++ second) =
      (runAll escaping f first).bind fun written =>
        (runAll escaping written.2 second).bind fun others =>
          .ok (written.1 ++ others.1, others.2) := by
  -- the frame changes from step to step, so it is left general
  induction first generalizing f with
  | nil =>
    rw [List.nil_append, runAll_nil]
    cases h : runAll escaping f second <;> simp [Except.bind, h]
  | cons step rest ih =>
    rw [List.cons_append, runAll_cons, runAll_cons]
    cases hStep : run escaping f step with
    | error e => rfl
    | ok written =>
      simp only [Except.bind, ih]
      cases hRest : runAll escaping written.2 rest with
      | error e => rfl
      | ok others =>
        simp only
        cases runAll escaping others.2 second <;> simp [String.append_assoc]

/-- The texts of two runs in turn, where both complete. -/
theorem runAll_append_ok {f g h : Frame} {first second : List Step} {text next : String}
    (hFirst : runAll escaping f first = .ok (text, g))
    (hSecond : runAll escaping g second = .ok (next, h)) :
    runAll escaping f (first ++ second) = .ok (text ++ next, h) := by
  rw [runAll_append, hFirst]
  simp only [Except.bind, hSecond]

theorem runAll_singleton (f : Frame) (step : Step) :
    runAll escaping f [step] = run escaping f step := by
  rw [runAll_cons]
  cases run escaping f step <;> simp [Except.bind]

/-- A text writes itself and leaves the frame alone. -/
theorem runAll_text (f : Frame) (literal : String) :
    runAll escaping f [.text literal] = .ok (literal, f) := by
  rw [runAll_singleton, run]

end Step

/-! ## What a fragment writes -/

namespace Fragment

/-- Joining a text to the steps writes it behind them. -/
theorem runAll_joinText (f : Frame) (literal : String) (steps : List Step) :
    Step.runAll escaping f (joinText literal steps) =
      Step.runAll escaping f (steps ++ [.text literal]) := by
  -- the text is joined at the end, behind steps that change the frame
  fun_induction joinText literal steps generalizing f with
  | case1 => rfl
  | case2 last =>
    rw [Step.runAll_append, Step.runAll_text, Step.runAll_text]
    simp only [Except.bind, Step.runAll_text]
  | case3 step rest _ ih =>
    rw [List.cons_append, Step.runAll_cons, Step.runAll_cons]
    simp only [ih]

/-- A text added to a fragment is written behind its steps. -/
theorem runAll_addText (f : Frame) (fragment : Fragment) (literal : String) :
    Step.runAll escaping f (fragment.addText literal).steps =
      Step.runAll escaping f (fragment.steps ++ [.text literal]) := by
  rw [addText]
  split
  · next h =>
    -- an empty text leaves no step and writes nothing
    rw [h, Step.runAll_append]
    cases hRun : Step.runAll escaping f fragment.steps with
    | error e => rfl
    | ok written => simp [Except.bind, Step.runAll_text]
  · rw [runAll_joinText]

/-- So is what any step pushed into it writes. -/
theorem runAll_push (f : Frame) (fragment : Fragment) (step : Step) :
    Step.runAll escaping f (fragment.push step).steps =
      Step.runAll escaping f (fragment.steps ++ [step]) := by
  cases step with
  | text literal => exact runAll_addText f fragment literal
  | _ => rfl

/-- Steps pushed in turn write what they write one behind the other. -/
theorem runAll_foldl_push (f : Frame) (fragment : Fragment) (steps : List Step) :
    Step.runAll escaping f (steps.foldl push fragment).steps =
      Step.runAll escaping f (fragment.steps ++ steps) := by
  -- after each push the steps behind go on from the longer fragment
  induction steps generalizing fragment with
  | nil => rw [List.foldl_nil, List.append_nil]
  | cons step rest ih =>
    rw [List.foldl_cons, ih, Step.runAll_append, runAll_push, ← Step.runAll_append,
      List.append_assoc, List.singleton_append]

/-- A fragment put behind another one writes its text behind the other's. -/
theorem runAll_appendFragment (f : Frame) (fragment other : Fragment) :
    Step.runAll escaping f (fragment.append other).steps =
      Step.runAll escaping f (fragment.steps ++ other.steps) :=
  runAll_foldl_push f fragment other.steps

theorem runAll_of (f : Frame) (step : Step) :
    Step.runAll escaping f (of step).steps = Step.run escaping f step := by
  rw [of, ofSteps, runAll_foldl_push, List.nil_append, Step.runAll_singleton]

/-! ## What all steps of a fragment have in common -/

variable {P : Step → Prop}

/-- A property of all texts and of all steps is kept when a text is joined,
though the last step may be a new one. -/
theorem forall_joinText (hText : ∀ literal, P (.text literal)) (literal : String)
    {steps : List Step} (h : ∀ step ∈ steps, P step) :
    ∀ step ∈ joinText literal steps, P step := by
  fun_induction joinText literal steps with
  | case1 => simpa using hText literal
  | case2 last => simpa using hText (last ++ literal)
  | case3 step rest _ ih =>
    intro x hx
    rcases List.mem_cons.mp hx with rfl | hRest
    · exact h x (List.mem_cons_self ..)
    · exact ih (fun y hy => h y (List.mem_cons_of_mem _ hy)) x hRest

/-- It is kept when a text is added. -/
theorem forall_addText (hText : ∀ literal, P (.text literal)) (literal : String)
    {fragment : Fragment} (h : ∀ step ∈ fragment.steps, P step) :
    ∀ step ∈ (fragment.addText literal).steps, P step := by
  rw [addText]
  split
  · exact h
  · exact forall_joinText hText literal h

/-- It is kept when a step that has it is pushed. -/
theorem forall_push (hText : ∀ literal, P (.text literal)) {fragment : Fragment}
    (h : ∀ step ∈ fragment.steps, P step) {step : Step} (hStep : P step) :
    ∀ x ∈ (fragment.push step).steps, P x := by
  cases step with
  | text literal => exact forall_addText hText literal h
  | _ =>
    -- any other step is put behind the rest as it is
    intro x hx
    rcases List.mem_append.mp hx with hOld | hNew
    · exact h x hOld
    · rw [List.mem_singleton.mp hNew]
      exact hStep

/-- It is kept when a fragment whose steps have it is put behind. -/
theorem forall_appendFragment (hText : ∀ literal, P (.text literal)) {fragment other : Fragment}
    (h : ∀ step ∈ fragment.steps, P step) (hOther : ∀ step ∈ other.steps, P step) :
    ∀ step ∈ (fragment.append other).steps, P step := by
  unfold append
  -- the other fragment's steps are pushed one by one
  generalize other.steps = steps at hOther
  induction steps generalizing fragment with
  | nil => exact h
  | cons step rest ih =>
    rw [List.foldl_cons]
    exact ih (forall_push hText h (hOther step (List.mem_cons_self ..)))
      (fun x hx => hOther x (List.mem_cons_of_mem _ hx))

/-- It holds of a fragment of one step that has it. -/
theorem forall_of (hText : ∀ literal, P (.text literal)) {step : Step} (hStep : P step) :
    ∀ x ∈ (of step).steps, P x :=
  forall_push hText (fun _ hx => absurd hx List.not_mem_nil) hStep

end Fragment

end JsonStencil
