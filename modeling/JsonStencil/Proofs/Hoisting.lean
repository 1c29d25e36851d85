import JsonStencil.Proofs.Allocation
import JsonStencil.Proofs.Computations

/-!
# Aliases put back

An alias is a name for a path that is bound before the first step. Where
every alias stands for a path from the root or from an earlier alias, it has
a full path, which starts from the root. Putting the full paths in for the
aliases, in whatever a step reads, tests or loops over, gives a plan without
aliases.

That plan writes the same text. While the steps run, the root and the aliases
stay as they were bound, so a full path finds at any time what its alias was
bound to, be it undefined because a parent is missing, null or no object.

Main definitions:

* `Path.expand` / `Step.expand` — full paths put in for aliases.
* `fullPaths` — the full paths of aliases.
* `Plan.unhoisted` — the plan without aliases.

Main results:

* `Step.runAll_expand` — steps with full paths run as the steps do.
* `Frame.bind_expands` — full paths find what the aliases are bound to.
* `Plan.InRange.run_expanded` — what a plan writes is written without aliases.
* `Plan.run_unhoisted` — the plan without aliases writes the same text.
-/

namespace JsonStencil

/-! ## Full paths -/

/-- A path with the full path of the alias that it starts from, if it starts
from one. -/
def Path.expand (full : List Path) : Path → Path
  | .root => .root
  | .alias index => full[index]?.getD (.alias index)
  | .item slot => .item slot
  | .field parent key => .field (parent.expand full) key

mutual

/-- A step with full paths, at every depth. -/
def Step.expand (full : List Path) : Step → Step
  | .text literal => .text literal
  | .quoted path => .quoted (path.expand full)
  | .raw path => .raw (path.expand full)
  | .date path => .date (path.expand full)
  | .generic path => .generic (path.expand full)
  | .joinQuoted path => .joinQuoted (path.expand full)
  | .joinRaw path => .joinRaw (path.expand full)
  | .reset group => .reset group
  | .comma group => .comma group
  | .guarded path guard steps => .guarded (path.expand full) guard (Step.expandAll full steps)
  | .optional path present absent =>
    .optional (path.expand full) (Step.expandAll full present) (Step.expandAll full absent)
  | .loop path slot item => .loop (path.expand full) slot (Step.expandAll full item)

/-- Every step of a list with full paths. -/
def Step.expandAll (full : List Path) : List Step → List Step
  | [] => []
  | step :: rest => step.expand full :: Step.expandAll full rest

end

/-- The full paths of aliases, behind those of the aliases before them. -/
def fullPaths (full : List Path) : List Path → List Path
  | [] => full
  | path :: rest => fullPaths (full ++ [path.expand full]) rest

/-- The plan with the full path of every alias in its place. -/
def Plan.unhoisted (p : Plan) : Plan :=
  { p with steps := Step.expandAll (fullPaths [] p.aliases) p.steps, aliases := [] }

/-! ## Nothing but the root is left -/

/-- The same numbers without aliases. -/
def Scope.unaliased (σ : Scope) : Scope := { σ with aliases := 0 }

/-- Paths that start from the root. -/
def Rooted (full : List Path) : Prop := ∀ path ∈ full, path.InScope (.outside 0)

/-- With full paths for all aliases in scope, a path does without them. -/
theorem Path.InScope.expand {σ : Scope} {full : List Path} (hFull : Rooted full)
    (hCount : σ.aliases ≤ full.length) {path : Path} (h : path.InScope σ) :
    (path.expand full).InScope σ.unaliased := by
  induction path with
  | root => trivial
  | «alias» index =>
    have hIndex : index < full.length := Nat.lt_of_lt_of_le h hCount
    -- the full path of an alias names no slot, so it is in scope anywhere
    have hOutside : (Scope.outside 0).Within σ.unaliased :=
      ⟨Nat.zero_le _, Nat.zero_le _, Nat.le_refl _, fun _ hSlot => absurd hSlot List.not_mem_nil⟩
    rw [Path.expand, List.getElem?_eq_getElem hIndex]
    exact (hFull _ (List.getElem_mem hIndex)).mono hOutside
  | item slot => exact h
  | field parent key ih => exact ih h

mutual

/-- A step with full paths uses no alias, nor do the steps inside it. -/
theorem Step.InScope.expand {full : List Path} (hFull : Rooted full) :
    ∀ {σ : Scope}, σ.aliases ≤ full.length → ∀ {step : Step}, step.InScope σ →
      (step.expand full).InScope σ.unaliased
  | _, _, .text _, _ => trivial
  | _, hCount, .quoted _, h | _, hCount, .raw _, h | _, hCount, .date _, h
  | _, hCount, .generic _, h | _, hCount, .joinQuoted _, h
  | _, hCount, .joinRaw _, h => Path.InScope.expand hFull hCount h
  | _, _, .reset _, h | _, _, .comma _, h => h
  | _, hCount, .guarded _ _ _, h => ⟨h.1.expand hFull hCount, h.2.expand hFull hCount⟩
  | _, hCount, .optional _ _ _, h =>
    ⟨h.1.expand hFull hCount, h.2.1.expand hFull hCount, h.2.2.expand hFull hCount⟩
  | σ, hCount, .loop _ slot _, h =>
    ⟨h.1.expand hFull hCount, h.2.1, Step.AllInScope.expand (σ := σ.enter slot) hFull hCount h.2.2⟩

/-- Steps with full paths use no alias. -/
theorem Step.AllInScope.expand {full : List Path} (hFull : Rooted full) :
    ∀ {σ : Scope}, σ.aliases ≤ full.length → ∀ {steps : List Step}, Step.AllInScope σ steps →
      Step.AllInScope σ.unaliased (Step.expandAll full steps)
  | _, _, [], _ => trivial
  | _, hCount, _ :: _, h => ⟨h.1.expand hFull hCount, h.2.expand hFull hCount⟩

end

/-- Each alias adds one full path. -/
theorem length_fullPaths (full paths : List Path) :
    (fullPaths full paths).length = full.length + paths.length := by
  induction paths generalizing full with
  | nil => rfl
  | cons path rest ih =>
    rw [fullPaths, ih, List.length_append, List.length_singleton, List.length_cons]
    omega

/-- There is a full path for every alias. -/
theorem le_length_fullPaths (paths : List Path) : paths.length ≤ (fullPaths [] paths).length := by
  rw [length_fullPaths]
  exact Nat.le_add_left ..

/-- Aliases that lead back to the root have full paths. -/
theorem rooted_fullPaths {full : List Path} (hFull : Rooted full) (paths : List Path)
    (h : ∀ (index : Nat) (path : Path), paths[index]? = some path →
      path.InScope (.outside (full.length + index))) : Rooted (fullPaths full paths) := by
  induction paths generalizing full with
  | nil => exact hFull
  | cons path rest ih =>
    have hPath : path.InScope (.outside full.length) := h 0 path rfl
    -- the full path of an alias is made of those before it
    refine ih (List.forall_mem_append.mpr ⟨hFull, ?_⟩) fun index next hNext => ?_
    · exact List.forall_mem_singleton.mpr (hPath.expand hFull (Nat.le_refl _))
    · rw [List.length_append, List.length_singleton, Nat.add_assoc, Nat.add_comm 1]
      exact h (index + 1) next hNext

/-- The plan without aliases is in range, so no step of it uses an alias. -/
theorem Plan.InRange.unhoisted {p : Plan} (h : p.InRange) : p.unhoisted.InRange := by
  have hFull : Rooted (fullPaths [] p.aliases) :=
    rooted_fullPaths (fun _ hPath => absurd hPath List.not_mem_nil) p.aliases h.aliases.zero_add
  refine ⟨fun index path hPath => ?_, h.steps.expand hFull (le_length_fullPaths p.aliases)⟩
  rw [Plan.unhoisted, List.getElem?_nil] at hPath
  cases hPath

/-! ## Runs without aliases -/

/-- The frame with its aliases left out. -/
def Frame.unaliased (f : Frame) : Frame := { f with aliases := [] }

/-- In whatever frame has the root of this one, the full paths find the
values of its aliases. -/
structure Frame.Expands (f : Frame) (full : List Path) : Prop where
  count : full.length = f.aliases.length
  finds : ∀ (index : Nat) (path : Path), full[index]? = some path →
    ∀ g : Frame, g.root = f.root → path.resolve g = fetch f.aliases index

/-- The root and the aliases are all that counts. -/
theorem Frame.Expands.ofBase {f g : Frame} {full : List Path} (h : f.Expands full)
    (hRoot : g.root = f.root) (hAliases : g.aliases = f.aliases) : g.Expands full where
  count := hAliases ▸ h.count
  finds := fun index path hPath frame hFrame =>
    hAliases ▸ h.finds index path hPath frame (hFrame.trans hRoot)

/-- A path finds by its full path what it finds by its alias. -/
theorem Path.resolve_expand {f : Frame} {full : List Path} (h : f.Expands full) {σ : Scope}
    (hCount : σ.aliases ≤ full.length) {path : Path} (hPath : path.InScope σ) {g : Frame}
    (hRoot : g.root = f.root)
    (hItems : ∀ slot ∈ σ.items, fetch g.items slot = fetch f.items slot) :
    (path.expand full).resolve g = path.resolve f := by
  -- only the start of a path differs from its full path
  induction path with
  | root => rw [expand, resolve, resolve, hRoot]
  | «alias» index =>
    have hIndex : index < full.length := Nat.lt_of_lt_of_le hPath hCount
    rw [expand, List.getElem?_eq_getElem hIndex, resolve, Option.getD_some]
    exact h.finds index _ (List.getElem?_eq_getElem hIndex) g hRoot
  | item slot => exact hItems slot hPath
  | field parent key ih => rw [expand, resolve, resolve, ih hPath]

/-- So it does where the aliases are left out. -/
theorem Path.resolve_unaliased {f : Frame} {full : List Path} (h : f.Expands full) {σ : Scope}
    (hCount : σ.aliases ≤ full.length) {path : Path} (hPath : path.InScope σ) :
    (path.expand full).resolve f.unaliased = path.resolve f :=
  resolve_expand h hCount hPath rfl fun _ _ => rfl

/-- A run and a run without aliases have the same outcome, the aliases in the
last frame apart, and the first one leaves the root and the aliases alone. -/
structure Agrees {α : Type} (f : Frame) (run bare : Except OutOfRange (α × Frame)) : Prop where
  same : bare = run.map fun r => (r.1, r.2.unaliased)
  base : ∀ r, run = .ok r → r.2.root = f.root ∧ r.2.aliases = f.aliases

namespace Agrees

variable {α β : Type} {f : Frame}

/-- Runs that write the same and leave the root and the aliases alone. -/
theorem ok (result : α) {g : Frame} (hRoot : g.root = f.root) (hAliases : g.aliases = f.aliases) :
    Agrees f (.ok (result, g)) (.ok (result, g.unaliased)) where
  same := rfl
  base := by
    rintro _ ⟨⟩
    exact ⟨hRoot, hAliases⟩

theorem error (e : OutOfRange) : Agrees (α := α) f (.error e) (.error e) where
  same := rfl
  base := fun _ h => nomatch h

/-- What agrees further on agrees from here. -/
theorem ofBase {run bare : Except OutOfRange (α × Frame)} {g : Frame} (hRoot : g.root = f.root)
    (hAliases : g.aliases = f.aliases) (h : Agrees g run bare) : Agrees f run bare where
  same := h.same
  base := fun r hr => ⟨(h.base r hr).1.trans hRoot, (h.base r hr).2.trans hAliases⟩

/-- Runs in turn agree if each of them does. -/
theorem bind {run bare : Except OutOfRange (α × Frame)} (h : Agrees f run bare)
    {next bareNext : α × Frame → Except OutOfRange (β × Frame)}
    (hNext : ∀ result (g : Frame), g.root = f.root → g.aliases = f.aliases →
      Agrees g (next (result, g)) (bareNext (result, g.unaliased))) :
    Agrees f (run >>= next) (bare >>= bareNext) := by
  rw [h.same]
  cases hRun : run with
  | error e => exact .error e
  | ok r =>
    obtain ⟨result, g⟩ := r
    obtain ⟨hRoot, hAliases⟩ := h.base _ hRun
    exact (hNext result g hRoot hAliases).ofBase hRoot hAliases

/-- So do runs that go on from the same value, or from the same failure. -/
theorem bindSame {read bareRead : Except OutOfRange β} (h : bareRead = read)
    {next bareNext : β → Except OutOfRange (α × Frame)}
    (hNext : ∀ v, Agrees f (next v) (bareNext v)) :
    Agrees f (read >>= next) (bareRead >>= bareNext) := by
  rw [h]
  cases read with
  | error e => exact .error e
  | ok v => exact hNext v

/-- And runs that go on from a frame with another item or flag. -/
theorem bindFrame {change bareChange : Except OutOfRange Frame}
    (h : bareChange = change.map Frame.unaliased)
    (hBase : ∀ g, change = .ok g → g.root = f.root ∧ g.aliases = f.aliases)
    {next bareNext : Frame → Except OutOfRange (α × Frame)}
    (hNext : ∀ g : Frame, g.root = f.root → g.aliases = f.aliases →
      Agrees g (next g) (bareNext g.unaliased)) :
    Agrees f (change >>= next) (bareChange >>= bareNext) := by
  rw [h]
  cases hChange : change with
  | error e => exact .error e
  | ok g =>
    obtain ⟨hRoot, hAliases⟩ := hBase g hChange
    exact (hNext g hRoot hAliases).ofBase hRoot hAliases

end Agrees

/-- Setting a flag does not touch the aliases. -/
theorem Frame.setGroup_unaliased (f : Frame) (group : Nat) (flag : Bool) :
    f.unaliased.setGroup group flag = (f.setGroup group flag).map Frame.unaliased := by
  rw [setGroup, setGroup, unaliased]
  cases store f.groups group flag <;> rfl

/-- A flag changes neither the root nor the aliases. -/
theorem Frame.setGroup_base {f g : Frame} {group : Nat} {flag : Bool}
    (h : f.setGroup group flag = .ok g) : g.root = f.root ∧ g.aliases = f.aliases := by
  obtain ⟨groups, -, rfl⟩ := map_inv h
  exact ⟨rfl, rfl⟩

/-- Items are set in the same slots without aliases. -/
theorem Frame.setItem_unaliased (f : Frame) (slot : Nat) (item : Value) :
    f.unaliased.setItem slot item = (f.setItem slot item).map Frame.unaliased := by
  rw [setItem, setItem, unaliased]
  cases store f.items slot item <;> rfl

/-- An item changes neither the root nor the aliases. -/
theorem Frame.setItem_base {f g : Frame} {slot : Nat} {item : Value}
    (h : f.setItem slot item = .ok g) : g.root = f.root ∧ g.aliases = f.aliases := by
  obtain ⟨items, -, rfl⟩ := map_inv h
  exact ⟨rfl, rfl⟩

section Runs

variable {escaping : Json.Escaping} {full : List Path}

/-- A loop agrees with the loop without aliases if its bodies do. -/
theorem overItems_agrees {slot : Nat} {body bareBody : Frame → Except OutOfRange (String × Frame)}
    (items : List Value) (f : Frame) (hBody : ∀ g : Frame, g.root = f.root → g.aliases = f.aliases →
      Agrees g (body g) (bareBody g.unaliased)) :
    Agrees f (overItems slot body items f) (overItems slot bareBody items f.unaliased) := by
  induction items generalizing f with
  | nil => exact .ok [] rfl rfl
  | cons item rest ih =>
    refine .bindFrame (f.setItem_unaliased slot item) (fun g => Frame.setItem_base) ?_
    intro entered hRoot hAliases
    refine .bind (hBody entered hRoot hAliases) fun text g hTextRoot hTextAliases => ?_
    -- the rest goes on from the frame that the first item leaves
    refine .bind (ih g fun later hLater hLaterAliases => hBody later ?_ ?_)
      fun texts last _ _ => .ok (text :: texts) rfl rfl
    · exact hLater.trans (hTextRoot.trans hRoot)
    · exact hLaterAliases.trans (hTextAliases.trans hAliases)

mutual

/-- A step with full paths runs as the step does, to its end or to the same
failure. -/
theorem Step.run_expand : ∀ {σ : Scope} {f : Frame}, f.Expands full → σ.aliases ≤ full.length →
    ∀ {step : Step}, step.InScope σ →
      Agrees f (Step.run escaping f step) (Step.run escaping f.unaliased (step.expand full))
  | _, _, _, _, .text literal, _ => by
    rw [expand, run, run]
    exact .ok literal rfl rfl
  | _, _, hFrame, hCount, .quoted path, h | _, _, hFrame, hCount, .raw path, h
  | _, _, hFrame, hCount, .date path, h | _, _, hFrame, hCount, .generic path, h
  | _, _, hFrame, hCount, .joinQuoted path, h | _, _, hFrame, hCount, .joinRaw path, h => by
    rw [expand, run, run]
    -- the value that is read is the same, and with it the text
    refine .bindSame (Path.resolve_unaliased hFrame hCount h) fun v => ?_
    exact .ok _ rfl rfl
  | _, f, _, _, .reset group, _ => by
    rw [expand, run, run]
    exact .bindFrame (f.setGroup_unaliased group false) (fun g => Frame.setGroup_base)
      fun g _ _ => .ok "" rfl rfl
  | _, f, _, _, .comma group, _ => by
    rw [expand, run, run]
    refine .bindSame rfl fun flag => ?_
    cases flag with
    | true => exact .ok "," rfl rfl
    | false =>
      exact .bindFrame (f.setGroup_unaliased group true) (fun g => Frame.setGroup_base)
        fun g _ _ => .ok "" rfl rfl
  | _, _, hFrame, hCount, .guarded path guard steps, h => by
    rw [expand, run, run]
    refine .bindSame (Path.resolve_unaliased hFrame hCount h.1) fun v => ?_
    cases guard.hits v with
    | true => exact .ok _ rfl rfl
    | false => exact Step.runAll_expand hFrame hCount h.2
  | _, _, hFrame, hCount, .optional path present absent, h => by
    rw [expand, run, run]
    refine .bindSame (Path.resolve_unaliased hFrame hCount h.1) fun v => ?_
    cases v.isUndefined with
    | true => exact Step.runAll_expand hFrame hCount h.2.2
    | false => exact Step.runAll_expand hFrame hCount h.2.1
  | σ, f, hFrame, hCount, .loop path slot item, h => by
    rw [expand, run, run]
    refine .bindSame (Path.resolve_unaliased hFrame hCount h.1) fun v => ?_
    cases v with
    | array items =>
      -- every item is entered with the root and the aliases that the loop began with
      refine .bind (overItems_agrees items f fun g hRoot hAliases => ?_)
        fun texts g _ _ => .ok (bracketed texts) rfl rfl
      exact Step.runAll_expand (σ := σ.enter slot) (hFrame.ofBase hRoot hAliases) hCount h.2.2
    | _ => exact .ok _ rfl rfl

/-- Steps with full paths run as the steps do, to their end or to the same
failure. -/
theorem Step.runAll_expand : ∀ {σ : Scope} {f : Frame}, f.Expands full →
    σ.aliases ≤ full.length → ∀ {steps : List Step}, Step.AllInScope σ steps →
      Agrees f (Step.runAll escaping f steps)
        (Step.runAll escaping f.unaliased (Step.expandAll full steps))
  | _, f, _, _, [], _ => by
    rw [expandAll, runAll, runAll]
    exact .ok "" rfl rfl
  | _, _, hFrame, hCount, step :: rest, h => by
    rw [expandAll, runAll, runAll]
    refine .bind (Step.run_expand hFrame hCount h.1) fun text g hRoot hAliases => ?_
    refine .bind (Step.runAll_expand (hFrame.ofBase hRoot hAliases) hCount h.2)
      fun others last _ _ => .ok (text ++ others) rfl rfl

end

end Runs

/-! ## Plans without aliases -/

/-- Once an alias is bound, its full path finds what it is bound to. -/
theorem Frame.Expands.concat {f : Frame} {full : List Path} (h : f.Expands full) {path : Path}
    (hPath : path.InScope (.outside f.aliases.length)) {v : Value}
    (hValue : path.resolve f = .ok v) :
    (f.withAliases [v]).Expands (full ++ [path.expand full]) where
  count := by
    rw [withAliases, List.length_append, List.length_append, h.count]
    rfl
  finds := by
    intro index found hFound g hRoot
    -- an earlier alias, the new one, or none
    rcases Nat.lt_trichotomy index full.length with hOld | rfl | hBeyond
    · rw [List.getElem?_append_left hOld] at hFound
      rw [h.finds index found hFound g hRoot]
      exact (fetch_append_left (h.count ▸ hOld) [v]).symm
    · rw [List.getElem?_concat_length] at hFound
      cases hFound
      -- the new path reads earlier aliases, which are expanded already
      have hFull : (path.expand full).resolve g = path.resolve f :=
        Path.resolve_expand h (Nat.le_of_eq h.count.symm) hPath hRoot
          fun _ hSlot => absurd hSlot List.not_mem_nil
      rw [hFull, hValue, h.count, fetch, withAliases, List.getElem?_concat_length]
    · rw [List.getElem?_eq_none
        (by rw [List.length_append, List.length_singleton]; omega)] at hFound
      cases hFound

/-- When all aliases are bound, the full paths find what they are bound
to. -/
theorem Frame.bind_expands {f : Frame} {full : List Path} (h : f.Expands full) (paths : List Path)
    (hPaths : ∀ (index : Nat) (path : Path), paths[index]? = some path →
      path.InScope (.outside (f.aliases.length + index))) {g : Frame}
    (hBind : f.bind paths = .ok g) :
    g.Expands (fullPaths full paths) ∧ g.unaliased = f.unaliased := by
  induction paths generalizing f full with
  | nil =>
    cases hBind
    exact ⟨h, rfl⟩
  | cons path rest ih =>
    have hPath : path.InScope (.outside f.aliases.length) := hPaths 0 path rfl
    rw [Frame.bind] at hBind
    obtain ⟨v, hValue, hRest⟩ := bind_inv hBind
    have hLength : (f.withAliases [v]).aliases.length = f.aliases.length + 1 := by
      rw [withAliases, List.length_append, List.length_singleton]
    -- the paths behind it are bound in the frame that has this alias
    refine ih (f := f.withAliases [v]) (h.concat hPath hValue) (fun index next hNext => ?_) hRest
    rw [hLength, Nat.add_assoc, Nat.add_comm 1]
    exact hPaths (index + 1) next hNext

/-- The text that a plan in range writes is written without aliases. -/
theorem Plan.InRange.run_expanded {p : Plan} (h : p.InRange) {escaping : Json.Escaping}
    {v : Value} {text : String} (hRun : p.run escaping v = .ok text) :
    p.unhoisted.run escaping v = .ok text := by
  have hEmpty : (p.emptyFrame v).Expands [] :=
    ⟨rfl, fun index path hPath => by rw [List.getElem?_nil] at hPath; cases hPath⟩
  obtain ⟨f, hBind, hSteps⟩ := bind_inv hRun
  obtain ⟨written, hWritten, hText⟩ := bind_inv hSteps
  obtain ⟨hExpands, hBare⟩ := Frame.bind_expands hEmpty p.aliases h.aliases.zero_add hBind
  have hAgrees : Agrees f (Step.runAll escaping f p.steps)
      (Step.runAll escaping f.unaliased p.unhoisted.steps) :=
    Step.runAll_expand hExpands (le_length_fullPaths p.aliases) h.steps
  have hBareSteps : Step.runAll escaping f.unaliased p.unhoisted.steps =
      .ok (written.1, written.2.unaliased) := by
    rw [hAgrees.same, hWritten]
    rfl
  -- without aliases to bind, the run starts from the empty frame
  have hStart : (p.unhoisted.emptyFrame v).bind p.unhoisted.aliases = .ok f.unaliased :=
    congrArg Except.ok hBare.symm
  rw [Plan.run, hStart]
  change (Step.runAll escaping f.unaliased p.unhoisted.steps >>= fun r => .ok r.1) = .ok text
  rw [hBareSteps]
  exact hText

/-- **Hoisting is only an optimisation.** A plan in range writes a text for
every value, and the plan with the full path of every alias in its place,
which uses no alias any more, writes the same one. The plan of a schema is in
range. -/
theorem Plan.run_unhoisted :
    (∀ p : Plan, p.InRange → p.unhoisted.InRange ∧ p.unhoisted.aliases = [] ∧
      ∀ (escaping : Json.Escaping) (v : Value), ∃ text,
        p.run escaping v = .ok text ∧ p.unhoisted.run escaping v = .ok text) ∧
    ∀ s : Schema, (Plan.ofSchema s).InRange := by
  refine ⟨fun p h => ⟨h.unhoisted, rfl, fun escaping v => ?_⟩, fun s => ?_⟩
  · obtain ⟨text, hRun⟩ := h.run_completes escaping v
    exact ⟨text, hRun, h.run_expanded hRun⟩
  · have hRoot := Schema.compile_inScope s [] .root {} (fun _ _ hPath => by simp at hPath) trivial
    exact Plan.InScope.inRange ⟨hRoot.aliases, Step.allInScope_iff.mpr hRoot.steps⟩

/-- A plan with an alias on an alias, of which the first may be missing. -/
def Plan.hoistedTwice : Plan :=
  { steps := [.reset 0, .optional (.alias 1) [.comma 0,
        .loop (.field (.alias 1) "items") 0 [.raw (.field (.item 0) "id")]] [.text "-"],
      .guarded (.alias 0) ⟨true, true, "null"⟩ [.comma 0, .quoted (.field (.alias 0) "name")]]
    groups := 1
    aliases := [.field .root "a", .field (.alias 0) "b"]
    loops := 1 }

/-- Where the parent of both aliases is null, the second one is undefined, and
so is what its full path finds. -/
theorem Plan.run_unhoisted_hoistedTwice :
    Plan.hoistedTwice.InRange ∧
      ∃ text, Plan.hoistedTwice.run .json (.object [("a", .null)]) = .ok text ∧
        Plan.hoistedTwice.unhoisted.run .json (.object [("a", .null)]) = .ok text := by
  have hRange : Plan.hoistedTwice.InRange := by
    refine ⟨fun index path hPath => ?_, ?_⟩
    · match index, hPath with
      | 0, hPath => cases hPath; trivial
      | 1, hPath => cases hPath; exact Nat.one_pos
    · refine ⟨Nat.one_pos, ⟨Nat.one_lt_two, ⟨Nat.one_pos, ⟨Nat.one_lt_two, Nat.one_pos, ?_⟩,
        trivial⟩, trivial, trivial⟩, ⟨Nat.two_pos, Nat.one_pos, Nat.two_pos, trivial⟩, trivial⟩
      exact ⟨List.mem_cons_self .., trivial⟩
  exact ⟨hRange, (Plan.run_unhoisted.1 Plan.hoistedTwice hRange).2.2 .json _⟩

end JsonStencil
