import JsonStencil.Files.Expansion
import JsonStencil.Proofs.FileTrees
import Mathlib.Data.List.Forall2
import Mathlib.Order.Defs.Unbundled

/-!
# Actions on a file system

What a run does to a file system is put together from what its actions do. An
action that looks something up leaves the file system as it is, and so does
every search for the paths of a pattern; making the directories above a path
leaves every file as it is. Both are relations between the file system before
an action and the one behind it, and go along with a preorder from the parts
of an action to the whole.

Where an action only reads, its success is known from what its parts give.

Main definitions:

* `FileSystem.Stays` — an action whose every run keeps to a relation.
* `FileSystem.SameFiles` — the same files with the same bytes.
* `FileSystem.Gives` — an action that succeeds and changes nothing.

Main results:

* `readOnly_expand` — searching for the paths of a pattern changes nothing.
* `sameFiles_makeParents` — making directories changes no file.
* `gives_bind` / `gives_flatMapM` — what a reading action gives.
* `gives_expand_name` — what a pattern for one name leads to.
-/

namespace JsonStencil

open Files (Access Failure Glob Pattern)

namespace FileSystem

/-! ## Relations along actions -/

section Stays

variable {ε α β : Type}

/-- Every run of an action relates the file system before it to the one
behind. -/
def Stays (R : FileSystem → FileSystem → Prop) (action : StateM FileSystem α) : Prop :=
  ∀ fs, R fs (action fs).2

/-- An action that leaves the file system as it is. -/
abbrev ReadOnly (action : StateM FileSystem α) : Prop := Stays Eq action

variable {R : FileSystem → FileSystem → Prop} [IsPreorder FileSystem R]

/-- Doing nothing stays in any preorder. -/
theorem stays_pure (a : α) : Stays R (pure a) := fun fs => refl_of R fs

/-- One action after another goes on from where the first one ended. -/
theorem stays_bind {x : StateM FileSystem α} {f : α → StateM FileSystem β} (hx : Stays R x)
    (hf : ∀ a, Stays R (f a)) : Stays R (x >>= f) :=
  fun fs => trans_of R (hx fs) (hf _ _)

/-- Nor does giving a result change anything. -/
theorem stays_ok (a : α) : Stays R (pure a : ExceptT ε (StateM FileSystem) α).run := stays_pure _

/-- Nor does failing. -/
theorem stays_throw (e : ε) : Stays R (throw e : ExceptT ε (StateM FileSystem) α).run :=
  stays_pure _

/-- An action that cannot fail stays so among those that can. -/
theorem stays_lift {x : StateM FileSystem α} (h : Stays R x) :
    Stays R (liftM x : ExceptT ε (StateM FileSystem) α).run := stays_bind h fun _ => stays_pure _

/-- An action that may fail goes on only behind a success. -/
theorem stays_andThen {x : ExceptT ε (StateM FileSystem) α}
    {f : α → ExceptT ε (StateM FileSystem) β} (hx : Stays R x.run) (hf : ∀ a, Stays R (f a).run) :
    Stays R (x >>= f).run := by
  rw [ExceptT.run_bind]
  refine stays_bind hx fun result => ?_
  cases result with
  | error e => exact stays_pure _
  | ok a => exact hf a

/-- Actions for some items keep to the relation if each does. -/
theorem stays_flatMapM {f : α → ExceptT ε (StateM FileSystem) (List β)}
    (hf : ∀ a, Stays R (f a).run) (xs : List α) : Stays R (xs.flatMapM f).run := by
  induction xs with
  | nil => exact stays_ok []
  | cons x rest ih =>
    rw [List.flatMapM_cons]
    exact stays_andThen (hf x) fun first => stays_andThen ih fun others => stays_ok _

/-- So do questions that are asked of some items. -/
theorem stays_filterM {p : α → ExceptT ε (StateM FileSystem) Bool}
    (hp : ∀ a, Stays R (p a).run) (xs : List α) : Stays R (xs.filterM p).run := by
  -- the questions are asked with what is kept so far at hand
  have hAux (kept : List α) : Stays R (xs.filterAuxM p kept).run := by
    induction xs generalizing kept with
    | nil => exact stays_ok kept
    | cons x rest ih => exact stays_andThen (hp x) fun keep => ih _
  exact stays_andThen (hAux []) fun kept => stays_ok _

end Stays

/-! ## Reading -/

/-- Reading a file changes nothing. -/
theorem readOnly_read (path : String) : ReadOnly (access.read path) := fun _ => rfl

/-- Nor does listing a directory. -/
theorem readOnly_names (path : String) : ReadOnly (access.names path) := fun _ => rfl

/-- Nor does asking for a directory. -/
theorem readOnly_isDirectory (path : String) : ReadOnly (access.isDirectory path) := fun _ => rfl

/-- Nor does looking up a name. -/
theorem readOnly_isThere (path name : String) : ReadOnly (access.isThere path name) := by
  unfold Access.isThere
  split
  · exact readOnly_isDirectory path
  · exact fun _ => rfl

/-- Nor does a listing that may fail. -/
theorem readOnly_list (path : String) : ReadOnly (access.list path).run := by
  refine stays_andThen (stays_lift (readOnly_names path)) fun result => ?_
  cases result with
  | error failure => exact stays_throw _
  | ok names => exact stays_ok names

/-- Following patterns changes nothing, however many directories it enters. -/
theorem readOnly_below (fuel : Nat) : ∀ (patterns : List Pattern) (path : String),
    ReadOnly (Glob.below access fuel patterns path).run := by
  -- on the number of directories that may still be entered
  induction fuel with
  | zero =>
    intro patterns path
    cases patterns with
    | nil => exact stays_ok _
    | cons pattern rest => exact stays_ok _
  | succ fuel ih =>
    intro patterns path
    cases patterns with
    | nil => exact stays_ok _
    | cons pattern rest =>
      rw [Glob.below]
      split
      · refine stays_andThen (stays_lift (readOnly_isThere _ _)) fun there => ?_
        cases there with
        | true => exact ih rest _
        | false => exact stays_ok _
      · refine stays_andThen (stays_lift (readOnly_isDirectory _)) fun directory => ?_
        cases directory with
        | false => exact stays_ok _
        | true =>
          refine stays_andThen (readOnly_list path) fun names => ?_
          refine stays_andThen (stays_flatMapM (fun name => ih rest _) _) fun special => ?_
          refine stays_andThen (stays_flatMapM (fun name => ?_) _) fun found => stays_ok _
          extract_lets child finish
          -- what `**` finds behind a name, whatever it found inside
          have hFinish (inner : List String) : ReadOnly (finish inner).run := by
            unfold finish
            split
            · exact stays_andThen (stays_lift (readOnly_isDirectory _)) fun _ => stays_ok _
            · dsimp only
              split
              · exact stays_andThen (ih _ _) fun own => stays_ok _
              · exact stays_andThen (stays_ok []) fun own => stays_ok _
          split
          · split
            · exact ih rest _
            · exact stays_ok _
          · refine stays_andThen (stays_lift (readOnly_isDirectory _)) fun inside => ?_
            cases inside with
            | true => exact stays_andThen (ih _ _) hFinish
            | false => exact stays_andThen (stays_ok []) hFinish

/-- Searching for the paths of a pattern changes nothing. -/
theorem readOnly_expand (glob : Glob) : ReadOnly (glob.expand access).run := by
  refine stays_andThen (readOnly_below _ _ _) fun found => ?_
  split
  · exact stays_filterM (fun path => stays_lift (readOnly_isDirectory path)) found
  · exact stays_ok found

/-! ## Writing -/

/-- Every file is as before, and no other file is there. -/
def SameFiles (fs fs' : FileSystem) : Prop := ∀ place, fs'.fileAt? place = fs.fileAt? place

instance : IsPreorder FileSystem SameFiles where
  refl _ _ := rfl
  trans _ _ _ h h' place := (h' place).trans (h place)

/-- Making one directory changes no file, whether it succeeds or not. -/
theorem sameFiles_makeDirectory (path : String) : Stays SameFiles (access.makeDirectory path) := by
  intro fs
  show SameFiles fs (changing (·.makeDirectory path) fs).2
  rw [changing]
  split
  · next fs' hMade => exact fileAt?_makeDirectory hMade
  · exact refl_of SameFiles fs

/-- Nor does making one unless it is there. -/
theorem sameFiles_ensureDirectory (path : String) :
    Stays SameFiles (access.ensureDirectory path) := by
  refine stays_bind (sameFiles_makeDirectory path) fun result => ?_
  cases result with
  | ok made => exact stays_pure _
  | error failure =>
    refine stays_bind (fun fs => refl_of SameFiles fs) fun there => ?_
    cases there <;> exact stays_pure _

/-- Nor does making several, each inside the next. -/
theorem sameFiles_makeDirectories (paths : List String) :
    Stays SameFiles (access.makeDirectories paths) := by
  induction paths with
  | nil => exact stays_pure _
  | cons path above ih =>
    refine stays_bind (sameFiles_ensureDirectory path) fun result => ?_
    -- the directories above are made only if they were missing
    split
    · refine stays_bind ih fun others => ?_
      cases others with
      | error failure => exact stays_pure _
      | ok made => exact sameFiles_ensureDirectory path
    · exact stays_pure _

/-- Directories are made, but no file changes. -/
theorem sameFiles_makeParents (path : String) : Stays SameFiles (access.makeParents path) :=
  sameFiles_makeDirectories _

/-! ## Results -/

section Gives

variable {ε α β : Type} {fs : FileSystem}

/-- Behind an action the next one runs on the file system that it left. -/
theorem run_bind (x : StateM FileSystem α) (f : α → StateM FileSystem β) :
    (x >>= f).run fs = (f (x fs).1).run (x fs).2 := rfl

/-- So it does where the next one may fail. -/
theorem run_lift_bind (x : StateM FileSystem α) (f : α → ExceptT ε (StateM FileSystem) β) :
    (liftM x >>= f : ExceptT ε (StateM FileSystem) β).run fs = (f (x fs).1).run (x fs).2 := rfl

/-- An action succeeds with a result and leaves the file system as it is. -/
def Gives (action : ExceptT ε (StateM FileSystem) α) (fs : FileSystem) (a : α) : Prop :=
  action.run fs = (.ok a, fs)

/-- An action gives one result. -/
theorem Gives.unique {x : ExceptT ε (StateM FileSystem) α} {a b : α} (h : Gives x fs a)
    (h' : Gives x fs b) : a = b :=
  Except.ok.inj (congrArg Prod.fst (h.symm.trans h'))

/-- A result that is given at once is that result. -/
theorem gives_pure {a b : α} :
    Gives (pure a : ExceptT ε (StateM FileSystem) α) fs b ↔ a = b := by
  show ((.ok a, fs) : Except ε α × FileSystem) = (.ok b, fs) ↔ a = b
  simp

/-- A failure gives none. -/
theorem not_gives_throw {e : ε} {a : α} :
    ¬ Gives (throw e : ExceptT ε (StateM FileSystem) α) fs a := by
  intro h
  exact nomatch (Prod.mk.inj h).1

/-- Behind a reading action that cannot fail, it is for the rest to give a
result. -/
theorem gives_lift_bind {x : StateM FileSystem α} (hx : ReadOnly x)
    {f : α → ExceptT ε (StateM FileSystem) β} {b : β} :
    Gives (liftM x >>= f) fs b ↔ Gives (f (x fs).1) fs b := by
  rw [Gives, run_lift_bind, ← hx fs]
  rfl

/-- What begins with reading a file gives what it makes of the content, if a
failure to read ends it. -/
theorem gives_read {path : String}
    {f : Except Failure (List UInt8) → ExceptT ε (StateM FileSystem) α} {a : α}
    (hFails : ∀ failure, ¬ Gives (f (.error failure)) fs a) :
    Gives (liftM (access.read path) >>= f) fs a ↔
      ∃ content, fs.read path = .ok content ∧ Gives (f (.ok content)) fs a := by
  rw [gives_lift_bind (readOnly_read path)]
  show Gives (f (fs.read path)) fs a ↔ _
  cases fs.read path with
  | error failure => simp [hFails]
  | ok content => simp

/-- Behind an action that succeeds the next one runs. -/
theorem run_bind_ok {x : ExceptT ε (StateM FileSystem) α}
    {f : α → ExceptT ε (StateM FileSystem) β} {a : α} {after : FileSystem}
    (h : x.run fs = (.ok a, after)) : (x >>= f).run fs = (f a).run after := by
  rw [ExceptT.run_bind]
  simp only [bind, StateT.bind, h]

/-- An action that fails is the last one. -/
theorem run_bind_error {x : ExceptT ε (StateM FileSystem) α}
    {f : α → ExceptT ε (StateM FileSystem) β} {e : ε} {after : FileSystem}
    (h : x.run fs = (.error e, after)) : (x >>= f).run fs = (.error e, after) := by
  rw [ExceptT.run_bind]
  simp only [bind, StateT.bind, h]
  rfl

/-- An action that reads gives what its parts give. -/
theorem gives_bind {x : ExceptT ε (StateM FileSystem) α} {f : α → ExceptT ε (StateM FileSystem) β}
    (hx : ReadOnly x.run) {b : β} :
    Gives (x >>= f) fs b ↔ ∃ a, Gives x fs a ∧ Gives (f a) fs b := by
  have hState : fs = (x.run fs).2 := hx fs
  constructor
  · intro h
    -- the first action has failed or it has given a result, in the same file system
    cases hResult : (x.run fs).1 with
    | error e =>
      have hRun : x.run fs = (.error e, fs) := Prod.ext hResult hState.symm
      rw [Gives, run_bind_error hRun] at h
      cases h
    | ok a =>
      have hRun : x.run fs = (.ok a, fs) := Prod.ext hResult hState.symm
      rw [Gives, run_bind_ok hRun] at h
      exact ⟨a, hRun, h⟩
  · rintro ⟨a, hGives, h⟩
    rw [Gives, run_bind_ok hGives]
    exact h

/-- The lists that an action gives for some items come one behind the
other. -/
theorem gives_flatMapM {f : α → ExceptT ε (StateM FileSystem) (List β)}
    (hf : ∀ a, ReadOnly (f a).run) {xs : List α} {ys : List β} :
    Gives (xs.flatMapM f) fs ys ↔
      ∃ lists, List.Forall₂ (fun x list => Gives (f x) fs list) xs lists ∧ lists.flatten = ys := by
  -- no step changes a file, so each one finds what the first one found
  induction xs generalizing ys with
  | nil =>
    rw [List.flatMapM_nil, gives_pure]
    simp
  | cons x rest ih =>
    rw [List.flatMapM_cons, gives_bind (hf x)]
    constructor
    · rintro ⟨first, hFirst, hRest⟩
      obtain ⟨others, hOthers, hEnd⟩ := (gives_bind (stays_flatMapM hf rest)).mp hRest
      obtain ⟨lists, hLists, rfl⟩ := ih.mp hOthers
      exact ⟨first :: lists, .cons hFirst hLists, gives_pure.mp hEnd⟩
    · rintro ⟨lists, hLists, rfl⟩
      cases hLists with
      | cons hFirst hRest =>
        refine ⟨_, hFirst, (gives_bind (stays_flatMapM hf rest)).mpr
          ⟨_, ih.mpr ⟨_, hRest, rfl⟩, ?_⟩⟩
        exact gives_pure.mpr rfl

/-- Keeping an item or leaving it out changes nothing. -/
theorem readOnly_keep (keep : Bool) (x : α) : ReadOnly
    (if keep then pure [x] else pure [] : ExceptT ε (StateM FileSystem) (List α)).run := by
  cases keep <;> exact stays_ok _

/-- Items taken one by one, each kept or left out. -/
theorem gives_flatMapM_filter (keeps : α → Bool) (xs : List α) :
    Gives (xs.flatMapM fun x => if keeps x then pure [x] else pure [] :
      ExceptT ε (StateM FileSystem) (List α)) fs (xs.filter keeps) := by
  refine (gives_flatMapM fun x => readOnly_keep (keeps x) x).mpr
    ⟨xs.map fun x => if keeps x then [x] else [], ?_, ?_⟩
  · rw [List.forall₂_map_right_iff, List.forall₂_same]
    intro x _
    split <;> exact gives_pure.mpr rfl
  · induction xs with
    | nil => rfl
    | cons x rest ih =>
      rw [List.map_cons, List.flatten_cons, ih, List.filter_cons]
      split <;> rfl

/-- Only a directory has names. -/
theorem isDirectory_of_names {path : String} {names : List String}
    (h : fs.names path = .ok names) : (access.isDirectory path fs).1 = true := by
  show (fs.kind? path == some .directory) = true
  rw [FileSystem.names] at h
  rw [FileSystem.kind?]
  -- only a directory has names to list
  cases hNode : fs.node path with
  | error failure =>
    rw [hNode] at h
    cases h
  | ok node =>
    rw [hNode] at h
    cases node with
    | file content => cases h
    | directory entries => rfl

/-- A pattern with a wildcard leads to those names of the directory that
relative paths start from which it admits, in ascending order. Left out are
patterns that lead to more: with a point in front, and for directories of any
depth. -/
theorem gives_expand_name {pattern : Pattern} {names : List String}
    (hWild : pattern.literal? = none) (hOne : pattern.isRecursive = false)
    (hPoint : pattern.points = []) (hNames : fs.names "." = .ok names) :
    Gives (Glob.expand access ⟨false, [pattern], false⟩) fs
      (names.filter fun name => pattern.admits name.toList) := by
  have hNamed : (access.names "." fs).1 = .ok names := hNames
  have hList : Gives (access.list ".") fs names := by
    rw [Access.list, gives_lift_bind (readOnly_names "."), hNamed]
    exact gives_pure.mpr rfl
  -- the directory is listed once, and nothing is followed below the names admitted
  have hBelow (fuel : Nat) : Gives (Glob.below access (fuel + 1) [pattern] ".") fs
      (names.filter fun name => pattern.admits name.toList) := by
    have hHere (name : String) : Files.within "." name = name := if_pos rfl
    have hEnd (name : String) : Glob.below access fuel [] name = pure [name] := by
      cases fuel <;> rw [Glob.below]
    rw [Glob.below, hWild]
    dsimp only
    rw [gives_lift_bind (readOnly_isDirectory _), isDirectory_of_names hNames, hPoint]
    simp only [hOne, hHere, hEnd, Bool.not_true, Bool.not_false, Bool.false_eq_true, if_false,
      if_true]
    refine (gives_bind (readOnly_list ".")).mpr ⟨names, hList, ?_⟩
    exact (gives_bind (stays_ok _)).mpr ⟨[], gives_pure.mpr rfl,
      (gives_bind (stays_flatMapM (fun name => readOnly_keep _ name) names)).mpr
        ⟨_, gives_flatMapM_filter _ names, gives_pure.mpr rfl⟩⟩
  exact (gives_bind (readOnly_below _ _ _)).mpr ⟨_, hBelow Glob.maxDepth, gives_pure.mpr rfl⟩

end Gives

end FileSystem
end JsonStencil
