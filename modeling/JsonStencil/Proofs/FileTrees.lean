import JsonStencil.Files.Memory
import JsonStencil.Proofs.Computations

/-!
# Places in a file tree

What stands at a place is a directory, a file with its bytes, or nothing.
Putting a node inside a directory changes what stands at its place and below
and nothing else. An operation that makes a directory where nothing was
therefore touches no file, and one that writes a file touches that one alone.

Main definitions:

* `FileTree.look?` — what stands at the end of some names.
* `FileSystem.fileAt?` — the bytes of the file at a place.

Main results:

* `FileTree.look?_put` — what stands where after a put.
* `FileSystem.fileAt?_makeDirectory` — a directory that is made changes no file.
* `FileSystem.fileAt?_write` — a file that is written is there, and every
  other file is as before.
-/

namespace JsonStencil

open Files (Failure)

namespace FileTree

/-- The bytes of a file; a directory has none. -/
def content? : FileTree → Option (List UInt8)
  | .file content => some content
  | .directory _ => none

/-- What stands at the end of some names, if anything does: a file with its
bytes or a directory. -/
def look? (tree : FileTree) (names : List String) : Option (Option (List UInt8)) :=
  (tree.at? names).map content?

/-- Looking along some names begins with the entry under the first. -/
theorem look?_cons (tree : FileTree) (name : String) (rest : List String) :
    tree.look? (name :: rest) = (tree.entries.lookup name).bind (·.look? rest) := by
  rw [look?, at?]
  cases tree.entries.lookup name <;> rfl

/-- Names in two parts are followed one part after the other. -/
theorem at?_append (tree : FileTree) (first second : List String) :
    tree.at? (first ++ second) = (tree.at? first).bind (·.at? second) := by
  induction first generalizing tree with
  | nil => rfl
  | cons name rest ih =>
    rw [List.cons_append, at?, at?]
    cases tree.entries.lookup name with
    | none => rfl
    | some below => exact ih below

/-- Nothing stands below a file. -/
theorem look?_below {tree : FileTree} {place : List String}
    (h : tree.look? place ≠ some none) {rest : List String} (hRest : rest ≠ []) :
    tree.look? (place ++ rest) = none := by
  obtain ⟨name, others, rfl⟩ := List.exists_cons_of_ne_nil hRest
  rw [look?, at?_append]
  rw [look?] at h
  cases hAt : tree.at? place with
  | none => rfl
  | some node =>
    rw [hAt] at h
    cases node with
    | file content => rfl
    | directory entries => exact absurd rfl h

/-- Putting a node under a name inside a directory changes what stands at its
place and below, and nothing else. -/
theorem look?_put {node tree : FileTree} {place : List String} {name : String}
    (h : tree.look? place = some none) (names : List String) :
    (put node (place ++ [name]) tree).look? names =
      if place ++ [name] <+: names then node.look? (names.drop (place ++ [name]).length)
      else tree.look? names := by
  -- down to the directory; beside the way down nothing is put
  induction place generalizing tree names with
  | nil =>
    cases names with
    | nil => exact h.symm
    | cons first rest =>
      rw [List.nil_append, put, look?_cons, entries]
      by_cases hFirst : first = name
      · subst hFirst
        rw [Fields.lookup_put_self, if_pos (by simp)]
        rfl
      · rw [Fields.lookup_put_of_ne hFirst, if_neg (by simp [Ne.symm hFirst]), look?_cons]
  | cons step more ih =>
    rw [look?_cons] at h
    obtain ⟨below, hBelow, hDirectory⟩ := Option.bind_eq_some_iff.mp h
    cases names with
    | nil =>
      -- what has an entry is a directory
      cases tree with
      | file content => cases hBelow
      | directory entries => rfl
    | cons first rest =>
      rw [List.cons_append, put, look?_cons, entries, hBelow, Option.getD_some]
      by_cases hFirst : first = step
      · subst hFirst
        rw [Fields.lookup_put_self, Option.bind_some, ih hDirectory, look?_cons, hBelow]
        simp only [List.prefix_cons_inj, List.length_cons, List.drop_succ_cons, Option.bind_some]
      · rw [Fields.lookup_put_of_ne hFirst,
          if_neg (by simp [List.cons_prefix_cons, Ne.symm hFirst]), look?_cons]

end FileTree

namespace FileSystem

variable {fs fs' : FileSystem}

/-- What stands at a place. -/
def look? (fs : FileSystem) (place : List String) : Option (Option (List UInt8)) :=
  fs.root.look? place

/-- The bytes of the file at a place. -/
def fileAt? (fs : FileSystem) (place : List String) : Option (List UInt8) :=
  (fs.look? place).join

/-- A directory stands where something without bytes stands. -/
theorem isDirectoryAt_iff (place : List String) :
    fs.isDirectoryAt place = true ↔ fs.look? place = some none := by
  rw [isDirectoryAt, look?, FileTree.look?]
  cases fs.root.at? place with
  | none => simp
  | some node => cases node <;> simp [FileTree.content?]

/-- What is looked at is there whenever its node is. -/
theorem isSome_at? (place : List String) :
    (fs.root.at? place).isSome = (fs.look? place).isSome := by
  rw [look?, FileTree.look?, Option.isSome_map]

/-! ## Walking -/

/-- A step that is possible is so too where the same directories are and
whatever was there still is. -/
theorem step_congr (hDirectories : ∀ place, fs'.isDirectoryAt place = fs.isDirectoryAt place)
    (hThere : ∀ place, (fs.root.at? place).isSome → (fs'.root.at? place).isSome)
    {place reached : List String} {name : String} (h : fs.step place name = .ok reached) :
    fs'.step place name = .ok reached := by
  -- the step asks its questions in turn, and each has the same answer
  unfold step at h ⊢
  rw [hDirectories]
  split at h
  · cases h
  · next hDirectory =>
    rw [if_neg hDirectory]
    split at h
    · next hHere => rw [if_pos hHere, h]
    · next hHere =>
      rw [if_neg hHere]
      split at h
      · next hUp => rw [if_pos hUp, h]
      · next hUp =>
        rw [if_neg hUp]
        split at h
        · cases h
        · next hLong =>
          rw [if_neg hLong]
          split at h
          · next hFound => rw [if_pos (hThere _ hFound), h]
          · cases h

/-- A way is its first step and then the rest. -/
theorem walk_cons (fs : FileSystem) (place : List String) (name : String) (rest : List String) :
    fs.walk place (name :: rest) = fs.step place name >>= (fs.walk · rest) :=
  List.foldlM_cons ..

/-- A way in two parts goes on where the first one ends. -/
theorem walk_append (fs : FileSystem) (place first second : List String) :
    fs.walk place (first ++ second) = fs.walk place first >>= (fs.walk · second) :=
  List.foldlM_append ..

/-- So is a whole way. -/
theorem walk_congr (hDirectories : ∀ place, fs'.isDirectoryAt place = fs.isDirectoryAt place)
    (hThere : ∀ place, (fs.root.at? place).isSome → (fs'.root.at? place).isSome)
    {place reached names : List String} (h : fs.walk place names = .ok reached) :
    fs'.walk place names = .ok reached := by
  -- step by step, each from where the one before has led
  induction names generalizing place with
  | nil => exact h
  | cons name rest ih =>
    rw [walk_cons] at h ⊢
    obtain ⟨next, hStep, hRest⟩ := bind_inv h
    rw [step_congr hDirectories hThere hStep]
    exact ih hRest

/-! ## Operations -/

/-- What an operation that puts a node has found. -/
theorem locateLast_inv {path : String} {place : List String} {last : String} {slashed : Bool}
    (h : fs.locateLast path = .ok (place, last, slashed)) :
    fs.isDirectoryAt place = true ∧ path.isEmpty = false ∧ ¬ maxPath < path.utf8ByteSize ∧
      let kept := ((fs.route path).2.reverse.dropWhile String.isEmpty).reverse
      fs.walk (fs.route path).1 kept.dropLast = .ok place ∧ last = kept.getLast?.getD "." ∧
        slashed = decide (kept.length < (fs.route path).2.length) := by
  unfold locateLast at h
  -- no empty path, none that is too long, and no directory that is missing
  split at h
  · cases h
  · next hSome =>
    split at h
    · cases h
    · next hShort =>
      obtain ⟨reached, hWalk, hEnd⟩ := bind_inv h
      dsimp only at hEnd
      split at hEnd
      · next hDirectory =>
        cases hEnd
        exact ⟨hDirectory, Bool.eq_false_iff.mpr hSome, hShort, hWalk, rfl, rfl⟩
      · cases hEnd

/-- A directory that is made changes no file. -/
theorem fileAt?_makeDirectory {path : String} (h : fs.makeDirectory path = .ok fs')
    (place : List String) : fs'.fileAt? place = fs.fileAt? place := by
  obtain ⟨⟨inside, last, slashed⟩, hLast, hMade⟩ := bind_inv h
  have hDirectory := (isDirectoryAt_iff inside).mp (locateLast_inv hLast).1
  dsimp only at hMade
  split at hMade
  · cases hMade
  · next hFree =>
    split at hMade
    · cases hMade
    · cases hMade
      have hNone : fs.look? (inside ++ [last]) = none := by
        rw [not_or, isSome_at?, Option.not_isSome_iff_eq_none] at hFree
        exact hFree.2
      -- a look either goes by the new directory or passes through it
      rw [fileAt?, fileAt?, look?, putAt, FileTree.look?_put hDirectory]
      split
      · next hBelow =>
        -- nothing is below the new directory, and nothing was there before
        obtain ⟨rest, rfl⟩ := hBelow
        rw [List.drop_left]
        cases rest with
        | nil =>
          rw [List.append_nil, hNone]
          rfl
        | cons name others =>
          have hBefore : fs.look? (inside ++ [last] ++ name :: others) = none :=
            FileTree.look?_below (by rw [← look?, hNone]; exact nofun) (List.cons_ne_nil _ _)
          rw [hBefore]
          rfl
      · rfl

section Write

variable {path : String} {content : List UInt8}

/-- What writing a file changes. -/
theorem write_inv (h : fs.write path content = .ok fs') : ∃ place last,
    fs.locateLast path = .ok (place, last, false) ∧ isPoints last = false ∧
      ¬ maxName < last.utf8ByteSize ∧ fs.isDirectoryAt (place ++ [last]) = false ∧
        fs'.here = fs.here ∧ ∀ names, fs'.look? names =
          if names = place ++ [last] then some (some content) else fs.look? names := by
  obtain ⟨⟨place, last, slashed⟩, hLast, hWritten⟩ := bind_inv h
  have hDirectory := (isDirectoryAt_iff place).mp (locateLast_inv hLast).1
  dsimp only at hWritten
  split at hWritten
  · cases hWritten
  · next hFree =>
    split at hWritten
    · cases hWritten
    · next hShort =>
      cases hWritten
      rw [not_or, not_or, Bool.not_eq_true, Bool.not_eq_true, Bool.not_eq_true] at hFree
      obtain ⟨rfl, hName, hNoDirectory⟩ := hFree
      refine ⟨place, last, hLast, hName, hShort, hNoDirectory, rfl, fun names => ?_⟩
      have hNoDirectory : fs.look? (place ++ [last]) ≠ some none := fun hEq =>
        Bool.eq_false_iff.mp hNoDirectory ((isDirectoryAt_iff _).mpr hEq)
      rw [look?, putAt, FileTree.look?_put hDirectory]
      -- at the place there is the content, below it there is nothing, and elsewhere
      -- nothing has changed
      by_cases hBelow : place ++ [last] <+: names
      · rw [if_pos hBelow]
        obtain ⟨rest, rfl⟩ := hBelow
        rw [List.drop_left]
        cases rest with
        | nil => rw [List.append_nil, if_pos rfl]; rfl
        | cons name others =>
          -- below what is no directory there was nothing to lose
          have hBefore : fs.look? (place ++ [last] ++ name :: others) = none :=
            FileTree.look?_below hNoDirectory (List.cons_ne_nil _ _)
          rw [if_neg (by simp), hBefore]
          rfl
      · rw [if_neg hBelow, if_neg (by rintro rfl; exact hBelow (List.prefix_refl _))]
        rfl

/-- Where no slash follows the last name, it is the last of all and not
empty. -/
theorem kept_of_not_slashed {names : List String}
    (h : ¬ (names.reverse.dropWhile String.isEmpty).reverse.length < names.length) :
    (names.reverse.dropWhile String.isEmpty).reverse = names ∧
      ∀ hSome : names ≠ [], names.getLast hSome ≠ "" := by
  have hSuffix := List.dropWhile_suffix (l := names.reverse) String.isEmpty
  have hEq := hSuffix.eq_of_length_le (by simpa using h)
  refine ⟨by rw [hEq, List.reverse_reverse], fun hSome hEmpty => ?_⟩
  have hReverse : names.reverse = "" :: names.dropLast.reverse := by
    rw [← hEmpty, ← List.reverse_concat, List.dropLast_concat_getLast]
  rw [hReverse, List.dropWhile_cons_of_pos rfl] at hEq
  have hShorter := (List.dropWhile_suffix (l := names.dropLast.reverse) String.isEmpty).length_le
  rw [hEq, List.length_cons] at hShorter
  omega

/-- A file that is written is found under its path, and every other file is
as before. -/
theorem fileAt?_write (h : fs.write path content = .ok fs') : ∃ place,
    fs'.locate path = .ok place ∧ fs'.fileAt? place = some content ∧
      ∀ other, other ≠ place → fs'.fileAt? other = fs.fileAt? other := by
  obtain ⟨place, last, hLast, hName, hShort, hNoDirectory, hHere, hLook⟩ := write_inv h
  obtain ⟨hDirectory, hSome, hPath, hWalk, hKept, hSlashed⟩ := locateLast_inv hLast
  have hRoute : fs'.route path = fs.route path := by rw [route, route, hHere]
  have hDirectories (p : List String) : fs'.isDirectoryAt p = fs.isDirectoryAt p := by
    rw [Bool.eq_iff_iff, isDirectoryAt_iff, isDirectoryAt_iff, hLook]
    split
    · next hEq =>
      subst hEq
      rw [← isDirectoryAt_iff, hNoDirectory]
      simp
    · rfl
  have hThere (p : List String) (hp : (fs.root.at? p).isSome) : (fs'.root.at? p).isSome := by
    rw [isSome_at?] at hp ⊢
    rw [hLook]
    split
    · rfl
    · exact hp
  -- the same directories are there and nothing is gone, so that the way is walked as before
  have hWalk := walk_congr hDirectories hThere hWalk
  generalize hNames : (fs.route path).2 = names at hWalk hKept hSlashed
  -- no slash follows the path, so that its last name is that of the file
  obtain ⟨hAll, hFull⟩ := kept_of_not_slashed (of_decide_eq_false hSlashed.symm)
  rw [hAll] at hWalk hKept
  have hNonempty : names ≠ [] := by
    rintro rfl
    rw [hKept] at hName
    cases hName
  rw [List.getLast?_eq_some_getLast hNonempty] at hKept
  have hSplit : names.dropLast ++ [last] = names := by
    rw [hKept]
    exact List.dropLast_concat_getLast hNonempty
  have hLastSome : last ≠ "" := by
    rw [hKept]
    exact hFull hNonempty
  have hStep : fs'.step place last = .ok (place ++ [last]) := by
    have hFound : (fs'.root.at? (place ++ [last])).isSome := by
      rw [isSome_at?, hLook, if_pos rfl]
      rfl
    simp only [isPoints, Bool.or_eq_false_iff, beq_eq_false_iff_ne] at hName
    unfold step
    rw [hDirectories, hDirectory, if_neg (by decide), if_neg (by simp [hLastSome, hName.1]),
      if_neg hName.2, if_neg hShort, if_pos hFound]
  refine ⟨place ++ [last], ?_, ?_, ?_⟩
  · rw [locate, hSome, if_neg Bool.false_ne_true, if_neg hPath, hRoute, hNames, ← hSplit,
      walk_append, hWalk]
    show fs'.walk place [last] = _
    rw [walk_cons, hStep]
    rfl
  · rw [fileAt?, hLook, if_pos rfl]
    rfl
  · intro other hOther
    rw [fileAt?, fileAt?, hLook, if_neg hOther]

end Write

end FileSystem

end JsonStencil
