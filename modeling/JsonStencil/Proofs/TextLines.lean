import JsonStencil.Text.Lines

/-!
# The lines of a text

What the lines of a text are is said here without a program: a line ends with
a line feed, or with a carriage return and a line feed, and what is behind the
last end is a line unless it is empty. Every text has lines in this sense, it
has them in one way only, and they are the ones that the reader finds. The
other way round, texts with a line feed behind each of them are lines again if
none of them holds a line feed or ends in a carriage return.

Main definitions:

* `Text.HasLines` — a text and its lines.
* `Text.terminated` — texts with a line feed behind each.

Main results:

* `Text.lines_eq_iff` — the reader finds the lines.
* `Text.unlines_eq` — what is written one below the other.
* `Text.hasLines_terminated` — what is written is read again.
-/

namespace JsonStencil.Text

/-! ## Lines and their ends -/

/-- A text and its lines, which are without their ends. A carriage return
belongs to an end only if a line feed is right behind it. -/
inductive HasLines : String → List String → Prop
  | nil : HasLines "" []
  | last {line : String} (hSome : line ≠ "") (hFeed : '\n' ∉ line.toList) : HasLines line [line]
  | feed {line rest : String} {lines : List String} (hFeed : '\n' ∉ line.toList)
      (hReturn : line.toList.getLast? ≠ some '\r') (hRest : HasLines rest lines) :
      HasLines (line ++ "\n" ++ rest) (line :: lines)
  | returnFeed {line rest : String} {lines : List String} (hFeed : '\n' ∉ line.toList)
      (hRest : HasLines rest lines) : HasLines (line ++ "\r\n" ++ rest) (line :: lines)

/-- Every text has lines. -/
theorem exists_hasLines (chars : List Char) : ∃ lines, HasLines (String.ofList chars) lines := by
  by_cases hFeed : '\n' ∈ chars
  · -- the first line feed ends a line, and what is behind it is shorter
    obtain ⟨line, rest, rfl, hLine⟩ := List.eq_append_cons_of_mem hFeed
    obtain ⟨lines, hRest⟩ := exists_hasLines rest
    -- a carriage return in front of the line feed belongs to it
    by_cases hReturn : line.getLast? = some '\r'
    · obtain ⟨front, rfl⟩ := List.getLast?_eq_some_iff.mp hReturn
      have hFront : '\n' ∉ front := fun hMem => hLine (List.mem_append_left _ hMem)
      have hSplit : String.ofList (front ++ ['\r'] ++ '\n' :: rest) =
          String.ofList front ++ "\r\n" ++ String.ofList rest := by simp [← String.toList_inj]
      rw [hSplit]
      exact ⟨_, .returnFeed (by rwa [String.toList_ofList]) hRest⟩
    · have hSplit : String.ofList (line ++ '\n' :: rest) =
          String.ofList line ++ "\n" ++ String.ofList rest := by simp [← String.toList_inj]
      rw [hSplit]
      exact ⟨_, .feed (by rwa [String.toList_ofList]) (by rwa [String.toList_ofList]) hRest⟩
  · cases chars with
    | nil => exact ⟨[], .nil⟩
    | cons c rest =>
      -- what no line feed ends is the last line
      refine ⟨_, .last (fun hEmpty => ?_) (by rwa [String.toList_ofList])⟩
      have hChars := congrArg String.toList hEmpty
      rw [String.toList_ofList] at hChars
      exact nomatch hChars
termination_by chars.length
decreasing_by
  rename_i hChars
  subst hChars
  simp only [List.length_append, List.length_cons]
  omega

/-- A line ends at the first line feed. -/
theorem linesFrom_append (start : List Char) {line : List Char} (h : '\n' ∉ line)
    (rest : List Char) : linesFrom start (line ++ '\n' :: rest) =
      String.ofList (dropReturn (start.reverse ++ line)) :: linesFrom [] rest := by
  induction line generalizing start with
  | nil => rw [List.nil_append, linesFrom, if_pos rfl, List.append_nil]
  | cons c line ih =>
    rw [List.mem_cons, not_or] at h
    rw [List.cons_append, linesFrom, if_neg (Ne.symm h.1), ih _ h.2, List.reverse_cons,
      List.append_assoc, List.singleton_append]

/-- Without a line feed all of it is one line. -/
theorem linesFrom_of_not_mem (start : List Char) {line : List Char} (h : '\n' ∉ line)
    (hSome : start ≠ [] ∨ line ≠ []) :
    linesFrom start line = [String.ofList (start.reverse ++ line)] := by
  induction line generalizing start with
  | nil =>
    have hStart : start ≠ [] := hSome.resolve_right fun hNone => hNone rfl
    rw [linesFrom, if_neg (by simpa using hStart), List.append_nil]
  | cons c line ih =>
    rw [List.mem_cons, not_or] at h
    rw [linesFrom, if_neg (Ne.symm h.1), ih _ h.2 (.inl (List.cons_ne_nil _ _)),
      List.reverse_cons, List.append_assoc, List.singleton_append]

/-- Whatever the lines of a text are, they are the ones that the reader
finds. -/
theorem HasLines.lines_eq {s : String} {found : List String} (h : HasLines s found) :
    lines s = found := by
  induction h with
  | nil => rfl
  | @last line hSome hFeed =>
    have hChars : line.toList ≠ [] := fun hNone => hSome (String.toList_inj.mp hNone)
    rw [lines, linesFrom_of_not_mem [] hFeed (.inr hChars)]
    simp
  | @feed line rest _ hFeed hReturn _ ih =>
    rw [lines, String.toList_append, String.toList_append, List.append_assoc]
    show linesFrom [] (line.toList ++ '\n' :: rest.toList) = _
    rw [linesFrom_append [] hFeed, List.reverse_nil, List.nil_append, dropReturn, if_neg hReturn,
      String.ofList_toList]
    exact congrArg _ ih
  | @returnFeed line rest _ hFeed _ ih =>
    -- the carriage return is read with the line and dropped at its end
    have hReturnFeed : '\n' ∉ line.toList ++ ['\r'] := by simp [hFeed]
    have hSplit : (line ++ "\r\n" ++ rest).toList =
        (line.toList ++ ['\r']) ++ '\n' :: rest.toList := by simp
    rw [lines, hSplit, linesFrom_append [] hReturnFeed, List.reverse_nil, List.nil_append,
      dropReturn, if_pos List.getLast?_concat, List.dropLast_concat, String.ofList_toList]
    exact congrArg _ ih

/-- The reader finds the lines of a text. -/
theorem lines_eq_iff {s : String} {found : List String} : lines s = found ↔ HasLines s found := by
  refine ⟨fun h => ?_, HasLines.lines_eq⟩
  obtain ⟨others, hOthers⟩ := exists_hasLines s.toList
  rw [String.ofList_toList] at hOthers
  exact (hOthers.lines_eq.symm.trans h) ▸ hOthers

/-! ## Texts one below the other -/

/-- Texts with a line feed behind each of them. -/
def terminated (texts : List String) : String := String.join (texts.map (· ++ "\n"))

@[simp] theorem terminated_nil : terminated [] = "" := rfl

theorem terminated_cons (text : String) (rest : List String) :
    terminated (text :: rest) = text ++ "\n" ++ terminated rest := by
  rw [terminated, List.map_cons, String.join_cons, terminated]

/-- Texts one below the other end in a line feed each. -/
theorem unlines_of_ne_nil {texts : List String} (h : texts ≠ []) :
    unlines texts = terminated texts := by
  induction texts with
  | nil => exact absurd rfl h
  | cons text rest ih =>
    cases rest with
    | nil =>
      rw [unlines, String.intercalate_singleton, terminated_cons, terminated_nil,
        String.append_empty]
    | cons next rest =>
      rw [terminated_cons, ← ih (List.cons_ne_nil _ _), unlines, unlines,
        String.intercalate_cons_cons, String.append_assoc]

/-- What is written one below the other: a line feed behind each text, and one
line feed if there is no text. -/
theorem unlines_eq (texts : List String) :
    unlines texts = if texts = [] then "\n" else String.join (texts.map (· ++ "\n")) := by
  split
  · next hNone =>
    subst hNone
    rfl
  · next hSome => exact unlines_of_ne_nil hSome

/-- There are as many line feeds as texts if there is none in a text. -/
theorem count_terminated {texts : List String} (h : ∀ text ∈ texts, '\n' ∉ text.toList) :
    (terminated texts).toList.count '\n' = texts.length := by
  induction texts with
  | nil => rfl
  | cons text rest ih =>
    rw [List.forall_mem_cons] at h
    rw [terminated_cons, String.toList_append, String.toList_append, List.count_append,
      List.count_append, List.count_eq_zero_of_not_mem h.1, ih h.2, List.length_cons]
    have hLine : "\n".toList.count '\n' = 1 := by decide
    omega

/-- Texts that neither hold a line feed nor end in a carriage return are the
lines that they are terminated to. -/
theorem hasLines_terminated {texts : List String}
    (h : ∀ text ∈ texts, '\n' ∉ text.toList ∧ text.toList.getLast? ≠ some '\r') :
    HasLines (terminated texts) texts := by
  induction texts with
  | nil => exact .nil
  | cons text rest ih =>
    rw [List.forall_mem_cons] at h
    rw [terminated_cons]
    exact .feed h.1.1 h.1.2 (ih h.2)

end JsonStencil.Text
