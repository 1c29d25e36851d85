import JsonStencil.Proofs.Computations
import JsonStencil.Proofs.Fragments
import Mathlib.Algebra.Order.BigOperators.Group.List
import Mathlib.Algebra.Ring.Nat
import Mathlib.Data.String.Basic

/-!
# The pieces of a run

A text that a run writes is made of pieces: texts that stand in the plan, and
values written in one of four ways. Which pieces a run writes, and whether it
fails, has nothing to do with how strings are escaped; that only decides how a
piece is spelled, and only for a string between quotes. So the two ways of
escaping write the same pieces, and where the literal of a string differs from
its copy it is longer, so that no two differences can make up for each other.

Main definitions:

* `Piece` / `Piece.text` — one piece and how it is spelled.
* `Piece.copied?` — the string that a piece writes between quotes.
* `Step.pieces` / `Plan.pieces` — what a run writes, piece by piece.

Main results:

* `Json.size_bare_lt` — a string that needs an escape has a longer literal.
* `Step.run_spells` — a step spells its pieces, whatever the escaping.
* `Plan.trusted_safe_iff` — when a run may trust its strings.
-/

namespace JsonStencil

/-! ## Pieces -/

/-- A part of the text of a run, written at once. -/
inductive Piece where
  /-- A text that stands in the plan, or punctuation. -/
  | fixed (text : String)
  /-- A value that is written between quotes if it is a string. -/
  | quoted (value : Value)
  /-- A value that is written as an instant. -/
  | date (value : Value)
  /-- A value that is written as it stands. -/
  | raw (value : Value)
  /-- A value that is written as the generic text. -/
  | generic (value : Value)
deriving Repr

namespace Piece

/-- How a piece is spelled. -/
def text (escaping : Json.Escaping) : Piece → String
  | .fixed text => text
  | .quoted v => v.quotedText escaping
  | .date v => v.dateText escaping
  | .raw v => v.rawText escaping
  | .generic v => v.text

/-- The pieces one behind the other. -/
def spell (escaping : Json.Escaping) (pieces : List Piece) : String :=
  String.join (pieces.map (text escaping))

/-- The string that a piece meets where a string stands between quotes. -/
def copied? : Piece → Option String
  | .quoted (.string s) => some s
  | .date (.string s) => some s
  | _ => none

/-- The piece meets a string with a quote, a backslash or a control character
below U+0020. -/
def NeedsEscape (piece : Piece) : Prop :=
  ∃ s, piece.copied? = some s ∧ ∃ c ∈ s.toList, c = '"' ∨ c = '\\' ∨ c.val < 0x20

/-- What is written for the items of an array. -/
def ofItems (items : List (List Piece)) : List Piece :=
  .fixed "[" :: [.fixed ","].intercalate items ++ [.fixed "]"]

/-- An array of items each of which is one piece; anything else by its generic
text. -/
def joined (item : Value → Piece) : Value → List Piece
  | .array items => ofItems (items.map fun v => [item v])
  | other => [.generic other]

end Piece

/-! ## The pieces that steps write -/

/-- Runs a body for every item in turn and collects what it writes. -/
def piecesOver (slot : Nat) (body : Frame → Except OutOfRange (List Piece × Frame)) :
    List Value → Frame → Except OutOfRange (List (List Piece) × Frame)
  | [], f => .ok ([], f)
  | item :: rest, f => do
    let entered ← f.setItem slot item
    let first ← body entered
    let others ← piecesOver slot body rest first.2
    .ok (first.1 :: others.1, others.2)

mutual

/-- The pieces that a step writes, and the frame after it. -/
def Step.pieces (f : Frame) : Step → Except OutOfRange (List Piece × Frame)
  | .text literal => .ok ([.fixed literal], f)
  | .quoted path => do .ok ([.quoted (← path.resolve f)], f)
  | .raw path => do .ok ([.raw (← path.resolve f)], f)
  | .date path => do .ok ([.date (← path.resolve f)], f)
  | .generic path => do .ok ([.generic (← path.resolve f)], f)
  | .joinQuoted path => do .ok (Piece.joined .quoted (← path.resolve f), f)
  | .joinRaw path => do .ok (Piece.joined .raw (← path.resolve f), f)
  | .reset group => do .ok ([], ← f.setGroup group false)
  | .comma group => do
    if ← fetch f.groups group then .ok ([.fixed ","], f)
    else .ok ([], ← f.setGroup group true)
  | .guarded path guard steps => do
    if guard.hits (← path.resolve f) then .ok ([.fixed guard.fallback], f)
    else Step.piecesAll f steps
  | .optional path present absent => do
    if (← path.resolve f).isUndefined then Step.piecesAll f absent
    else Step.piecesAll f present
  | .loop path slot item => do
    match ← path.resolve f with
    | .array items =>
      let written ← piecesOver slot (fun entered => Step.piecesAll entered item) items f
      .ok (Piece.ofItems written.1, written.2)
    | other => .ok ([.generic other], f)

/-- The pieces of some steps one behind the other. -/
def Step.piecesAll (f : Frame) : List Step → Except OutOfRange (List Piece × Frame)
  | [] => .ok ([], f)
  | step :: rest => do
    let first ← Step.pieces f step
    let others ← Step.piecesAll first.2 rest
    .ok (first.1 ++ others.1, others.2)

end

/-- The pieces that a plan writes for a value. -/
def Plan.pieces (p : Plan) (v : Value) : Except OutOfRange (List Piece) := do
  let f ← (p.emptyFrame v).bind p.aliases
  let written ← Step.piecesAll f p.steps
  .ok written.1

/-! ## Spelling -/

namespace Piece

variable {escaping : Json.Escaping}

@[simp] theorem spell_nil : spell escaping [] = "" := rfl

@[simp] theorem spell_cons (piece : Piece) (rest : List Piece) :
    spell escaping (piece :: rest) = piece.text escaping ++ spell escaping rest := by
  rw [spell, List.map_cons, String.join_cons, spell]

@[simp] theorem spell_append (first second : List Piece) :
    spell escaping (first ++ second) = spell escaping first ++ spell escaping second := by
  rw [spell, List.map_append, String.join_append, spell, spell]

theorem spell_singleton (piece : Piece) : spell escaping [piece] = piece.text escaping := by
  rw [spell_cons, spell_nil, String.append_empty]

/-- Items are spelled with commas between. -/
theorem spell_intercalate (items : List (List Piece)) :
    spell escaping ([.fixed ","].intercalate items) = commaSep (items.map (spell escaping)) := by
  induction items with
  | nil => rfl
  | cons item rest ih =>
    cases rest with
    | nil => rw [List.intercalate_singleton, List.map_cons, List.map_nil, commaSep]
    | cons next rest =>
      rw [List.intercalate_cons_cons, spell_append, spell_append, ih, spell_singleton]
      rfl

/-- The pieces of an array are spelled as one. -/
theorem spell_ofItems (items : List (List Piece)) :
    spell escaping (ofItems items) = bracketed (items.map (spell escaping)) := by
  rw [ofItems, List.cons_append, spell_cons, spell_append, spell_intercalate, spell_singleton,
    bracketed, String.append_assoc]
  rfl

/-- A join spells what its items are spelled as. -/
theorem spell_joined (item : Value → Piece) (v : Value) :
    spell escaping (joined item v) = v.joinedText fun entry => (item entry).text escaping := by
  cases v with
  | array items =>
    rw [joined, spell_ofItems, Value.joinedText, List.map_map]
    exact congrArg bracketed (List.map_congr_left fun entry _ => spell_singleton (item entry))
  | _ => exact spell_singleton _

end Piece

/-! ## Runs spell their pieces -/

section Runs

variable {escaping : Json.Escaping}

/-- The text is that of the pieces, and the frames are the same. -/
def Spells (escaping : Json.Escaping) (pieces : List Piece × Frame) (written : String × Frame) :
    Prop :=
  Piece.spell escaping pieces.1 = written.1 ∧ pieces.2 = written.2

/-- A step that writes one value. -/
theorem read_spells {f : Frame} (path : Path) {pieces : Value → List Piece} {text : Value → String}
    (h : ∀ v, Piece.spell escaping (pieces v) = text v) :
    EndsAlike (Spells escaping) ((path.resolve f) >>= fun v => .ok (pieces v, f))
      ((path.resolve f) >>= fun v => .ok (text v, f)) := by
  cases path.resolve f with
  | error e => exact .error e
  | ok v => exact .ok ⟨h v, rfl⟩

/-- Loops spell the pieces of their items if their bodies do. -/
theorem overItems_spells (slot : Nat) {body : Frame → Except OutOfRange (List Piece × Frame)}
    {run : Frame → Except OutOfRange (String × Frame)}
    (h : ∀ f, EndsAlike (Spells escaping) (body f) (run f)) (items : List Value) (f : Frame) :
    EndsAlike (fun pieces texts => pieces.1.map (Piece.spell escaping) = texts.1 ∧
        pieces.2 = texts.2)
      (piecesOver slot body items f) (overItems slot run items f) := by
  -- every item goes on from the frame that the items before it left
  induction items generalizing f with
  | nil => exact .ok ⟨rfl, rfl⟩
  | cons item rest ih =>
    rw [piecesOver, overItems]
    cases f.setItem slot item with
    | error e => exact .error e
    | ok entered =>
      refine (h entered).bind fun first written hFirst => ?_
      rw [← hFirst.2]
      refine (ih first.2).bind fun others texts hOthers => .ok ⟨?_, hOthers.2⟩
      rw [List.map_cons, hFirst.1, hOthers.1]

mutual

/-- A step writes the text of its pieces, or fails where they fail. -/
theorem Step.run_spells : ∀ (f : Frame) (step : Step),
    EndsAlike (Spells escaping) (Step.pieces f step) (Step.run escaping f step)
  | f, .text literal => by
    rw [pieces, run]
    exact .ok ⟨Piece.spell_singleton _, rfl⟩
  | f, .quoted path => by
    rw [pieces, run]
    exact read_spells path fun v => Piece.spell_singleton (.quoted v)
  | f, .raw path => by
    rw [pieces, run]
    exact read_spells path fun v => Piece.spell_singleton (.raw v)
  | f, .date path => by
    rw [pieces, run]
    exact read_spells path fun v => Piece.spell_singleton (.date v)
  | f, .generic path => by
    rw [pieces, run]
    exact read_spells path fun v => Piece.spell_singleton (.generic v)
  | f, .joinQuoted path => by
    rw [pieces, run]
    exact read_spells path (Piece.spell_joined .quoted)
  | f, .joinRaw path => by
    rw [pieces, run]
    exact read_spells path (Piece.spell_joined .raw)
  | f, .reset group => by
    rw [pieces, run]
    cases f.setGroup group false with
    | error e => exact .error e
    | ok after => exact .ok ⟨rfl, rfl⟩
  -- the flag that both find decides whether a comma is a piece
  | f, .comma group => by
    rw [pieces, run]
    cases fetch f.groups group with
    | error e => exact .error e
    | ok flag =>
      cases flag with
      | true => exact .ok ⟨Piece.spell_singleton _, rfl⟩
      | false =>
        cases f.setGroup group true with
        | error e => exact .error e
        | ok after => exact .ok ⟨rfl, rfl⟩
  | f, .guarded path guard steps => by
    rw [pieces, run]
    cases path.resolve f with
    | error e => exact .error e
    | ok v =>
      -- both find the same value there, and take the same way on
      refine EndsAlike.bind (.ok rfl) fun _ _ hValue => ?_
      rw [hValue]
      split
      · exact .ok ⟨Piece.spell_singleton _, rfl⟩
      · exact Step.runAll_spells f steps
  | f, .optional path present absent => by
    rw [pieces, run]
    cases path.resolve f with
    | error e => exact .error e
    | ok v =>
      refine EndsAlike.bind (.ok rfl) fun _ _ hValue => ?_
      rw [hValue]
      split
      · exact Step.runAll_spells f absent
      · exact Step.runAll_spells f present
  | f, .loop path slot item => by
    rw [pieces, run]
    cases path.resolve f with
    | error e => exact .error e
    | ok v =>
      cases v with
      | array items =>
        refine (overItems_spells slot (fun entered => Step.runAll_spells entered item) items
          f).bind fun written texts hItems => .ok ⟨?_, hItems.2⟩
        rw [Piece.spell_ofItems, hItems.1]
      | _ => exact .ok ⟨Piece.spell_singleton _, rfl⟩

/-- So do steps one behind the other. -/
theorem Step.runAll_spells : ∀ (f : Frame) (steps : List Step),
    EndsAlike (Spells escaping) (Step.piecesAll f steps) (Step.runAll escaping f steps)
  | f, [] => by
    rw [piecesAll, runAll]
    exact .ok ⟨rfl, rfl⟩
  | f, step :: rest => by
    rw [piecesAll, runAll]
    refine (Step.run_spells f step).bind fun first written hFirst => ?_
    rw [← hFirst.2]
    refine (Step.runAll_spells first.2 rest).bind fun others texts hOthers => ?_
    exact .ok ⟨by rw [Piece.spell_append, hFirst.1, hOthers.1], hOthers.2⟩

end

/-- A plan writes the text of its pieces, or fails where they fail. -/
theorem Plan.run_eq_spell (p : Plan) (v : Value) :
    p.run escaping v = (p.pieces v).map (Piece.spell escaping) := by
  rw [run, pieces]
  cases (p.emptyFrame v).bind p.aliases with
  | error e => rfl
  | ok f =>
    -- the aliases are bound alike, so only the steps are left
    have hSteps : EndsAlike (Spells escaping) (Step.piecesAll f p.steps)
        (Step.runAll escaping f p.steps) := Step.runAll_spells f p.steps
    show (Step.runAll escaping f p.steps).bind (fun written => .ok written.1) =
      ((Step.piecesAll f p.steps).bind fun written => .ok written.1).map (Piece.spell escaping)
    generalize Step.piecesAll f p.steps = pieces, Step.runAll escaping f p.steps = texts
      at hSteps ⊢
    cases hSteps with
    | ok related => exact congrArg Except.ok related.1.symm
    | error e => rfl

end Runs

/-! ## Literals and copies -/

namespace Json

/-- A character needs an escape if it is a quote, a backslash or a control
character. -/
theorem needsEscape_iff {c : Char} :
    needsEscape c = true ↔ c = '"' ∨ c = '\\' ∨ c.val < 0x20 := by
  rw [needsEscape, Bool.or_eq_true, Bool.or_eq_true, beq_iff_eq, beq_iff_eq, decide_eq_true_eq,
    or_assoc]

/-- A character that needs an escape takes one byte. -/
theorem utf8Size_of_needsEscape {c : Char} (h : needsEscape c = true) : c.utf8Size = 1 := by
  rw [Char.utf8Size_eq_one_iff]
  rcases needsEscape_iff.mp h with rfl | rfl | hLow
  · decide
  · decide
  · exact Nat.le_of_lt (Nat.lt_trans hLow (by decide))

/-- Its escape takes more. -/
theorem one_lt_utf8Len_escapeChar {c : Char} (h : needsEscape c = true) :
    1 < String.utf8Len (escapeChar c) := by
  rw [escapeChar]
  split_ifs with _ _ _ _ _ _ _ hLow
  -- the escapes with a letter are closed terms; left are codes, and what is not escaped
  all_goals first | decide | skip
  · simp only [String.utf8Len_cons]
    have hBack := Char.utf8Size_pos '\\'
    have hLetter := Char.utf8Size_pos 'u'
    omega
  · rcases needsEscape_iff.mp h with hQuote | hBack | hControl <;> contradiction

/-- No character is longer than its escape. -/
theorem utf8Size_le_utf8Len_escapeChar (c : Char) : c.utf8Size ≤ String.utf8Len (escapeChar c) := by
  cases h : needsEscape c with
  | true =>
    rw [utf8Size_of_needsEscape h]
    exact Nat.le_of_lt (one_lt_utf8Len_escapeChar h)
  | false =>
    rw [escapeChar_of_not_needsEscape h]
    exact Nat.le_of_eq (Nat.zero_add _).symm

/-- The size of characters that are replaced one by one. -/
theorem utf8Len_flatMap (cs : List Char) (f : Char → List Char) :
    String.utf8Len (cs.flatMap f) = (cs.map fun c => String.utf8Len (f c)).sum := by
  induction cs with
  | nil => rfl
  | cons c rest ih =>
    rw [List.flatMap_cons, String.utf8Len_append, ih, List.map_cons, List.sum_cons]

/-- The size of characters between quotes. -/
theorem size_enclosed (body : List Char) :
    (enclosed body).utf8ByteSize = String.utf8Len body + 2 := by
  rw [enclosed, String.utf8ByteSize_ofList, String.utf8Len_append, String.utf8Len_cons]
  have hQuote : '"'.utf8Size = 1 := by decide
  have hLast : String.utf8Len ['"'] = 1 := by decide
  omega

theorem size_escaped (s : String) : (escaped s).utf8ByteSize =
    (s.toList.map fun c => String.utf8Len (escapeChar c)).sum + 2 := by
  rw [escaped, size_enclosed, utf8Len_flatMap]

/-- The size of a copy. -/
theorem size_bare (s : String) :
    (bare s).utf8ByteSize = (s.toList.map Char.utf8Size).sum + 2 := by
  have hOnes := utf8Len_flatMap s.toList fun c => [c]
  rw [List.flatMap_singleton'] at hOnes
  rw [bare, size_enclosed, hOnes]
  simp only [String.utf8Len_cons, String.utf8Len_nil, Nat.zero_add]

/-- A copy is shorter than the literal where a character needs an escape. -/
theorem size_bare_lt {s : String} (h : ∃ c ∈ s.toList, needsEscape c = true) :
    (bare s).utf8ByteSize < (escaped s).utf8ByteSize := by
  obtain ⟨c, hMem, hNeeds⟩ := h
  rw [size_bare, size_escaped]
  -- no character has a shorter escape, so the one that needs it decides
  refine Nat.add_lt_add_right (List.sum_lt_sum _ _
    (fun c _ => utf8Size_le_utf8Len_escapeChar c) ⟨c, hMem, ?_⟩) 2
  rw [utf8Size_of_needsEscape hNeeds]
  exact one_lt_utf8Len_escapeChar hNeeds

end Json

namespace Piece

variable {piece : Piece}

/-- A string between quotes is spelled as its literal. -/
theorem text_of_copied {s : String} (h : piece.copied? = some s) (escaping : Json.Escaping) :
    piece.text escaping = Json.literal escaping s := by
  unfold copied? at h
  split at h <;> cases h <;> rfl

/-- Whatever else is written does not depend on the escaping. -/
theorem text_of_not_copied (h : piece.copied? = none) (first second : Json.Escaping) :
    piece.text first = piece.text second := by
  -- a quoted value or a date that is not copied is no string
  cases piece with
  | fixed _ => rfl
  | generic _ => rfl
  | quoted v => cases v <;> first | rfl | cases h
  | date v => cases v <;> first | rfl | cases h
  | raw v => cases v <;> rfl

/-- A trusted piece is spelled in the same way if nothing in it needs an
escape. -/
theorem text_eq_of_not_needsEscape (h : ¬ piece.NeedsEscape) :
    piece.text .trusted = piece.text .json := by
  cases hCopied : piece.copied? with
  | none => exact text_of_not_copied hCopied _ _
  | some s =>
    have hNone : s.toList.any Json.needsEscape = false := List.any_eq_false.mpr fun c hMem hNeeds =>
      h ⟨s, hCopied, c, hMem, Json.needsEscape_iff.mp hNeeds⟩
    rw [text_of_copied hCopied, text_of_copied hCopied, Json.literal, Json.literal,
      Json.any_bytes_needsEscape, hNone]
    rfl

/-- It is spelled in fewer bytes otherwise. -/
theorem size_text_lt (h : piece.NeedsEscape) :
    (piece.text .trusted).utf8ByteSize < (piece.text .json).utf8ByteSize := by
  obtain ⟨s, hCopied, c, hMem, hNeeds⟩ := h
  rw [text_of_copied hCopied, text_of_copied hCopied, Json.literal_json]
  exact Json.size_bare_lt ⟨c, hMem, Json.needsEscape_iff.mpr hNeeds⟩

/-- A trusted piece is spelled in no more bytes. -/
theorem size_text_le (piece : Piece) :
    (piece.text .trusted).utf8ByteSize ≤ (piece.text .json).utf8ByteSize := by
  by_cases h : piece.NeedsEscape
  · exact Nat.le_of_lt (size_text_lt h)
  · exact Nat.le_of_eq (congrArg String.utf8ByteSize (text_eq_of_not_needsEscape h))

/-- The size of pieces is the sum of theirs. -/
theorem size_spell (escaping : Json.Escaping) (pieces : List Piece) :
    (spell escaping pieces).utf8ByteSize =
      (pieces.map fun piece => (piece.text escaping).utf8ByteSize).sum := by
  induction pieces with
  | nil => rfl
  | cons piece rest ih =>
    rw [spell_cons, String.utf8ByteSize_append, ih, List.map_cons, List.sum_cons]

/-- Trusted pieces take no more bytes. -/
theorem size_spell_le (pieces : List Piece) :
    (spell .trusted pieces).utf8ByteSize ≤ (spell .json pieces).utf8ByteSize := by
  rw [size_spell, size_spell]
  exact List.sum_le_sum fun piece _ => size_text_le piece

/-- They give the same text exactly if none of them needs an escape. -/
theorem spell_eq_iff (pieces : List Piece) :
    spell .trusted pieces = spell .json pieces ↔ ∀ piece ∈ pieces, ¬ piece.NeedsEscape := by
  constructor
  · intro hEqual piece hMem hNeeds
    -- one shorter piece leaves the whole shorter, since no piece is longer
    have hShorter : (spell .trusted pieces).utf8ByteSize < (spell .json pieces).utf8ByteSize := by
      rw [size_spell, size_spell]
      exact List.sum_lt_sum _ _ (fun piece _ => size_text_le piece)
        ⟨piece, hMem, size_text_lt hNeeds⟩
    exact Nat.lt_irrefl _ (hEqual ▸ hShorter)
  · intro hNone
    rw [spell, spell]
    exact congrArg String.join
      (List.map_congr_left fun piece hMem => text_eq_of_not_needsEscape (hNone piece hMem))

end Piece

/-! ## When strings may be trusted -/

/-- **When strings may be trusted.** A plan that completes for a value under
one way of escaping completes under both. Both outputs consist of the same
pieces, and only a piece that meets a string between quotes depends on the
escaping. The trusted output is never longer, and it is the other one exactly
if no such string has a quote, a backslash or a control character. -/
theorem Plan.trusted_safe_iff {p : Plan} {v : Value} {escaping : Json.Escaping} {written : String}
    (h : p.run escaping v = .ok written) :
    ∃ pieces json trusted, p.pieces v = .ok pieces ∧
      p.run .json v = .ok json ∧ json = Piece.spell .json pieces ∧
      p.run .trusted v = .ok trusted ∧ trusted = Piece.spell .trusted pieces ∧
      (∀ piece ∈ pieces, piece.copied? = none → piece.text .trusted = piece.text .json) ∧
      trusted.utf8ByteSize ≤ json.utf8ByteSize ∧
      (trusted = json ↔ ∀ piece ∈ pieces, ¬ piece.NeedsEscape) := by
  -- the pieces do not depend on the escaping, so both texts spell the same ones
  rw [run_eq_spell] at h
  obtain ⟨pieces, hPieces, -⟩ := map_inv h
  refine ⟨pieces, Piece.spell .json pieces, Piece.spell .trusted pieces, hPieces, ?_, rfl, ?_, rfl,
    fun piece _ hNone => Piece.text_of_not_copied hNone _ _, Piece.size_spell_le pieces,
    Piece.spell_eq_iff pieces⟩
  · rw [run_eq_spell, hPieces]
    rfl
  · rw [run_eq_spell, hPieces]
    rfl

/-- Names, and the nickname of everyone who has one. -/
def namingPlan : Plan :=
  { steps := [.text "[", .joinQuoted (.field .root "names"), .text ",",
      .loop (.field .root "people") 0 [.guarded (.field (.item 0) "nick") ⟨true, true, "null"⟩
        [.quoted (.field (.item 0) "nick")]], .text "]"]
    groups := 0
    aliases := []
    loops := 1 }

/-- A nickname with a quote is met inside a loop, behind a guard that another
item hits. -/
theorem Plan.trusted_safe_iff_nickname :
    let v := Value.object [("names", .array [.string "Ann", .bigint 3]),
      ("people", .array [.object [], .object [("nick", .string "a\"b")]])]
    namingPlan.run .json v = .ok "[[\"Ann\",3],[null,\"a\\\"b\"]]" ∧
    ∃ pieces json trusted, namingPlan.pieces v = .ok pieces ∧
      namingPlan.run .json v = .ok json ∧ json = Piece.spell .json pieces ∧
      namingPlan.run .trusted v = .ok trusted ∧ trusted = Piece.spell .trusted pieces ∧
      (∀ piece ∈ pieces, piece.copied? = none → piece.text .trusted = piece.text .json) ∧
      trusted.utf8ByteSize ≤ json.utf8ByteSize ∧
      (trusted = json ↔ ∀ piece ∈ pieces, ¬ piece.NeedsEscape) := by
  intro v
  have hRun : namingPlan.run .json v = .ok "[[\"Ann\",3],[null,\"a\\\"b\"]]" := rfl
  exact ⟨hRun, Plan.trusted_safe_iff hRun⟩

end JsonStencil
