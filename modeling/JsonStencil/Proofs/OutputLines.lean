import JsonStencil.Proofs.Checking
import JsonStencil.Proofs.WellFormed

/-!
# One line for each document

The output of a run that encodes ends with a line feed, and line feeds stand
between the encodings. No encoding holds one where every string is escaped and
none is copied without its quotes: what is put together from keys, defaults and
values has no control character at all. So the lines of the output are the
encodings, unless there is no document: then there is a line nonetheless, an
empty one.

Main results:

* `Schema.noControl_direct` — encodings hold no control character.
* `CommandLine.run_succeeds` — what a run that ends with 0 has done.
* `CommandLine.run_encode_lines` — the lines of the output.
-/

namespace JsonStencil

/-! ## Lines -/

/-- Texts without control characters are the lines that they are terminated
to. -/
theorem Text.lines_terminated {texts : List String}
    (h : ∀ text ∈ texts, Grammar.NoControl text.toList) : lines (terminated texts) = texts := by
  refine lines_eq_iff.mpr (hasLines_terminated fun text hText => ⟨fun hMem => ?_, fun hLast => ?_⟩)
  · exact h text hText _ hMem (by decide)
  · exact h text hText _ (List.mem_of_getLast? hLast) (by decide)

/-! ## Encodings without control characters -/

open Grammar

/-- What is assembled of texts without control characters has none. -/
theorem noControl_assembled : Schema.Assembled NoControl where
  nothing := noControl_nil
  compact h := h.noControl
  field {key text} h := by
    rw [Schema.label, Json.literal_json, String.toList_append, String.toList_append]
    exact noControl_append.mpr ⟨noControl_append.mpr
      ⟨(Json.escaped_isString key).noControl, noControl_singleton (by decide)⟩, h⟩
  bracketed {texts} h := by
    rw [toList_bracketed]
    exact noControl_enclosed (noControl_separated (List.forall_mem_map.mpr h)) (by decide)
      (by decide)
  braced {texts} h := by
    rw [toList_braced]
    exact noControl_enclosed (noControl_separated (List.forall_mem_map.mpr h)) (by decide)
      (by decide)

/-- Whatever is missing in it, an encoding holds no control character. -/
theorem Schema.noControl_direct {s : Schema} {v : Value} (h : s.Along CopiesNoString v) :
    NoControl (s.direct .json v).toList :=
  direct_assembled noControl_assembled s v h

/-! ## Runs -/

namespace CommandLine

open FileSystem

variable {fs : FileSystem} {schema : String} {sources : Sources} {trusted : Bool}
  {check color : Bool} {out : Option String}

/-- A run that ends with 0 has delivered the encodings of the documents. -/
theorem run_succeeds
    (h : (fs.carryOut color (.encode schema sources trusted check out)).1.exitCode = 0) :
    let result := fs.carryOut color (.encode schema sources trusted check out)
    ∃ s documents texts, fs.HoldsSchema schema s ∧ fs.Supplies sources documents ∧
      Encodings s trusted documents texts ∧
      fs.Delivered result.2 out (Text.unlines texts) result.1.output := by
  intro result
  -- a run without a batch fails, and one with a batch succeeds by delivering it
  by_cases hBatch : ∃ batch, Gives (readBatch access schema sources trusted) fs batch
  · obtain ⟨batch, hBatch⟩ := hBatch
    obtain ⟨s, documents, hSchema, hDocuments, -⟩ := gives_readBatch.mp hBatch
    have hTexts : Encodings s trusted documents _ := encodings_iff.mpr rfl
    rcases run_of_supplies check color out hSchema hDocuments hTexts
      with ⟨-, -, hDelivered⟩ | ⟨hCode, -⟩
    · exact ⟨s, documents, _, hSchema, hDocuments, hTexts, hDelivered⟩
    · exact nomatch h.symm.trans hCode
  · obtain ⟨e, hRun⟩ := run_of_no_batch check color out (not_exists.mp hBatch)
    rw [hRun] at h
    exact nomatch h

/-- No encoding holds a control character. -/
theorem noControl_of_encodings {s : Schema} {documents : List Json} {texts : List String}
    (h : Encodings s false documents texts)
    (hRaw : ∀ document ∈ documents, s.Along Schema.CopiesNoString (Value.ofJson document)) :
    ∀ text ∈ texts, NoControl text.toList := by
  rw [← encodings_iff.mp h]
  intro text hText
  obtain ⟨_, hPair, rfl⟩ := List.mem_map.mp hText
  obtain ⟨document, hDocument, rfl⟩ := List.mem_map.mp hPair
  exact Schema.noControl_direct (hRaw document hDocument)

/-- **One line for each document.** A run that encodes with escapes and ends
with 0 has put its output where it was asked to. If none of the documents has a
string where it is copied without quotes, then no encoding has a line feed in
it, and the output is the encodings with a line feed behind each of them, hence
read line by line the encodings again, exactly if there is a document. Without
one the output is a line feed. -/
theorem run_encode_lines
    (h : (fs.carryOut color (.encode schema sources false check out)).1.exitCode = 0)
    (hRaw : ∀ s documents, fs.HoldsSchema schema s → fs.Supplies sources documents →
      ∀ document ∈ documents, s.Along Schema.CopiesNoString (Value.ofJson document)) :
    let result := fs.carryOut color (.encode schema sources false check out)
    ∃ s documents texts written, fs.HoldsSchema schema s ∧ fs.Supplies sources documents ∧
      Encodings s false documents texts ∧
      fs.Delivered result.2 out written result.1.output ∧
      (∀ text ∈ texts, '\n' ∉ text.toList) ∧
      (written = Text.terminated texts ↔ documents ≠ []) ∧
      (Text.lines written = texts ↔ documents ≠ []) ∧
      written.toList.count '\n' = max 1 documents.length ∧
      (documents = [] → written = "\n") := by
  obtain ⟨s, documents, texts, hSchema, hDocuments, hTexts, hDelivered⟩ := run_succeeds h
  -- no text has a control character, and a line feed is one
  have hClean := noControl_of_encodings hTexts (hRaw s documents hSchema hDocuments)
  have hLines : ∀ text ∈ texts, '\n' ∉ text.toList :=
    fun text hText hMem => hClean text hText _ hMem (by decide)
  have hLength : documents.length = texts.length := hTexts.length_eq
  refine ⟨s, documents, texts, _, hSchema, hDocuments, hTexts, hDelivered, hLines, ?_⟩
  cases documents with
  | nil =>
    -- the line feed at the end has nothing to end
    obtain rfl : texts = [] := List.eq_nil_of_length_eq_zero hLength.symm
    decide
  | cons document rest =>
    have hSome : texts ≠ [] := by
      rintro rfl
      cases hLength
    rw [Text.unlines_of_ne_nil hSome, hLength, Text.count_terminated hLines]
    refine ⟨iff_of_true rfl (List.cons_ne_nil _ _),
      iff_of_true (Text.lines_terminated hClean) (List.cons_ne_nil _ _), ?_, nofun⟩
    exact (Nat.max_eq_right (List.length_pos_of_ne_nil hSome)).symm

/-- The two numbers are on two lines. -/
theorem run_encode_lines_twoNumbers :
    let result := twoNumbers.carryOut false
      (.encode "schema.json" ⟨["b.json", "a.json"], none, false⟩ false false none)
    result.1.exitCode = 0 ∧
    (∀ s documents, twoNumbers.HoldsSchema "schema.json" s →
      twoNumbers.Supplies ⟨["b.json", "a.json"], none, false⟩ documents →
      ∀ document ∈ documents, s.Along Schema.CopiesNoString (Value.ofJson document)) ∧
    ∃ texts written,
      Encodings (.scalar .number {}) false [.number (.integer 2), .number (.integer 1)] texts ∧
      twoNumbers.Delivered result.2 none written result.1.output ∧
      written = Text.terminated texts ∧ Text.lines written = texts ∧
      written.toList.count '\n' = 2 := by
  intro result
  have hCode : result.1.exitCode = 0 := by decide +kernel
  -- a number copies no string
  have hRaw : ∀ s documents, twoNumbers.HoldsSchema "schema.json" s →
      twoNumbers.Supplies ⟨["b.json", "a.json"], none, false⟩ documents →
      ∀ document ∈ documents, s.Along Schema.CopiesNoString (Value.ofJson document) := by
    intro s documents hSchema hDocuments
    obtain rfl := hSchema.unique twoNumbers_holdsSchema
    obtain rfl := hDocuments.unique twoNumbers_supplies
    refine List.forall_mem_cons.mpr ⟨.ofLeaf rfl rfl, ?_⟩
    exact List.forall_mem_cons.mpr ⟨.ofLeaf rfl rfl, List.forall_mem_nil _⟩
  obtain ⟨s, documents, texts, written, hSchema, hDocuments, hTexts, hDelivered, -, hWritten,
    hLines, hCount, -⟩ := run_encode_lines hCode hRaw
  obtain rfl := hSchema.unique twoNumbers_holdsSchema
  obtain rfl := hDocuments.unique twoNumbers_supplies
  exact ⟨hCode, hRaw, texts, written, hTexts, hDelivered, hWritten.mpr (List.cons_ne_nil _ _),
    hLines.mpr (List.cons_ne_nil _ _), hCount⟩

/-- A schema of numbers, and a file with two blank lines. -/
def noNumbers : FileSystem where
  root := .directory [("schema.json", .file (Text.bytes "\x7b\"type\":\"number\"\x7d")),
    ("blank.ndjson", .file (Text.bytes "\n\n"))]
  here := []

/-- There is no document in the file, and yet a line in the output. -/
theorem run_encode_blankLines :
    noNumbers.HoldsSchema "schema.json" (.scalar .number {}) ∧
    noNumbers.Supplies ⟨["blank.ndjson"], none, true⟩ [] ∧
    (noNumbers.carryOut false
      (.encode "schema.json" ⟨["blank.ndjson"], none, true⟩ false false none)).1 =
        ⟨0, "\n", ""⟩ := by
  refine ⟨twoNumbers_holdsSchema, ⟨[["blank.ndjson"]], [[]], .cons (.plain rfl) .nil, ?_, rfl⟩, ?_⟩
  · exact .cons ⟨_, _, [], rfl, Text.ofBytes?_bytes "\n\n",
      documentTexts_eq_iff.mp (by decide +kernel), .nil⟩ .nil
  · decide +kernel

end CommandLine

end JsonStencil
