import JsonStencil.Proofs.Agreement
import JsonStencil.Proofs.Comparisons
import JsonStencil.Proofs.EncodeRuns
import JsonStencil.Proofs.KeptFields
import JsonStencil.Proofs.ReadSchemas

/-!
# Checks

A check reads back both texts of every document. It says of a document that
it does not match exactly if the texts do not both stand for values that are
equal up to the order of members, and it stops the run exactly if it has said
so of some document. Otherwise the run goes on as if there had been no check.

No document is said not to match that fits a schema without defaults and has
no numbers but integers of 64 bits: its encoding is the text of the document
with its members in another order, and such texts are read back.

Main definitions:

* `CommandLine.Comparison.mismatchReport` — what is said of a document that
  does not match.
* `CommandLine.reports` — what is said of all documents.

Main results:

* `CommandLine.Comparison.report_eq_mismatchReport_iff` — what is said of one
  document.
* `CommandLine.matches_of_fits` — documents that match.
* `CommandLine.run_check` — what a check does to a run.
-/

namespace JsonStencil

namespace CommandLine

open FileSystem

/-! ## One document -/

namespace Comparison

/-- What is said of a document that matches. -/
def matchReport (color : Bool) (position : Nat) : String :=
  marked color "32" "✅ match" ++ s!" document {position}\n"

/-- What is said of a document that does not. -/
def mismatchReport (c : Comparison) (color : Bool) (position : Nat) : String :=
  marked color "1;31" "❌ mismatch" ++ s!" document {position}\n"
    ++ "   accelerated: " ++ c.encoded ++ "\n"
    ++ "   generic:     " ++ c.generic ++ "\n"

/-- The two reports differ, whatever they report on. -/
theorem matchReport_ne_mismatchReport (c : Comparison) (color : Bool) (position : Nat) :
    matchReport color position ≠ c.mismatchReport color position := by
  intro h
  -- they begin with different marks
  have hChars := congrArg String.toList h
  cases color <;> simp [matchReport, mismatchReport, marked] at hChars

/-- A document is said not to match exactly if it does not. -/
theorem report_eq_mismatchReport_iff (c : Comparison) (color : Bool) (position : Nat) :
    c.report color position = c.mismatchReport color position ↔ ¬ c.Matches := by
  rw [← agrees_iff, report]
  split
  · next hAgrees =>
    refine ⟨fun h => absurd h (matchReport_ne_mismatchReport c color position), fun h => ?_⟩
    exact absurd hAgrees h
  · next hDiffers => exact ⟨fun _ => hDiffers, fun _ => rfl⟩

end Comparison

/-- A document that fits a schema without defaults matches. -/
theorem matches_of_fits {s : Schema} {document : Json} (hPlain : s.Everywhere Schema.Plain)
    (hKeys : s.Everywhere Schema.KeysDistinct) (hFits : s.Along Schema.Fits (Value.ofJson document))
    (hReadable : document.Readable) (hIntegers : document.IntegersOnly) :
    (Comparison.ofSchema s false document).Matches := by
  have hText : s.direct .json (Value.ofJson document) = (s.arranged (Value.ofJson document)).text :=
    s.direct_eq_text_arranged hPlain _ hFits
  -- arranged or not, the value is that of the document
  have hSame := s.arranged_sameUpToOrder hKeys _ (Value.keysDistinct_ofJson _ hReadable.keys) hFits
  rw [Value.pruned_ofJson] at hSame
  -- what is encoded is the text of the document in another order
  obtain ⟨other, hOther, hSame⟩ := hSame.exists_json document rfl hReadable.keys
  rw [hOther, Value.text_ofJson] at hText
  refine ⟨other, document, ?_, ?_, hSame⟩
  · show Json.ofText (s.direct .json (Value.ofJson document)) = _
    rw [hText]
    exact Json.ofText_text (hSame.integersOnly hIntegers) (hSame.readable hReadable)
  · show Json.ofText (Value.ofJson document).text = _
    rw [Value.text_ofJson]
    exact Json.ofText_text hIntegers hReadable

/-! ## A batch -/

/-- What is said of the documents, one after the other. -/
def reports (color : Bool) (batch : List Comparison) : String :=
  String.join (batch.zipIdx.map fun entry => entry.1.report color entry.2)

/-- Reports are numbered from where the count starts. -/
theorem reportFrom_eq (color : Bool) (position : Nat) (batch : List Comparison) :
    reportFrom color position batch =
      String.join ((batch.zipIdx position).map fun entry => entry.1.report color entry.2) := by
  induction batch generalizing position with
  | nil => rfl
  | cons c rest ih => rw [reportFrom, ih, List.zipIdx_cons, List.map_cons, String.join_cons]

/-- The mismatches that are counted are the documents that do not match. -/
theorem mismatches_eq (batch : List Comparison) :
    mismatches batch = batch.countP fun c => ¬ c.Matches := by
  rw [mismatches]
  refine List.countP_congr fun c _ => ?_
  rw [decide_eq_true_eq, ← c.agrees_iff, Bool.not_eq_true', Bool.not_eq_true]

/-- A part of a readable document is readable. -/
theorem readable_of_selects {pointer : Option String} {text : String} {part : Json}
    (h : Selects pointer text part) : part.Readable := by
  obtain ⟨document, hDocument, hPart⟩ := h
  cases pointer with
  | none =>
    subst hPart
    exact Json.readable_of_ofText hDocument
  | some pointer => exact (Json.readable_of_ofText hDocument).point hPart

/-- The documents of some sources can be read. -/
theorem readable_of_supplies {fs : FileSystem} {sources : Sources} {documents : List Json}
    (h : fs.Supplies sources documents) : ∀ document ∈ documents, document.Readable := by
  obtain ⟨paths, parts, -, hParts, rfl⟩ := h
  intro document hDocument
  -- a document belongs to one file and to one text in it
  obtain ⟨list, hList, hMem⟩ := List.mem_flatten.mp hDocument
  obtain ⟨path, -, content, source, texts, -, -, -, hSelects⟩ :=
    forall₂_exists_left hParts list hList
  obtain ⟨line, -, hLine⟩ := forall₂_exists_left hSelects document hMem
  exact readable_of_selects hLine

/-! ## Runs -/

section Runs

variable {fs : FileSystem} {schema : String} {sources : Sources} {trusted : Bool} (color : Bool)
  (out : Option String) {batch : List Comparison}

/-- A mismatch stops a run before anything is written. -/
theorem run_of_mismatch (h : Gives (readBatch access schema sources trusted) fs batch)
    (hSome : mismatches batch ≠ 0) :
    fs.carryOut color (.encode schema sources trusted true out) =
      (⟨1, "", report color batch ++ "error: "
        ++ (Error.mismatched (mismatches batch) batch.length).message ++ "\n"⟩, fs) := by
  have hStops : checked true batch =
      .error (.mismatched (mismatches batch) batch.length) := if_pos ⟨rfl, hSome⟩
  rw [run_of_batch true color out h, hStops]
  rfl

/-- Without a mismatch a run goes on as if nothing had been checked. -/
theorem run_of_no_mismatch (h : Gives (readBatch access schema sources trusted) fs batch)
    (hNone : mismatches batch = 0) :
    fs.carryOut color (.encode schema sources trusted true out) =
      let unchecked := fs.carryOut color (.encode schema sources trusted false out)
      ({ unchecked.1 with diagnostics := report color batch ++ unchecked.1.diagnostics },
        unchecked.2) := by
  -- with and without a check the same text is delivered
  have hChecked (check : Bool) : checked check batch = .ok (output batch) := by
    rw [checked, if_neg fun hSome => hSome.2 hNone]
  rw [run_of_batch true color out h, run_of_batch false color out h, hChecked, hChecked]
  dsimp only
  cases ((deliver access out (output batch)).run fs).1 with
  | ok text => simp [Outcome.ofResult]
  | error e => simp [Outcome.ofResult, String.append_assoc]

end Runs

/-- **Checks.** Take a run that checks its documents and trusts no string,
and whose schema and documents can be had. What it tells are reports on the
documents in their order, and the report on a document is that of a mismatch
exactly if its encoding and its generic text do not both stand for values
that are equal up to the order of members. If there are such documents, the
run ends there, with nothing written and their number and that of all
documents as its error; if there are none, it goes on as it would without a
check. And there are none if the schema has no defaults, every number is an
integer of 64 bits and every document fits the schema. -/
theorem run_check {fs : FileSystem} {schema : String} {sources : Sources} (color : Bool)
    (out : Option String) {s : Schema} {documents : List Json}
    (hSchema : fs.HoldsSchema schema s) (hDocuments : fs.Supplies sources documents) :
    ∃ batch : List Comparison,
      List.Forall₂ (fun document c =>
        (Encoder.ofSchema s .json).encode (Value.ofJson document) = .ok c.encoded ∧
          c.generic = (Value.ofJson document).text) documents batch ∧
      (∀ c ∈ batch, ∀ position : Nat,
        c.report color position = c.mismatchReport color position ↔ ¬ c.Matches) ∧
      let checked := fs.carryOut color (.encode schema sources false true out)
      let unchecked := fs.carryOut color (.encode schema sources false false out)
      let count := batch.countP fun c => ¬ c.Matches
      (count ≠ 0 → checked = (⟨1, "", reports color batch ++ "error: "
        ++ s!"{count} of {documents.length} documents differ from the generic encoder"
        ++ "\n"⟩, fs)) ∧
      (count = 0 → checked = ({ unchecked.1 with
        diagnostics := reports color batch ++ unchecked.1.diagnostics }, unchecked.2)) ∧
      (s.Everywhere Schema.Plain → (∀ document ∈ documents, document.IntegersOnly ∧
        s.Along Schema.Fits (Value.ofJson document)) → count = 0) := by
  -- what is read and compared is settled by the schema and the documents
  have hBatch : Gives (readBatch access schema sources false) fs
      (documents.map (Comparison.ofSchema s false)) :=
    gives_readBatch.mpr ⟨s, documents, hSchema, hDocuments, rfl⟩
  refine ⟨documents.map (Comparison.ofSchema s false), ?_,
    fun c _ position => c.report_eq_mismatchReport_iff color position, ?_⟩
  · rw [List.forall₂_map_right_iff, List.forall₂_same]
    exact fun document _ => ⟨Encoder.encode_eq_direct s .json _, rfl⟩
  intro checked unchecked count
  have hCount : count = mismatches _ := (mismatches_eq _).symm
  have hReports : reports color _ = report color _ :=
    (reportFrom_eq color 0 (documents.map (Comparison.ofSchema s false))).symm
  -- the run stops, it goes on, and it does if every document fits
  refine ⟨fun hSome => ?_, fun hNone => ?_, fun hPlain hFit => ?_⟩
  · have hRun := run_of_mismatch color out hBatch (hCount ▸ hSome)
    rw [← hCount, ← hReports, List.length_map] at hRun
    exact hRun
  · rw [hReports]
    exact run_of_no_mismatch color out hBatch (hCount ▸ hNone)
  · -- keys are distinct in a schema that was loaded, and documents that were read are readable
    refine List.countP_eq_zero.mpr fun c hc => ?_
    obtain ⟨document, hDocument, rfl⟩ := List.mem_map.mp hc
    obtain ⟨content, -, hLoaded⟩ := hSchema
    have hKeys : s.Everywhere Schema.KeysDistinct :=
      (Schema.ofDocumentBytes_loaded hLoaded).everywhere.mono fun t hNode => by
        cases t with
        | object _ _ _ _ => exact hNode.2
        | _ => trivial
    have hMatches := matches_of_fits hPlain hKeys (hFit document hDocument).2
      (readable_of_supplies hDocuments document hDocument) (hFit document hDocument).1
    rw [decide_eq_true_eq]
    exact not_not_intro hMatches

/-- A schema with a default, and a document that has nothing in its place. -/
def openDefault : FileSystem where
  root := .directory [("schema.json", .file (Text.bytes
      "\x7b\"properties\":\x7b\"a\":\x7b\"type\":\"number\",\"default\":3\x7d\x7d\x7d")),
    ("a.json", .file (Text.bytes "\x7b\x7d"))]
  here := []

/-- The texts of documents that are held against each other. -/
theorem batch_eq_map {s : Schema} {documents : List Json} {batch : List Comparison}
    (h : List.Forall₂ (fun document c =>
      (Encoder.ofSchema s .json).encode (Value.ofJson document) = .ok c.encoded ∧
        c.generic = (Value.ofJson document).text) documents batch) :
    batch = documents.map (Comparison.ofSchema s false) := by
  induction h with
  | nil => rfl
  | cons hFirst _ ih =>
    obtain ⟨hEncoded, hGeneric⟩ := hFirst
    rw [Encoder.encode_eq_direct] at hEncoded
    rw [List.map_cons, ← ih, Comparison.ofSchema, ← hGeneric]
    exact congrArg (Comparison.mk · _ :: _) (Except.ok.inj hEncoded).symm

/-- The schema of an object that may lack a number `a`, which is then 3. -/
def isOpenNumber : Schema → Bool
  | .object [(key, .scalar .number ⟨some (.number (.integer value)), true⟩)] [] false
      ⟨none, false⟩ => key = "a" ∧ value = 3
  | _ => false

/-- The property may be absent because it is not required. -/
theorem openDefault_holdsSchema : openDefault.HoldsSchema "schema.json"
    (.object [("a", .scalar .number ⟨some (.number (.integer 3)), true⟩)] [] false {}) := by
  have hOpen : (Schema.ofDocumentBytes (Text.bytes
      "\x7b\"properties\":\x7b\"a\":\x7b\"type\":\"number\",\"default\":3\x7d\x7d\x7d")).toOption.any
      isOpenNumber = true := by decide +kernel
  obtain ⟨s, hLoaded, hNumber⟩ := (Option.any_eq_true ..).mp hOpen
  refine ⟨_, rfl, (toOption_inv hLoaded).trans ?_⟩
  unfold isOpenNumber at hNumber
  split at hNumber
  · obtain ⟨rfl, rfl⟩ := of_decide_eq_true hNumber
    rfl
  · cases hNumber

theorem openDefault_supplies : openDefault.Supplies ⟨["a.json"], none, false⟩ [.object []] := by
  have hEmpty : Json.ofText "\x7b\x7d" = .ok (.object []) :=
    Json.ofText_text (j := .object []) trivial ⟨by decide, List.Pairwise.nil, trivial⟩
  exact ⟨[["a.json"]], [[.object []]], .cons (.plain rfl) .nil,
    .cons ⟨_, _, _, rfl, Text.ofBytes?_bytes "\x7b\x7d", rfl, .cons ⟨_, hEmpty, rfl⟩ .nil⟩ .nil,
    rfl⟩

/-- The document gets the default and does not match, so that the run says so,
ends and changes nothing; the two numbers match and are written. -/
theorem run_check_openDefault :
    (openDefault.HoldsSchema "schema.json"
        (.object [("a", .scalar .number ⟨some (.number (.integer 3)), true⟩)] [] false {}) ∧
      openDefault.Supplies ⟨["a.json"], none, false⟩ [.object []] ∧
      ¬ Comparison.Matches ⟨"\x7b\"a\":3\x7d", "\x7b\x7d"⟩ ∧
      openDefault.carryOut false
          (.encode "schema.json" ⟨["a.json"], none, false⟩ false true none) =
        (⟨1, "", "❌ mismatch document 0\n   accelerated: \x7b\"a\":3\x7d\n"
          ++ "   generic:     \x7b\x7d\n"
          ++ "error: 1 of 1 documents differ from the generic encoder\n"⟩, openDefault)) ∧
    twoNumbers.HoldsSchema "schema.json" (.scalar .number {}) ∧
    twoNumbers.Supplies ⟨["b.json", "a.json"], none, false⟩
      [.number (.integer 2), .number (.integer 1)] ∧
    twoNumbers.carryOut false
        (.encode "schema.json" ⟨["b.json", "a.json"], none, false⟩ false true none) =
      (⟨0, "2\n1\n", "✅ match document 0\n✅ match document 1\n"⟩, twoNumbers) := by
  constructor
  · -- the default of the absent property is written, and the generic text knows of none
    obtain ⟨batch, hBatch, -, hStops, -⟩ :=
      run_check false none openDefault_holdsSchema openDefault_supplies
    have hDiffers : ¬ Comparison.Matches ⟨"\x7b\"a\":3\x7d", "\x7b\x7d"⟩ := by decide +kernel
    obtain rfl : batch = [⟨"\x7b\"a\":3\x7d", "\x7b\x7d"⟩] :=
      (batch_eq_map hBatch).trans (by decide +kernel)
    refine ⟨openDefault_holdsSchema, openDefault_supplies, hDiffers, (hStops ?_).trans ?_⟩
    · decide +kernel
    · exact congrArg (·, openDefault) (by decide +kernel)
  · obtain ⟨batch, hBatch, -, -, hGoesOn, hFit⟩ :=
      run_check false none twoNumbers_holdsSchema twoNumbers_supplies
    -- numbers fit a schema of numbers, so nothing differs
    have hNumber (n : Nat) (h : n < 10) : (Json.number (.integer n)).IntegersOnly ∧
        (Schema.scalar .number {}).Along Schema.Fits (Value.ofJson (.number (.integer n))) :=
      ⟨⟨by omega, by omega⟩, .ofLeaf ⟨rfl, rfl, fun hOther => by cases hOther⟩ rfl⟩
    have hCount := hFit rfl (List.forall_mem_cons.mpr ⟨hNumber 2 (by decide),
      List.forall_mem_cons.mpr ⟨hNumber 1 (by decide), List.forall_mem_nil _⟩⟩)
    have hOutcome : (twoNumbers.carryOut false
        (.encode "schema.json" ⟨["b.json", "a.json"], none, false⟩ false false none)).1 =
          ⟨0, "2\n1\n", ""⟩ := by decide +kernel
    obtain rfl : batch = [⟨"2", "2"⟩, ⟨"1", "1"⟩] :=
      (batch_eq_map hBatch).trans (by decide +kernel)
    refine ⟨twoNumbers_holdsSchema, twoNumbers_supplies, (hGoesOn hCount).trans ?_⟩
    rw [hOutcome]
    refine Prod.ext (by decide +kernel) ?_
    -- what is written to the standard output changes no file
    have hTexts : Encodings (.scalar .number {}) false
        [.number (.integer 2), .number (.integer 1)] ["2", "1"] :=
      encodings_iff.mpr (by decide +kernel)
    rcases run_of_supplies false false none twoNumbers_holdsSchema twoNumbers_supplies hTexts
      with ⟨-, -, -, hSame⟩ | ⟨hCode, -⟩
    · exact hSame
    · exact nomatch (congrArg Outcome.exitCode hOutcome).symm.trans hCode

end CommandLine

end JsonStencil
