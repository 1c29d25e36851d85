import JsonStencil.CommandLine.Run
import JsonStencil.Proofs.Comparisons
import JsonStencil.Proofs.FileActions
import JsonStencil.Proofs.Simulation
import JsonStencil.Proofs.TextLines

/-!
# Runs that encode

A run that encodes first reads: the schema, the paths of every input, and the
documents of every file. All of this leaves the file system as it is, and it
succeeds exactly if the file system has what is asked of it. The documents
come in the order of the inputs, for each input in the order of its paths and
for each file in the order of its lines. Only when every document has been
encoded and compared is anything written, and then all of it.

Main definitions:

* `CommandLine.HoldsTexts` — the texts of the documents in a source.
* `FileSystem.HoldsSchema` / `FileSystem.Supplies` — the schema of a path and
  the documents of some sources.
* `FileSystem.Accepts` / `FileSystem.Delivered` — a text that can be put where
  a request wants it, and one that has been.
* `CommandLine.Encodings` — the texts of documents in their order.
* `CommandLine.Comparison.Matches` — texts of values that are equal up to the
  order of members.

Main results:

* `gives_readDocuments` — the documents that are read.
* `run_of_supplies` — a run that can read everything.
* `run_encode_allOrNothing` — what any run leaves behind.
-/

namespace JsonStencil

open Files (Access Failure Glob)
open CommandLine

/-! ## What is asked of a file system -/

/-- The texts of the documents in a source: the source itself, or else those of
its lines that have a character other than white space. -/
def CommandLine.HoldsTexts (linewise : Bool) (source : String) (texts : List String) : Prop :=
  if linewise then
    ∃ lines, Text.HasLines source lines ∧
      texts = lines.filter fun line => line.toList.any fun c => !Text.isBlank c
  else texts = [source]

/-- The text is that of a document, and the part is what the pointer selects
of it. -/
def CommandLine.Selects (pointer : Option String) (text : String) (part : Json) : Prop :=
  ∃ document, Json.ofText text = .ok document ∧
    match pointer with
    | none => document = part
    | some pointer => document.point pointer = some part

namespace FileSystem

variable (fs : FileSystem)

/-- The file of a path holds the document of a schema. -/
def HoldsSchema (path : String) (s : Schema) : Prop :=
  ∃ content, fs.read path = .ok content ∧ Schema.ofDocumentBytes content = .ok s

/-- The paths that an input stands for: itself unless it is meant as a
pattern, and then those that the pattern leads to, of which there must be
one. -/
inductive Resolves : String → List String → Prop
  | plain {input : String} (hPlain : Glob.isMeant input = false) : Resolves input [input]
  | matching {input : String} {glob : Glob} {paths : List String}
      (hMeant : Glob.isMeant input = true) (hGlob : Glob.ofText input = .ok glob)
      (hFound : Gives (glob.expand access) fs paths) (hSome : paths ≠ []) : Resolves input paths

/-- The file of a path is a text, and the parts are those of its documents in
order. -/
def HoldsParts (sources : Sources) (path : String) (parts : List Json) : Prop :=
  ∃ content source texts, fs.read path = .ok content ∧ Text.ofBytes? content = some source ∧
    HoldsTexts sources.linewise source texts ∧
    List.Forall₂ (Selects sources.pointer) texts parts

/-- The documents that sources stand for: those of every file that an input
stands for, input by input and file by file. -/
def Supplies (sources : Sources) (documents : List Json) : Prop :=
  ∃ paths parts, List.Forall₂ (fs.Resolves) sources.inputs paths ∧
    List.Forall₂ (fs.HoldsParts sources) paths.flatten parts ∧ parts.flatten = documents

/-- A text can be put where a request wants it: the directories above the
path are there or can be made, and then the file can be written. -/
def Accepts (out : Option String) (text : String) : Prop :=
  ∀ path ∈ out, ∃ between behind, access.makeParents path fs = (.ok (), between) ∧
    between.write path (Text.bytes text) = .ok behind

/-- A text has been put where a request wants it: on the standard output,
with no change to the file system, or else in the file of a path, with no
change to any other file. -/
def Delivered (behind : FileSystem) (out : Option String) (text stdout : String) : Prop :=
  match out with
  | none => stdout = text ∧ behind = fs
  | some path => stdout = "" ∧ ∃ place, behind.locate path = .ok place ∧
      behind.fileAt? place = some (Text.bytes text) ∧
        ∀ other, other ≠ place → behind.fileAt? other = fs.fileAt? other

end FileSystem

/-- What a run of a request leaves, and the file system behind it. -/
def FileSystem.carryOut (fs : FileSystem) (color : Bool) (request : Request) :
    Outcome × FileSystem :=
  (run FileSystem.access color request).run fs

namespace CommandLine

/-- How a request has strings written. -/
def escapingOf (trusted : Bool) : Json.Escaping := if trusted then .trusted else .json

/-- The encodings of documents in their order. -/
def Encodings (s : Schema) (trusted : Bool) : List Json → List String → Prop :=
  List.Forall₂ fun document text =>
    (Encoder.ofSchema s (escapingOf trusted)).encode (Value.ofJson document) = .ok text

/-- Both texts stand for values, which are equal up to the order of object
members. -/
def Comparison.Matches (c : Comparison) : Prop :=
  ∃ a b, Json.ofText c.encoded = .ok a ∧ Json.ofText c.generic = .ok b ∧ a.SameUpToOrder b

/-- Every text matches the generic text of its document. -/
def AllAgree : List Json → List String → Prop :=
  List.Forall₂ fun document text => Comparison.Matches ⟨text, (Value.ofJson document).text⟩

/-- A comparison finds out whether its texts match. -/
theorem Comparison.agrees_iff (c : Comparison) : c.agrees = true ↔ c.Matches := by
  rw [agrees]
  constructor
  · intro h
    split at h
    · next a b ha hb =>
      exact ⟨a, b, ha, hb, (Json.same_iff (Json.readable_of_ofText ha).keys
        (Json.readable_of_ofText hb).keys).mp h⟩
    · cases h
  · rintro ⟨a, b, ha, hb, hSame⟩
    rw [ha, hb]
    exact (Json.same_iff (Json.readable_of_ofText ha).keys
      (Json.readable_of_ofText hb).keys).mpr hSame

instance (c : Comparison) : Decidable c.Matches := decidable_of_iff _ c.agrees_iff

end CommandLine

/-! ## Reading -/

namespace CommandLine

open FileSystem

variable {fs : FileSystem}

/-- Reading a schema changes nothing. -/
theorem readOnly_readSchema (path : String) : ReadOnly (readSchema access path).run := by
  refine stays_andThen (stays_lift (readOnly_read path)) fun result => ?_
  split
  · exact stays_throw _
  · split
    · exact stays_ok _
    · exact stays_throw _

/-- Nor does reading a source. -/
theorem readOnly_readSource (path : String) : ReadOnly (readSource access path).run := by
  refine stays_andThen (stays_lift (readOnly_read path)) fun result => ?_
  split
  · exact stays_throw _
  · split
    · exact stays_ok _
    · exact stays_throw _

/-- Nor does looking for the paths of an input. -/
theorem readOnly_resolveInput (input : String) : ReadOnly (resolveInput access input).run := by
  unfold resolveInput
  split
  · exact stays_ok _
  · split
    · exact stays_throw _
    · refine stays_andThen (stays_lift (readOnly_expand _)) fun result => ?_
      split
      · exact stays_throw _
      · exact stays_throw _
      · exact stays_ok _

/-- The schema that is read is that of the document in the file. -/
theorem gives_readSchema {path : String} {s : Schema} :
    Gives (readSchema access path) fs s ↔ fs.HoldsSchema path s := by
  rw [readSchema, gives_read]
  · refine exists_congr fun content => and_congr_right fun _ => ?_
    dsimp only
    split
    · next loaded hLoaded => rw [hLoaded, gives_pure, Except.ok.injEq]
    · next cause hUnusable => simp [hUnusable, not_gives_throw]
  · -- without the content of the file there is no schema
    exact fun _ => not_gives_throw

/-- The text of a source is read. -/
theorem gives_readSource {path text : String} :
    Gives (readSource access path) fs text ↔
      ∃ content, fs.read path = .ok content ∧ Text.ofBytes? content = some text := by
  rw [readSource, gives_read]
  · refine exists_congr fun content => and_congr_right fun _ => ?_
    dsimp only
    split
    · next found hFound => rw [hFound, gives_pure, Option.some.injEq]
    · next hNoText => simp [hNoText, not_gives_throw]
  · exact fun _ => not_gives_throw

/-- The paths that are found are those that the input stands for. -/
theorem gives_resolveInput {input : String} {paths : List String} :
    Gives (resolveInput access input) fs paths ↔ fs.Resolves input paths := by
  unfold resolveInput
  constructor
  · intro h
    split at h
    · next hPlain =>
      rw [← gives_pure.mp h]
      exact .plain (by simpa using hPlain)
    · next hMeant =>
      have hMeant : Glob.isMeant input = true := by simpa using hMeant
      split at h
      · exact absurd h not_gives_throw
      · next glob hGlob =>
        -- the search may fail, find nothing or find paths
        rw [gives_lift_bind (readOnly_expand glob)] at h
        split at h
        · exact absurd h not_gives_throw
        · exact absurd h not_gives_throw
        · next found hSome hFound =>
          rw [← gives_pure.mp h]
          exact .matching hMeant hGlob (Prod.ext hFound (readOnly_expand glob fs).symm) hSome
  · intro h
    cases h with
    -- an input without magic characters is taken as it stands
    | plain hPlain =>
      rw [if_pos (by simp [hPlain])]
      exact gives_pure.mpr rfl
    | @matching glob _ hMeant hGlob hFound hSome =>
      rw [if_neg (by simp [hMeant]), hGlob]
      dsimp only
      rw [gives_lift_bind (readOnly_expand glob),
        show ((glob.expand access).run fs).1 = .ok paths from congrArg Prod.fst hFound]
      obtain ⟨first, rest, rfl⟩ := List.exists_cons_of_ne_nil hSome
      exact gives_pure.mpr rfl

/-- What is selected is the document, or what the pointer leads to. -/
theorem selected_eq_ok {pointer : Option String} {path : String} {document part : Json} :
    selected pointer path document = .ok part ↔
      match pointer with
      | none => document = part
      | some pointer => document.point pointer = some part := by
  cases pointer with
  | none => exact ⟨Except.ok.inj, congrArg Except.ok⟩
  | some pointer =>
    rw [selected]
    dsimp only
    -- a pointer may select nothing
    cases document.point pointer with
    | none => exact ⟨fun h => (nomatch h), fun h => (nomatch h)⟩
    | some found =>
      exact ⟨fun h => congrArg some (Except.ok.inj h),
        fun h => congrArg Except.ok (Option.some.inj h)⟩

/-- The texts that are taken from a source are those of its documents. -/
theorem documentTexts_eq_iff {linewise : Bool} {source : String} {texts : List String} :
    documentTexts linewise source = texts ↔ HoldsTexts linewise source texts := by
  have hBlank (line : String) :
      (!Text.allBlank line) = line.toList.any fun c => !Text.isBlank c :=
    List.not_all_eq_any_not ..
  rw [documentTexts, HoldsTexts]
  split
  · simp only [hBlank, ← Text.lines_eq_iff]
    exact ⟨fun h => ⟨_, rfl, h.symm⟩, fun ⟨_, hLines, h⟩ => hLines ▸ h.symm⟩
  · exact eq_comm

/-- The parts of documents with given texts, wherever they are counted
from. -/
theorem documentsFrom_eq_ok {pointer : Option String} {path : String} {position : Nat}
    {texts : List String} {parts : List Json} :
    documentsFrom pointer path position texts = .ok parts ↔
      List.Forall₂ (Selects pointer) texts parts := by
  -- on the texts; the position is told in errors only
  induction texts generalizing position parts with
  | nil =>
    rw [documentsFrom, List.forall₂_nil_left_iff]
    exact ⟨fun h => (Except.ok.inj h).symm, fun h => congrArg Except.ok h.symm⟩
  | cons text rest ih =>
    rw [documentsFrom]
    constructor
    · intro h
      split at h
      · next document hDocument =>
        obtain ⟨part, hPart, hMore⟩ := bind_inv (x := selected pointer path document) h
        obtain ⟨others, hOthers, hEnd⟩ := bind_inv hMore
        cases hEnd
        exact .cons ⟨document, hDocument, selected_eq_ok.mp hPart⟩ (ih.mp hOthers)
      · cases h
    · rintro (_ | ⟨⟨document, hDocument, hPart⟩, hOthers⟩)
      rw [hDocument]
      show (selected pointer path document).bind _ = _
      rw [selected_eq_ok.mpr hPart]
      show (documentsFrom pointer path (position + 1) rest).bind _ = _
      rw [ih.mpr hOthers]
      rfl

/-- The parts of the documents in one file. -/
def readParts (sources : Sources) (path : String) :
    ExceptT Error (StateM FileSystem) (List Json) := do
  match documentsOf sources path (← readSource access path) with
  | .ok documents => return documents
  | .error e => throw e

/-- All inputs are resolved before the first file is read. -/
theorem readDocuments_eq (sources : Sources) : readDocuments access sources =
    (sources.inputs.flatMapM (resolveInput access) >>= fun paths =>
      paths.flatMapM (readParts sources)) := rfl

/-- Reading the documents of a file changes nothing. -/
theorem readOnly_readParts (sources : Sources) (path : String) :
    ReadOnly (readParts sources path).run := by
  refine stays_andThen (readOnly_readSource path) fun source => ?_
  split
  · exact stays_ok _
  · exact stays_throw _

/-- Nor does reading all documents. -/
theorem readOnly_readDocuments (sources : Sources) :
    ReadOnly (readDocuments access sources).run :=
  stays_andThen (stays_flatMapM readOnly_resolveInput _) fun paths =>
    stays_flatMapM (readOnly_readParts sources) paths

/-- The parts that are read are those that the file holds. -/
theorem gives_readParts {sources : Sources} {path : String} {parts : List Json} :
    Gives (readParts sources path) fs parts ↔ fs.HoldsParts sources path parts := by
  rw [readParts, gives_bind (readOnly_readSource path)]
  constructor
  · rintro ⟨source, hSource, hMore⟩
    -- the bytes of the file, their text, the texts of the documents and what is selected
    obtain ⟨content, hRead, hText⟩ := gives_readSource.mp hSource
    split at hMore
    · next documents hDocuments =>
      rw [gives_pure.mp hMore] at hDocuments
      exact ⟨content, source, _, hRead, hText, documentTexts_eq_iff.mp rfl,
        documentsFrom_eq_ok.mp hDocuments⟩
    · exact absurd hMore not_gives_throw
  · rintro ⟨content, source, texts, hRead, hText, hTexts, hParts⟩
    refine ⟨source, gives_readSource.mpr ⟨content, hRead, hText⟩, ?_⟩
    rw [documentsOf, documentTexts_eq_iff.mpr hTexts, documentsFrom_eq_ok.mpr hParts]
    exact gives_pure.mpr rfl

/-- The documents that are read are those that the sources stand for. -/
theorem gives_readDocuments {sources : Sources} {documents : List Json} :
    Gives (readDocuments access sources) fs documents ↔ fs.Supplies sources documents := by
  rw [readDocuments_eq, gives_bind (stays_flatMapM readOnly_resolveInput _)]
  constructor
  · rintro ⟨_, hResolved, hRead⟩
    -- first every input has its paths, and then every path has its documents
    obtain ⟨paths, hEach, rfl⟩ := (gives_flatMapM readOnly_resolveInput).mp hResolved
    obtain ⟨parts, hParts, hDocuments⟩ := (gives_flatMapM (readOnly_readParts sources)).mp hRead
    exact ⟨paths, parts, hEach.imp fun _ _ => gives_resolveInput.mp,
      hParts.imp fun _ _ => gives_readParts.mp, hDocuments⟩
  · rintro ⟨paths, parts, hEach, hParts, hDocuments⟩
    refine ⟨paths.flatten, ?_, ?_⟩
    · exact (gives_flatMapM readOnly_resolveInput).mpr
        ⟨paths, hEach.imp fun _ _ => gives_resolveInput.mpr, rfl⟩
    · exact (gives_flatMapM (readOnly_readParts sources)).mpr
        ⟨parts, hParts.imp fun _ _ => gives_readParts.mpr, hDocuments⟩

end CommandLine

/-- A path holds the document of one schema only. -/
theorem FileSystem.HoldsSchema.unique {fs : FileSystem} {path : String} {s t : Schema}
    (hs : fs.HoldsSchema path s) (ht : fs.HoldsSchema path t) : s = t :=
  (CommandLine.gives_readSchema.mpr hs).unique (CommandLine.gives_readSchema.mpr ht)

/-- Sources stand for one list of documents only. -/
theorem FileSystem.Supplies.unique {fs : FileSystem} {sources : CommandLine.Sources}
    {documents others : List Json} (h : fs.Supplies sources documents)
    (hOthers : fs.Supplies sources others) : documents = others :=
  (CommandLine.gives_readDocuments.mpr h).unique (CommandLine.gives_readDocuments.mpr hOthers)

namespace CommandLine

open FileSystem

variable {fs : FileSystem}

/-! ## Encoding -/

/-- The two texts of a document. -/
def Comparison.ofSchema (s : Schema) (trusted : Bool) (document : Json) : Comparison :=
  ⟨s.direct (escapingOf trusted) (Value.ofJson document), (Value.ofJson document).text⟩

/-- An encoder has a text for every document. -/
theorem compare_eq (s : Schema) (trusted : Bool) (documents : List Json) :
    compare (Encoder.ofSchema s (escapingOf trusted)) documents =
      .ok (documents.map (Comparison.ofSchema s trusted)) := by
  -- an encoder of a schema never fails, so every document has its comparison
  have hOne : Comparison.ofDocument (Encoder.ofSchema s (escapingOf trusted)) =
      pure ∘ Comparison.ofSchema s trusted := by
    funext document
    show (Encoder.encode _ _).bind _ = _
    rw [Encoder.encode_eq_direct]
    rfl
  rw [compare, hOne]
  have hAll : (documents.mapM (pure ∘ Comparison.ofSchema s trusted) : Except OutOfRange _) =
      pure (documents.map (Comparison.ofSchema s trusted)) := List.mapM_pure
  rw [hAll]
  rfl

/-- Nor does reading a batch, with all of its documents encoded. -/
theorem readOnly_readBatch (schema : String) (sources : Sources) (trusted : Bool) :
    ReadOnly (readBatch access schema sources trusted).run := by
  refine stays_andThen (readOnly_readSchema schema) fun s => ?_
  refine stays_andThen (readOnly_readDocuments sources) fun documents => ?_
  split
  · exact stays_ok _
  · exact stays_throw _

/-- The batch of a request. -/
theorem gives_readBatch {schema : String} {sources : Sources} {trusted : Bool}
    {batch : List Comparison} :
    Gives (readBatch access schema sources trusted) fs batch ↔
      ∃ s documents, fs.HoldsSchema schema s ∧ fs.Supplies sources documents ∧
        documents.map (Comparison.ofSchema s trusted) = batch := by
  have hCompare (s : Schema) (documents : List Json) :
      compare (Encoder.ofSchema s (if trusted then .trusted else .json)) documents =
        .ok (documents.map (Comparison.ofSchema s trusted)) := compare_eq s trusted documents
  rw [readBatch, gives_bind (readOnly_readSchema schema)]
  simp only [gives_readSchema, gives_bind (readOnly_readDocuments sources), gives_readDocuments,
    hCompare, gives_pure, exists_and_left]

/-! ## Delivering -/

/-- A text is written as its bytes, or not at all. -/
theorem write_run {path text : String} :
    access.write path text fs =
      match fs.write path (Text.bytes text) with
      | .ok behind => (.ok (), behind)
      | .error failure => (.error failure, fs) := rfl

/-- A text is written to a file behind the making of directories. -/
theorem deliver_run (path text : String) :
    (deliver access (some path) text).run fs =
      match access.makeParents path fs with
      | (.error failure, between) => (.error (.directoryUnmade failure), between)
      | (.ok (), between) =>
        match between.write path (Text.bytes text) with
        | .error failure => (.error (.unwritten path failure), between)
        | .ok behind => (.ok "", behind) := by
  -- first the directories above the file, and then the file
  rw [deliver, run_lift_bind]
  cases access.makeParents path fs with
  | mk result between =>
    cases result with
    | error failure => rfl
    | ok made =>
      show ((liftM (access.write path text) >>= _ : ExceptT Error (StateM FileSystem) String).run
        between) = _
      rw [run_lift_bind, write_run]
      cases made
      dsimp only
      cases between.write path (Text.bytes text) <;> rfl

/-- What is accepted is delivered. -/
theorem deliver_of_accepts {out : Option String} {text : String} (h : fs.Accepts out text) :
    ∃ stdout behind, (deliver access out text).run fs = (.ok stdout, behind) ∧
      fs.Delivered behind out text stdout := by
  cases out with
  | none => exact ⟨text, fs, rfl, rfl, rfl⟩
  | some path =>
    obtain ⟨between, behind, hParents, hWritten⟩ := h path rfl
    obtain ⟨place, hPlace, hContent, hOthers⟩ := fileAt?_write hWritten
    -- making directories has changed no file, and then one file is written
    have hSame : SameFiles fs between := by
      have hStays := sameFiles_makeParents path fs
      rwa [hParents] at hStays
    refine ⟨"", behind, ?_, rfl, place, hPlace, hContent, fun other hOther =>
      (hOthers other hOther).trans (hSame other)⟩
    rw [deliver_run, hParents]
    dsimp only
    rw [hWritten]

/-- What is not accepted fails, and no file has changed by then. -/
theorem deliver_of_not_accepts {out : Option String} {text : String}
    (h : ¬ fs.Accepts out text) :
    ∃ e behind, (deliver access out text).run fs = (.error e, behind) ∧ SameFiles fs behind := by
  cases out with
  | none => exact absurd (fun _ hPath => (nomatch hPath)) h
  | some path =>
    rw [deliver_run]
    have hSame := sameFiles_makeParents path fs
    cases hParents : access.makeParents path fs with
    | mk result between =>
      rw [hParents] at hSame
      -- the directories cannot be made, or they can and the file cannot be written
      cases result with
      | error failure => exact ⟨_, _, rfl, hSame⟩
      | ok made =>
        dsimp only
        cases hWritten : between.write path (Text.bytes text) with
        | error failure => exact ⟨_, _, rfl, hSame⟩
        | ok behind =>
          -- both succeed, and so the place is accepted
          refine absurd ?_ h
          rintro _ ⟨⟩
          exact ⟨between, behind, hParents, hWritten⟩

/-! ## Runs -/

section Batch

variable {s : Schema} {trusted : Bool} {documents : List Json} {texts : List String}

/-- The encodings are what the comparisons have on their one side. -/
theorem encodings_iff : Encodings s trusted documents texts ↔
    (documents.map (Comparison.ofSchema s trusted)).map Comparison.encoded = texts := by
  rw [← List.forall₂_eq_eq_eq, List.forall₂_map_left_iff, List.forall₂_map_left_iff, Encodings]
  simp only [Encoder.encode_eq_direct, Except.ok.injEq]
  rfl

/-- Documents have one list of encodings only. -/
theorem Encodings.unique {others : List String} (h : Encodings s trusted documents texts)
    (hOthers : Encodings s trusted documents others) : texts = others :=
  (encodings_iff.mp h).symm.trans (encodings_iff.mp hOthers)

/-- All texts agree with the generic ones exactly if a check counts no
mismatch. -/
theorem allAgree_iff (h : Encodings s trusted documents texts) :
    AllAgree documents texts ↔
      mismatches (documents.map (Comparison.ofSchema s trusted)) = 0 := by
  rw [mismatches_eq_zero_iff, ← encodings_iff.mp h, AllAgree, List.map_map,
    List.forall₂_map_right_iff, List.forall₂_same, List.forall_mem_map]
  simp only [Comparison.agrees_iff]
  rfl

end Batch

section Run

variable {schema : String} {sources : Sources} {trusted : Bool} (check color : Bool)
  (out : Option String)

/-- What a run does whose batch is read. -/
theorem run_of_batch {batch : List Comparison}
    (h : Gives (readBatch access schema sources trusted) fs batch) :
    fs.carryOut color (.encode schema sources trusted check out) =
      let told := if check then report color batch else ""
      match checked check batch with
      | .error e => (.ofResult told (.error e), fs)
      | .ok text =>
        (.ofResult told ((deliver access out text).run fs).1,
          ((deliver access out text).run fs).2) := by
  unfold carryOut run
  dsimp only
  -- the batch is read without a change to any file
  rw [run_bind, show (readBatch access schema sources trusted).run fs = _ from h]
  dsimp only
  cases checked check batch <;> rfl

/-- A run whose batch cannot be read ends with 1. -/
theorem run_of_no_batch
    (h : ∀ batch, ¬ Gives (readBatch access schema sources trusted) fs batch) :
    ∃ e, fs.carryOut color (.encode schema sources trusted check out) =
      (.ofResult "" (.error e), fs) := by
  have hState : fs = ((readBatch access schema sources trusted).run fs).2 :=
    readOnly_readBatch schema sources trusted fs
  unfold carryOut run
  dsimp only
  rw [run_bind, ← hState]
  cases hResult : ((readBatch access schema sources trusted).run fs).1 with
  | error e => exact ⟨e, rfl⟩
  | ok batch => exact absurd (Prod.ext hResult hState.symm) (h batch)

/-- A run that can read everything delivers the encodings, unless a check
finds a mismatch or the output is not accepted. -/
theorem run_of_supplies {s : Schema} {documents : List Json} {texts : List String}
    (hSchema : fs.HoldsSchema schema s) (hDocuments : fs.Supplies sources documents)
    (hTexts : Encodings s trusted documents texts) :
    let result := fs.carryOut color (.encode schema sources trusted check out)
    ((check = true → AllAgree documents texts) ∧ result.1.exitCode = 0 ∧
        fs.Delivered result.2 out (Text.unlines texts) result.1.output) ∨
      (result.1.exitCode = 1 ∧ result.1.output = "" ∧ SameFiles fs result.2 ∧
        (check = true ∧ ¬ AllAgree documents texts ∨ ¬ fs.Accepts out (Text.unlines texts))) := by
  intro result
  have hBatch : Gives (readBatch access schema sources trusted) fs
      (documents.map (Comparison.ofSchema s trusted)) :=
    gives_readBatch.mpr ⟨s, documents, hSchema, hDocuments, rfl⟩
  have hRun : result = _ := run_of_batch check color out hBatch
  have hOutput : output (documents.map (Comparison.ofSchema s trusted)) = Text.unlines texts :=
    congrArg Text.unlines (encodings_iff.mp hTexts)
  rw [allAgree_iff hTexts]
  dsimp only at hRun
  -- a mismatch stops the run before the output is tried
  by_cases hStops : check = true ∧ mismatches (documents.map (Comparison.ofSchema s trusted)) ≠ 0
  · -- nothing is delivered
    rw [checked, if_pos hStops] at hRun
    rw [hRun]
    exact Or.inr ⟨rfl, rfl, fun _ => rfl, Or.inl hStops⟩
  · rw [checked, if_neg hStops, hOutput] at hRun
    dsimp only at hRun
    by_cases hAccepts : fs.Accepts out (Text.unlines texts)
    · -- what the run delivers is the text of the whole batch
      obtain ⟨stdout, behind, hDeliver, hDelivered⟩ := deliver_of_accepts hAccepts
      rw [hDeliver] at hRun
      rw [hRun]
      refine Or.inl ⟨fun hCheck => ?_, rfl, hDelivered⟩
      exact Classical.byContradiction fun hSome => hStops ⟨hCheck, hSome⟩
    · obtain ⟨e, behind, hDeliver, hSame⟩ := deliver_of_not_accepts hAccepts
      rw [hDeliver] at hRun
      rw [hRun]
      exact Or.inr ⟨rfl, rfl, hSame, Or.inr hAccepts⟩

end Run

/-! ## Files with numbers -/

/-- A schema of numbers and two documents. -/
def twoNumbers : FileSystem where
  root := .directory [("schema.json", .file (Text.bytes "\x7b\"type\":\"number\"\x7d")),
    ("b.json", .file (Text.bytes "2")), ("a.json", .file (Text.bytes "1"))]
  here := []

/-- A schema of numbers, two files with a document on each line that is not
blank, and a file for the output. -/
def numberLines : FileSystem where
  root := .directory [("out.txt", .file (Text.bytes "before")),
    ("part1.ndjson", .file (Text.bytes "\x7b\"n\":1\x7d\n \t\n\x7b\"n\":2\x7d\r\n")),
    ("part2.ndjson", .file (Text.bytes "\n\x7b\"n\":3\x7d")),
    ("schema.json", .file (Text.bytes "\x7b\"type\":\"number\"\x7d"))]
  here := []

/-- The schema that says no more than that a value is a number. -/
def isPlainNumber : Schema → Bool
  | .scalar .number ⟨none, false⟩ => true
  | _ => false

/-- The document of a plain number type is loaded as such. -/
theorem ofDocumentBytes_number :
    Schema.ofDocumentBytes (Text.bytes "\x7b\"type\":\"number\"\x7d") = .ok (.scalar .number {}) := by
  have hNumber : (Schema.ofDocumentBytes (Text.bytes "\x7b\"type\":\"number\"\x7d")).toOption.any
      isPlainNumber = true := by decide +kernel
  obtain ⟨s, hLoaded, hPlain⟩ := (Option.any_eq_true ..).mp hNumber
  refine (toOption_inv hLoaded).trans ?_
  unfold isPlainNumber at hPlain
  split at hPlain
  · rfl
  · cases hPlain

theorem twoNumbers_holdsSchema : twoNumbers.HoldsSchema "schema.json" (.scalar .number {}) :=
  ⟨_, rfl, ofDocumentBytes_number⟩

theorem numberLines_holdsSchema : numberLines.HoldsSchema "schema.json" (.scalar .number {}) :=
  ⟨_, rfl, ofDocumentBytes_number⟩

/-- A digit is a document that is selected as a whole. -/
theorem selects_digit {n : Nat} (h : n < 10) :
    Selects none (integerText n) (.number (.integer n)) :=
  ⟨_, Json.ofText_text (j := .number (.integer n)) ⟨by omega, by omega⟩ ⟨Nat.zero_le _, trivial⟩,
    rfl⟩

/-- The documents are the two digits in the order of the inputs. -/
theorem twoNumbers_supplies : twoNumbers.Supplies ⟨["b.json", "a.json"], none, false⟩
    [.number (.integer 2), .number (.integer 1)] :=
  ⟨[["b.json"], ["a.json"]], [[.number (.integer 2)], [.number (.integer 1)]],
    .cons (.plain rfl) (.cons (.plain rfl) .nil),
    .cons ⟨_, _, _, rfl, Text.ofBytes?_bytes "2", rfl,
        .cons (selects_digit (n := 2) (by decide)) .nil⟩
      (.cons ⟨_, _, _, rfl, Text.ofBytes?_bytes "1", rfl,
        .cons (selects_digit (n := 1) (by decide)) .nil⟩ .nil), rfl⟩

/-- An object with a number at `n`. -/
def numbered (n : Nat) : Json := .object [("n", .number (.integer n))]

/-- The number is selected from its object. -/
theorem selects_numbered {n : Nat} (h : n < 10) :
    Selects (some "/n") (numbered n).text (.number (.integer n)) :=
  ⟨numbered n, Json.ofText_text ⟨⟨by omega, by omega⟩, trivial⟩
    ⟨show 1 ≤ Json.maxDepth by decide, List.pairwise_singleton _ _, trivial, trivial⟩, rfl⟩

/-- The pattern leads to both parts, the first of which is asked for once
more. -/
theorem numberLines_supplies : numberLines.Supplies
    ⟨["part?.ndjson", "part1.ndjson"], some "/n", true⟩
    [.number (.integer 1), .number (.integer 2), .number (.integer 3), .number (.integer 1),
      .number (.integer 2)] := by
  -- the pattern is expanded in the order of the names
  have hNames : numberLines.names "." =
      .ok ["out.txt", "part1.ndjson", "part2.ndjson", "schema.json"] :=
    congrArg Except.ok (List.mergeSort_of_pairwise (by decide +kernel))
  have hGlob : Glob.ofText "part?.ndjson" = .ok ⟨false, [("part".toList.map .char)
      ++ .anyChar :: ".ndjson".toList.map .char], false⟩ := by decide +kernel
  have hFound : numberLines.Resolves "part?.ndjson" ["part1.ndjson", "part2.ndjson"] :=
    .matching (by decide) hGlob
      (gives_expand_name (by decide) (by decide) (by decide) hNames) (by decide)
  -- of each line the member `n` is selected
  have hFirst : numberLines.HoldsParts ⟨["part?.ndjson", "part1.ndjson"], some "/n", true⟩
      "part1.ndjson" [.number (.integer 1), .number (.integer 2)] :=
    ⟨_, _, [(numbered 1).text, (numbered 2).text], rfl, Text.ofBytes?_bytes _,
      documentTexts_eq_iff.mp (by decide +kernel),
      .cons (selects_numbered (n := 1) (by decide))
        (.cons (selects_numbered (n := 2) (by decide)) .nil)⟩
  have hSecond : numberLines.HoldsParts ⟨["part?.ndjson", "part1.ndjson"], some "/n", true⟩
      "part2.ndjson" [.number (.integer 3)] :=
    ⟨_, _, [(numbered 3).text], rfl, Text.ofBytes?_bytes _,
      documentTexts_eq_iff.mp (by decide +kernel),
      .cons (selects_numbered (n := 3) (by decide)) .nil⟩
  exact ⟨[["part1.ndjson", "part2.ndjson"], ["part1.ndjson"]], [_, _, _],
    .cons hFound (.cons (.plain rfl) .nil), .cons hFirst (.cons hSecond (.cons hFirst .nil)), rfl⟩

/-! ## All or nothing -/

/-- The request that the words behind `encode` spell. -/
theorem ofEncodeWords_inv {words : List String} {request : Request}
    (h : Request.ofWords? ("encode" :: words) = some request) :
    ∃ givens schema trusted check out, givens? Switch.ofEncodeName? words = some givens ∧
      request = .encode schema ⟨valuesOf givens .input, (valuesOf givens .pointer).head?,
        isGiven givens .linewise⟩ trusted check out := by
  have hEncode : Request.ofEncodeWords? words = some request := h
  obtain ⟨givens, hGivens, hMore⟩ := Option.bind_eq_some_iff.mp hEncode
  obtain ⟨schema, -, hSources⟩ := Option.bind_eq_some_iff.mp hMore
  obtain ⟨-, -, hRequest⟩ := Option.bind_eq_some_iff.mp hSources
  exact ⟨givens, schema, _, _, _, hGivens, (Option.some.inj hRequest).symm⟩

/-- **All or nothing.** Whatever words spell a request to encode, a run of it
ends in one of two ways. Either it ends with 0, and what has been written, on
the standard output or in the one file that changes, are the encodings of the
documents that the inputs stand for, in their order and with a line feed behind
each, or a line feed alone if there is no document. Or it ends with 1, has
nothing on the standard output and leaves every file as it was; then the
schema or a document could not be had, a check has found a mismatch, or the
output is not accepted. -/
theorem run_encode_allOrNothing (fs : FileSystem) (color : Bool) {words : List String}
    {request : Request} (h : Request.ofWords? ("encode" :: words) = some request) :
    ∃ givens schema sources trusted check out,
      givens? Switch.ofEncodeName? words = some givens ∧
      sources = ⟨valuesOf givens .input, (valuesOf givens .pointer).head?,
        isGiven givens .linewise⟩ ∧
      request = .encode schema sources trusted check out ∧
      let result := fs.carryOut color request
      let written (texts : List String) : String :=
        if texts = [] then "\n" else String.join (texts.map (· ++ "\n"))
      (∃ s documents texts, fs.HoldsSchema schema s ∧ fs.Supplies sources documents ∧
        Encodings s trusted documents texts ∧ (check = true → AllAgree documents texts) ∧
        result.1.exitCode = 0 ∧ fs.Delivered result.2 out (written texts) result.1.output) ∨
      (result.1.exitCode = 1 ∧ result.1.output = "" ∧ SameFiles fs result.2 ∧
        ∀ s documents, fs.HoldsSchema schema s → fs.Supplies sources documents →
          ∃ texts, Encodings s trusted documents texts ∧
            (check = true ∧ ¬ AllAgree documents texts ∨ ¬ fs.Accepts out (written texts))) := by
  obtain ⟨givens, schema, trusted, check, out, hGivens, rfl⟩ := ofEncodeWords_inv h
  refine ⟨givens, schema, _, trusted, check, out, hGivens, rfl, rfl, ?_⟩
  generalize (⟨valuesOf givens .input, (valuesOf givens .pointer).head?,
    isGiven givens .linewise⟩ : Sources) = sources
  intro result written
  have hWritten : written = Text.unlines := funext fun texts => (Text.unlines_eq texts).symm
  rw [hWritten]
  -- whether all can be read decides, for then the encodings cannot fail
  by_cases hSupplied : ∃ s documents, fs.HoldsSchema schema s ∧ fs.Supplies sources documents
  · obtain ⟨s, documents, hSchema, hDocuments⟩ := hSupplied
    have hTexts : Encodings s trusted documents _ := encodings_iff.mpr rfl
    rcases run_of_supplies check color out hSchema hDocuments hTexts
      with ⟨hAgree, hDone⟩ | ⟨hCode, hOutput, hSame, hCause⟩
    · exact Or.inl ⟨s, documents, _, hSchema, hDocuments, hTexts, hAgree, hDone⟩
    · refine Or.inr ⟨hCode, hOutput, hSame, fun s' documents' hSchema' hDocuments' => ?_⟩
      obtain rfl := hSchema.unique hSchema'
      obtain rfl := hDocuments.unique hDocuments'
      exact ⟨_, hTexts, hCause⟩
  · -- without a schema or a document nothing is read that could be encoded
    have hNone (batch : List Comparison) :
        ¬ Gives (readBatch access schema sources trusted) fs batch := by
      intro hBatch
      obtain ⟨s, documents, hSchema, hDocuments, -⟩ := gives_readBatch.mp hBatch
      exact hSupplied ⟨s, documents, hSchema, hDocuments⟩
    obtain ⟨e, hRun⟩ := run_of_no_batch check color out hNone
    have hRun : result = _ := hRun
    rw [hRun]
    exact Or.inr ⟨rfl, rfl, fun _ => rfl, fun s documents hSchema hDocuments =>
      absurd ⟨s, documents, hSchema, hDocuments⟩ hSupplied⟩

/-- The documents come in the order of the inputs, and the output takes the
place of one of them. Of several files those that a pattern leads to are read
line by line in the order of their names, a file as often as it is asked for,
and blank lines are no documents. A file in which nothing is selected keeps all
others from being written. -/
theorem run_encode_overwriting :
    (let request : Request :=
        .encode "schema.json" ⟨["b.json", "a.json"], none, false⟩ false false (some "b.json")
      let result := twoNumbers.carryOut false request
      Request.ofWords? ["encode", "-s", "schema.json", "-i", "b.json", "a.json", "-o", "b.json"] =
        some request ∧
      twoNumbers.HoldsSchema "schema.json" (.scalar .number {}) ∧
      twoNumbers.Supplies ⟨["b.json", "a.json"], none, false⟩
        [.number (.integer 2), .number (.integer 1)] ∧
      Encodings (.scalar .number {}) false [.number (.integer 2), .number (.integer 1)]
        ["2", "1"] ∧
      result.1 = ⟨0, "", ""⟩ ∧ twoNumbers.Delivered result.2 (some "b.json") "2\n1\n" "" ∧
      result.2.read "b.json" = .ok [0x32, 0x0A, 0x31, 0x0A] ∧ result.2.read "a.json" = .ok [0x31]) ∧
    (let request : Request :=
        .encode "schema.json" ⟨["part?.ndjson", "part1.ndjson"], some "/n", true⟩ false false none
      let documents : List Json := [.number (.integer 1), .number (.integer 2),
        .number (.integer 3), .number (.integer 1), .number (.integer 2)]
      let result := numberLines.carryOut false request
      Request.ofWords? ["encode", "--schema=schema.json", "-i", "part?.ndjson", "part1.ndjson",
          "--ndjson", "--json-pointer", "/n"] = some request ∧
      numberLines.HoldsSchema "schema.json" (.scalar .number {}) ∧
      numberLines.Supplies ⟨["part?.ndjson", "part1.ndjson"], some "/n", true⟩ documents ∧
      Encodings (.scalar .number {}) false documents ["1", "2", "3", "1", "2"] ∧
      result.1.exitCode = 0 ∧ result.1.output = "1\n2\n3\n1\n2\n" ∧ result.2 = numberLines) ∧
    (let request : Request :=
        .encode "schema.json" ⟨["part1.ndjson", "schema.json"], some "/n", true⟩ false false
          (some "out.txt")
      let result := numberLines.carryOut false request
      Request.ofWords? ["encode", "-sschema.json", "-i", "part1.ndjson", "-i", "schema.json",
          "--ndjson", "--json-pointer=/n", "-o", "out.txt"] = some request ∧
      result.1 = ⟨1, "", "error: JSON pointer /n selects nothing in schema.json\n"⟩ ∧
      SameFiles numberLines result.2 ∧ result.2.read "out.txt" = .ok (Text.bytes "before")) := by
  refine ⟨?_, ?_, ?_⟩
  · intro request result
    have hWords : Request.ofWords? ["encode", "-s", "schema.json", "-i", "b.json", "a.json", "-o",
      "b.json"] = some request := by decide
    have hTexts : Encodings (.scalar .number {}) false
        [.number (.integer 2), .number (.integer 1)] ["2", "1"] :=
      encodings_iff.mpr (by decide +kernel)
    have hOutcome : result.1 = ⟨0, "", ""⟩ := by decide +kernel
    -- the documents have been read before the file that holds one of them is written
    obtain ⟨_, _, _, _, _, _, -, -, hRequest, hEnds⟩ :=
      run_encode_allOrNothing twoNumbers false hWords
    dsimp only [request] at hRequest
    cases hRequest
    rcases hEnds with ⟨s, documents, texts, hSchema, hDocuments, hFound, -, -, hDelivered⟩ | hFailed
    · obtain rfl := hSchema.unique twoNumbers_holdsSchema
      obtain rfl := hDocuments.unique twoNumbers_supplies
      obtain rfl := hFound.unique hTexts
      have hDelivered : twoNumbers.Delivered result.2 (some "b.json") "2\n1\n" result.1.output :=
        hDelivered
      rw [hOutcome] at hDelivered
      exact ⟨hWords, hSchema, hDocuments, hTexts, hOutcome, hDelivered, by decide +kernel,
        by decide +kernel⟩
    · exact nomatch (congrArg Outcome.exitCode hOutcome).symm.trans hFailed.1
  · intro request documents result
    have hWords : Request.ofWords? ["encode", "--schema=schema.json", "-i", "part?.ndjson",
      "part1.ndjson", "--ndjson", "--json-pointer", "/n"] = some request := by decide
    have hTexts : Encodings (.scalar .number {}) false documents ["1", "2", "3", "1", "2"] :=
      encodings_iff.mpr (by decide +kernel)
    -- five lines in the order of the inputs, the first two of them twice
    obtain ⟨_, _, _, _, _, _, -, -, hRequest, hEnds⟩ :=
      run_encode_allOrNothing numberLines false hWords
    dsimp only [request] at hRequest
    cases hRequest
    rcases hEnds with ⟨s, found, texts, hSchema, hDocuments, hFound, -, hCode, hOutput, hSame⟩ |
      ⟨-, -, -, hCause⟩
    · obtain rfl := hSchema.unique numberLines_holdsSchema
      obtain rfl : found = documents := hDocuments.unique numberLines_supplies
      obtain rfl := hFound.unique hTexts
      exact ⟨hWords, hSchema, hDocuments, hTexts, hCode, hOutput, hSame⟩
    · -- nothing is checked, and the standard output takes every text
      obtain ⟨_, -, hChecked | hRefused⟩ := hCause _ _ numberLines_holdsSchema numberLines_supplies
      · exact nomatch hChecked.1
      · exact absurd (fun _ hPath => nomatch hPath) hRefused
  · intro request result
    have hWords : Request.ofWords? ["encode", "-sschema.json", "-i", "part1.ndjson", "-i",
      "schema.json", "--ndjson", "--json-pointer=/n", "-o", "out.txt"] = some request := by decide
    have hOutcome : result.1 =
        ⟨1, "", "error: JSON pointer /n selects nothing in schema.json\n"⟩ := by decide +kernel
    obtain ⟨_, _, _, _, _, _, -, -, hRequest, hEnds⟩ :=
      run_encode_allOrNothing numberLines false hWords
    dsimp only [request] at hRequest
    cases hRequest
    -- the last source has no such member, and the earlier documents are not written either
    rcases hEnds with ⟨_, _, _, _, _, _, _, hCode, _⟩ | ⟨_, _, hSame, _⟩
    · exact nomatch (congrArg Outcome.exitCode hOutcome).symm.trans hCode
    · exact ⟨hWords, hOutcome, hSame, by decide +kernel⟩

end CommandLine

end JsonStencil
