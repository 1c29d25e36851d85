import JsonStencil.CommandLine.Batch
import JsonStencil.CommandLine.Request
import JsonStencil.Files.Expansion
import JsonStencil.Plan.Listing
import JsonStencil.Schema.OfDocument

/-!
# Running requests

A request is run in a fixed order: the schema is read and compiled, all
inputs are resolved to paths, every source is read and its documents are
taken in turn, the documents are encoded and checked, and the text is
written. The first failure ends the run; what a check has said by then is
still told.

Main definitions:

* `CommandLine.Error` / `CommandLine.Error.message` — what can end a run,
  and its wording.
* `CommandLine.Outcome` — what a run leaves besides files.
* `CommandLine.run` — the run of a request.
* `CommandLine.wantsColor` — whether a report is coloured.
-/

namespace JsonStencil.CommandLine

open Files (Access Failure Glob PatternFault Unlisted)

/-! ## Errors -/

/-- What can keep inputs from being resolved. -/
inductive Unresolved where
  | malformed (fault : PatternFault)
  | unlisted (directory : Unlisted)
  | unmatched (pattern : String)
deriving DecidableEq, Repr

/-- The wording of the cause. -/
def Unresolved.message : Unresolved → String
  | .malformed fault => fault.message
  | .unlisted directory => directory.message
  | .unmatched pattern => "glob pattern matched no files: " ++ pattern

/-- What can end a run. -/
inductive Error where
  | schemaUnread (path : String) (failure : Failure)
  | schemaUnusable (path : String) (cause : LoadError)
  | unresolved (cause : Unresolved)
  | sourceUnread (path : String) (failure : Failure)
  | documentMalformed (path : String) (position : Nat) (fault : Json.Fault)
  | nothingSelected (pointer path : String)
  /-- A plan names what it does not provide; no compiled plan does. -/
  | planBroken (cause : OutOfRange)
  | mismatched (count total : Nat)
  | directoryUnmade (failure : Failure)
  | unwritten (path : String) (failure : Failure)
deriving DecidableEq, Repr

/-- The wording of an error. -/
def Error.message : Error → String
  | .schemaUnread path failure => s!"failed to read schema file ({path}): " ++ failure.message
  | .schemaUnusable path cause => s!"failed to load schema file ({path}): " ++ cause.message
  | .unresolved cause => "failed to resolve input file paths: " ++ cause.message
  | .sourceUnread path failure => s!"failed to read source file ({path}): " ++ failure.message
  | .documentMalformed path position fault =>
    s!"failed to parse JSON source file ({path}, document {position}): " ++ fault.message
  | .nothingSelected pointer path => s!"JSON pointer {pointer} selects nothing in {path}"
  | .planBroken cause => cause.message
  | .mismatched count total =>
    s!"{count} of {total} documents differ from the generic encoder"
  | .directoryUnmade failure => failure.message
  | .unwritten path failure => s!"failed to write {path}: " ++ failure.message

/-! ## Documents -/

/-- The part of a document that a request wants. -/
def selected (pointer : Option String) (path : String) (document : Json) :
    Except Error Json :=
  match pointer with
  | none => .ok document
  | some pointer =>
    match document.point pointer with
    | some part => .ok part
    | none => .error (.nothingSelected pointer path)

/-- The documents with the given texts, counted from a position on. -/
def documentsFrom (pointer : Option String) (path : String) (position : Nat) :
    List String → Except Error (List Json)
  | [] => .ok []
  | text :: rest => do
    let document ← match Json.ofText text with
      | .ok document => .ok document
      | .error fault => .error (.documentMalformed path position fault)
    let part ← selected pointer path document
    return part :: (← documentsFrom pointer path (position + 1) rest)

/-- The documents of a source. -/
def documentsOf (sources : Sources) (path source : String) : Except Error (List Json) :=
  documentsFrom sources.pointer path 0 (documentTexts sources.linewise source)

/-! ## Steps of a run -/

section

variable {m : Type → Type} [Monad m] (files : Access m)

/-- The schema of a file. -/
def readSchema (path : String) : ExceptT Error m Schema := do
  match ← files.read path with
  | .error failure => throw (.schemaUnread path failure)
  | .ok content =>
    match Schema.ofDocumentBytes content with
    | .ok s => return s
    | .error cause => throw (.schemaUnusable path cause)

/-- The paths of one input. -/
def resolveInput (input : String) : ExceptT Error m (List String) := do
  if !Glob.isMeant input then return [input]
  match Glob.ofText input with
  | .error fault => throw (.unresolved (.malformed fault))
  | .ok glob =>
    match ← (glob.expand files).run with
    | .error directory => throw (.unresolved (.unlisted directory))
    | .ok [] => throw (.unresolved (.unmatched input))
    | .ok paths => return paths

/-- The text of a source. -/
def readSource (path : String) : ExceptT Error m String := do
  match ← files.read path with
  | .error failure => throw (.sourceUnread path failure)
  | .ok content =>
    match Text.ofBytes? content with
    | some text => return text
    | none => throw (.sourceUnread path .notText)

/-- The documents of all inputs. -/
def readDocuments (sources : Sources) : ExceptT Error m (List Json) := do
  let paths ← sources.inputs.flatMapM (resolveInput files)
  paths.flatMapM fun path => do
    match documentsOf sources path (← readSource files path) with
    | .ok documents => return documents
    | .error e => throw e

/-- Puts a text where a request wants it, and gives back what is left for
the standard output. -/
def deliver (out : Option String) (text : String) : ExceptT Error m String := do
  match out with
  | none => return text
  | some path =>
    match ← files.makeParents path with
    | .error failure => throw (.directoryUnmade failure)
    | .ok () =>
      match ← files.write path text with
      | .error failure => throw (.unwritten path failure)
      | .ok () => return ""

/-! ## Runs -/

/-- The comparisons of a batch. -/
def compare (encoder : Encoder) (documents : List Json) : Except Error (List Comparison) :=
  (documents.mapM (Comparison.ofDocument encoder)).mapError .planBroken

/-- The text of a batch, unless a check finds a mismatch. -/
def checked (check : Bool) (batch : List Comparison) : Except Error String :=
  if check ∧ mismatches batch ≠ 0 then .error (.mismatched (mismatches batch) batch.length)
  else .ok (output batch)

/-- What a run leaves besides files: the number that it ends with, and the
texts for the standard output and for the standard error output. -/
structure Outcome where
  exitCode : Nat
  output : String
  diagnostics : String
deriving DecidableEq, Repr

/-- The outcome of a run that has told something before its end. -/
def Outcome.ofResult (told : String) : Except Error String → Outcome
  | .ok output => ⟨0, output, told⟩
  | .error e => ⟨1, "", told ++ "error: " ++ e.message ++ "\n"⟩

/-- The batch that a request to encode asks for. -/
def readBatch (schema : String) (sources : Sources) (trusted : Bool) :
    ExceptT Error m (List Comparison) := do
  let encoder := Encoder.ofSchema (← readSchema files schema) (if trusted then .trusted else .json)
  match compare encoder (← readDocuments files sources) with
  | .ok batch => return batch
  | .error e => throw e

/-- Runs a request. -/
def run (color : Bool) : Request → m Outcome
  | .plan schema out => do
    let result ← (do
      let s ← readSchema files schema
      deliver files out (Plan.ofSchema s).listing : ExceptT Error m String).run
    return .ofResult "" result
  | .encode schema sources trusted check out => do
    match ← (readBatch files schema sources trusted).run with
    | .error e => return .ofResult "" (.error e)
    | .ok batch =>
      -- the report is told whether or not the run succeeds
      let told := if check then report color batch else ""
      match checked check batch with
      | .error e => return .ofResult told (.error e)
      | .ok text => return .ofResult told (← (deliver files out text).run)

end

/-! ## Colours -/

/-- Whether a report is coloured, by the settings of the environment and by
whether the output is shown on a terminal: forced colours win, then a wish
for none, then a terminal has them unless they are turned off. The setting
`0` turns a wish for colours into its opposite. -/
def wantsColor (force noColor setting : Option String) (terminal : Bool) : Bool :=
  if force.any (· ≠ "0") then true
  else if noColor.isSome then false
  else terminal && setting.all (· ≠ "0")

end JsonStencil.CommandLine
