/-!
# Requests

The words of a command line name a job and then its options. A word that
starts with a hyphen and is more than that opens an option; the words up to
the next one are its values, unless a value is attached to it. Two hyphens
end the options, and nothing may follow them.

Main definitions:

* `CommandLine.Request` — what is to be done.
* `CommandLine.Request.ofWords?` — the request that some words spell.
-/

namespace JsonStencil.CommandLine

/-- Where documents come from. -/
structure Sources where
  /-- Paths and patterns of paths. -/
  inputs : List String
  /-- The pointer that selects a part of every document. -/
  pointer : Option String := none
  /-- Whether every line of a file is a document. -/
  linewise : Bool := false
deriving DecidableEq, Repr

/-- What is to be done. -/
inductive Request where
  /-- List the plan of a schema. -/
  | plan (schema : String) (out : Option String)
  /-- Encode documents. -/
  | encode (schema : String) (sources : Sources) (trusted check : Bool) (out : Option String)
deriving DecidableEq, Repr

/-- The path of the schema of a request. -/
def Request.schema : Request → String
  | .plan schema _ => schema
  | .encode schema _ _ _ _ => schema

/-- The path of the output of a request, if it goes to a file. -/
def Request.out : Request → Option String
  | .plan _ out => out
  | .encode _ _ _ _ out => out

/-! ## Options -/

/-- The options. -/
inductive Switch where
  | schema
  | out
  | input
  | pointer
  | linewise
  | trusted
  | check
deriving DecidableEq, Repr

namespace Switch

/-- The option of a name among those that both jobs know. -/
def ofCommonName? (name : String) : Option Switch :=
  if name = "--schema" ∨ name = "-s" then some .schema
  else if name = "--out" ∨ name = "-o" then some .out
  else none

/-- The option of a name among those of encoding. -/
def ofEncodeName? (name : String) : Option Switch :=
  if name = "--input" ∨ name = "-i" then some .input
  else if name = "--json-pointer" then some .pointer
  else if name = "--ndjson" then some .linewise
  else if name = "--trusted-strings" then some .trusted
  else if name = "--check" then some .check
  else ofCommonName? name

/-- Whether an option takes no value. -/
def isFlag : Switch → Bool
  | .linewise | .trusted | .check => true
  | _ => false

/-- Whether a value may be empty. Paths to be opened by name may not. -/
def allowsEmpty : Switch → Bool
  | .schema | .out => false
  | _ => true

end Switch

/-- One occurrence of an option, and its values. -/
structure Given where
  switch : Switch
  values : List String
deriving DecidableEq, Repr

/-- Whether a word opens an option. -/
def opensOption (word : String) : Bool := word.toList.head? = some '-' ∧ word ≠ "-"

/-- The words before the first option, and every option with the words that
follow it. -/
def grouped : List String → List String × List (String × List String)
  | [] => ([], [])
  | word :: rest =>
    let (loose, groups) := grouped rest
    if opensOption word then ([], (word, loose) :: groups) else (word :: loose, groups)

/-- The name of an option and the value attached to it: behind an equals
sign, or at once behind the letter of a short name. -/
def nameAndValue (word : String) : String × Option String :=
  match word.toList with
  | '-' :: '-' :: rest =>
    ("--" ++ String.ofList (rest.takeWhile (· ≠ '=')),
      match rest.dropWhile (· ≠ '=') with
      | [] => none
      | _ :: value => some (String.ofList value))
  | '-' :: letter :: rest =>
    ("-" ++ letter.toString,
      match rest with
      | [] => none
      | '=' :: value => some (String.ofList value)
      | value => some (String.ofList value))
  | _ => (word, none)

/-- An option with the words that follow it: a flag has no values, the
inputs have one or more, any other option has one, and an attached value is
followed by no other. -/
def given? (ofName? : String → Option Switch) (group : String × List String) :
    Option Given := do
  let (name, attached) := nameAndValue group.1
  let switch ← ofName? name
  -- an attached value is the only one
  let values ← match attached, group.2 with
    | none, words => some words
    | some value, [] => some [value]
    | some _, _ :: _ => none
  guard <|
    if switch.isFlag then attached = none ∧ values = []
    else if switch = .input then values ≠ []
    else values.length = 1
  guard (switch.allowsEmpty ∨ "" ∉ values)
  return ⟨switch, values⟩

/-- The options among some words, none if the words do not spell options or
an option that may stand once is repeated. -/
def givens? (ofName? : String → Option Switch) (words : List String) :
    Option (List Given) := do
  -- nothing follows the two hyphens that end the options
  guard ((words.dropWhile (· ≠ "--")).length ≤ 1)
  let (loose, groups) := grouped (words.takeWhile (· ≠ "--"))
  -- no word stands alone
  guard loose.isEmpty
  let givens ← groups.mapM (given? ofName?)
  guard ((givens.map Given.switch).filter (· ≠ .input)).Nodup
  return givens

/-- All values given to an option. -/
def valuesOf (givens : List Given) (switch : Switch) : List String :=
  (givens.filter (·.switch = switch)).flatMap Given.values

/-- Whether an option was given. -/
def isGiven (givens : List Given) (switch : Switch) : Bool :=
  givens.any (·.switch = switch)

namespace Request

/-- The request to list a plan. -/
def ofPlanWords? (words : List String) : Option Request := do
  let givens ← givens? Switch.ofCommonName? words
  let schema ← (valuesOf givens .schema).head?
  return .plan schema (valuesOf givens .out).head?

/-- The request to encode documents. -/
def ofEncodeWords? (words : List String) : Option Request := do
  let givens ← givens? Switch.ofEncodeName? words
  let schema ← (valuesOf givens .schema).head?
  guard (isGiven givens .input)
  let sources : Sources :=
    ⟨valuesOf givens .input, (valuesOf givens .pointer).head?, isGiven givens .linewise⟩
  return .encode schema sources (isGiven givens .trusted) (isGiven givens .check)
    (valuesOf givens .out).head?

/-- The request that some words spell, none if they spell none. -/
def ofWords? : List String → Option Request
  | "plan" :: words => ofPlanWords? words
  | "encode" :: words => ofEncodeWords? words
  | _ => none

end Request

end JsonStencil.CommandLine
