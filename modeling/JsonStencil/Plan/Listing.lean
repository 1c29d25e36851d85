import JsonStencil.Plan.Step

/-!
# Plan listings

A plan is shown to a reader line by line: the group flags it uses, the
aliases it binds, and its steps, one to a line, the steps inside another step
indented below it.

Main definitions:

* `Step.lines` — the lines of a step.
* `Plan.listing` — the listing of a plan.
* `Plan.summary` — what a plan relies on, on one line.
-/

namespace JsonStencil

/-- The condition under which a guard hits, as a listing shows it. -/
def Guard.condition (g : Guard) (path : Path) : String :=
  let isNull := path.text ++ "===null"
  let isUndefined := path.text ++ "===undefined"
  match g.null, g.undefined with
  | true, true => isNull ++ "||" ++ isUndefined
  | true, false => isNull
  | _, _ => isUndefined

/-- A line with the blanks that its depth asks for. -/
def indented (depth : Nat) (line : String) : String :=
  String.ofList (List.replicate (2 * depth) ' ') ++ line

mutual

/-- The lines of a step at a depth. -/
def Step.lines (depth : Nat) : Step → List String
  | .text literal => [indented depth ("text " ++ Text.shown literal)]
  | .quoted path => [indented depth ("quoted " ++ path.text)]
  | .raw path => [indented depth ("raw " ++ path.text)]
  | .date path => [indented depth ("date " ++ path.text)]
  | .generic path => [indented depth ("generic " ++ path.text)]
  | .joinQuoted path => [indented depth ("join-quoted " ++ path.text)]
  | .joinRaw path => [indented depth ("join-raw " ++ path.text)]
  | .reset group => [indented depth s!"op{group}=false"]
  | .comma group => [indented depth s!"comma op{group}"]
  | .guarded path guard steps =>
    indented depth
        ("if " ++ guard.condition path ++ " then " ++ Text.shown guard.fallback ++ " else") ::
      Step.linesOf (depth + 1) steps
  | .optional path present absent =>
    indented depth ("if " ++ path.text ++ "===undefined") ::
      Step.linesOf (depth + 1) absent ++
      indented depth "else" :: Step.linesOf (depth + 1) present
  | .loop path slot item =>
    indented depth (s!"for ar{slot}p of " ++ path.text) :: Step.linesOf (depth + 1) item

/-- The lines of some steps at a depth. -/
def Step.linesOf (depth : Nat) : List Step → List String
  | [] => []
  | step :: rest => Step.lines depth step ++ Step.linesOf depth rest

end

namespace Plan

/-- The line that declares the group flags, if there are any. -/
def flagLines (groups : Nat) : List String :=
  if groups = 0 then []
  else ["let " ++ commaSep ((List.range groups).map fun group => s!"op{group}=false")]

/-- The line that binds the aliases, if there are any. -/
def aliasLines (aliases : List Path) : List String :=
  if aliases.isEmpty then []
  else ["const " ++ commaSep (aliases.mapIdx fun index path => s!"s{index}=" ++ path.text)]

/-- The listing of a plan. Every line is ended. -/
def listing (p : Plan) : String :=
  let lines := flagLines p.groups ++ aliasLines p.aliases ++ "return" :: Step.linesOf 1 p.steps
  String.join (lines.map (· ++ "\n"))

/-- Where a path starts, spelled out. -/
def baseSummary (path : Path) : String :=
  match path.base with
  | .alias index => s!"Alias({index})"
  | .item slot => s!"Item({slot})"
  | _ => "Root"

/-- Texts with a comma and a space between neighbours. -/
def spaced (texts : List String) : String := ", ".intercalate texts

/-- A path as its start and its keys. -/
def accessSummary (path : Path) : String :=
  "Access \x7b base: " ++ baseSummary path ++ ", keys: [" ++
    spaced (path.keys.map Text.shown) ++ "] \x7d"

/-- What a plan relies on, on one line: its aliases and the numbers of its
group flags and loop slots. -/
def summary (p : Plan) : String :=
  "Program \x7b aliases: [" ++ spaced (p.aliases.map accessSummary) ++
    s!"], groups: {p.groups}, loops: {p.loops}, .. " ++ "\x7d"

end Plan

end JsonStencil
