import JsonStencil.CommandLine.Run

/-!
# The program

Runs the request that the words of the command line spell on the files of
the machine. It ends with 2 if they spell none.

Main definitions:

* `machine` — the files of the machine.
* `main` — the program.
-/

namespace JsonStencil

/-- The number of a failure. Some operations give it with the sign
reversed, in 32 bits. -/
def failureNumber (code : UInt32) : Nat :=
  if code.toNat < 2147483648 then code.toNat else 4294967296 - code.toNat

/-- Why an operation of the machine failed. -/
def failureOf : IO.Error → Files.Failure
  | .alreadyExists _ code reason | .noFileOrDirectory _ code reason
  | .inappropriateType _ code reason | .invalidArgument _ code reason
  | .permissionDenied _ code reason | .resourceExhausted _ code reason
  | .noSuchThing _ code reason | .interrupted _ code reason
  | .otherError code reason | .resourceBusy code reason | .resourceVanished code reason
  | .hardwareFault code reason | .illegalOperation code reason
  | .protocolError code reason | .timeExpired code reason
  | .unsatisfiedConstraints code reason | .unsupportedOperation code reason =>
    .ofCode reason (failureNumber code)
  | other => .other (toString other) 0

/-- The result of an operation, with the failure that it may have ended in. -/
def attempted {α : Type} (operation : IO α) : IO (Except Files.Failure α) := do
  match ← operation.toBaseIO with
  | .ok result => return .ok result
  | .error e => return .error (failureOf e)

/-- The files of the machine. -/
def machine : Files.Access IO where
  read path := attempted do return (← IO.FS.readBinFile path).data.toList
  kind? path := do
    if path.isEmpty then return none
    match ← attempted { (← IO.currentDir) with toString := path }.metadata with
    | .ok data => return some (if data.type == .dir then .directory else .file)
    | .error _ => return none
  names path := attempted do
    let entries ← { (← IO.currentDir) with toString := path }.readDir
    return Files.ascending (entries.toList.map (·.fileName))
  makeDirectory path := attempted (IO.FS.createDir path)
  write path text := attempted (IO.FS.writeFile path text)

/-- How the program is called. -/
def usage : String :=
  "usage: plan -s SCHEMA [-o FILE]\n"
    ++ "       encode -s SCHEMA -i INPUT... [--ndjson] [--json-pointer POINTER]\n"
    ++ "              [--trusted-strings] [--check] [-o FILE]\n"

end JsonStencil

open JsonStencil

/-- Runs the request that the words of the command line spell. -/
def main (words : List String) : IO UInt32 := do
  match CommandLine.Request.ofWords? words with
  | none =>
    IO.eprint usage
    return 2
  | some request =>
    let color := CommandLine.wantsColor (← IO.getEnv "CLICOLOR_FORCE")
      (← IO.getEnv "NO_COLOR") (← IO.getEnv "CLICOLOR") (← (← IO.getStdout).isTty)
    let outcome ← CommandLine.run machine color request
    IO.eprint outcome.diagnostics
    IO.print outcome.output
    return outcome.exitCode.toUInt32
