import NewtonScript.CommandLine

/-!
# The program

Reads the arguments, the environment and at most one file, and prints what the
run answers.
-/

namespace NewtonScript.CommandLine

/-- The text of a file, if it can be read. -/
def readText? (path : String) : IO (Option String) := do
  try
    return some (← IO.FS.readFile path)
  catch _ =>
    return none

/-- The text of the file that a request names, if it can be read. -/
def readFileOf : Request → IO (Option String)
  | .compile { source := .file path, .. } => readText? path
  | _ => return none

/-- Run the program.  The result is its exit code. -/
def run (arguments : List String) : IO UInt32 := do
  let compat ← IO.getEnv compatVariable
  let debugNames ← IO.getEnv debugNamesVariable
  let environment (name : String) : Option String :=
    if name == compatVariable then compat
    else if name == debugNamesVariable then debugNames
    else none
  let outcome ←
    match request? arguments environment with
    | none => pure misused
    | some request =>
        let text ← readFileOf request
        pure (answer (fun _ => text) request)
  IO.print outcome.output
  for report in outcome.reports do
    IO.eprintln report
  return outcome.status

end NewtonScript.CommandLine

def main (arguments : List String) : IO UInt32 :=
  NewtonScript.CommandLine.run arguments
