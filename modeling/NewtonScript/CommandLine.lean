import NewtonScript.Bytecode.Listing
import NewtonScript.CommandLine.Arguments
import NewtonScript.Compiler

/-!
# Runs of the program

A run compiles one source and prints the listings of what succeeds.  What it
prints and its exit status depend on nothing but its arguments, its
environment and the text of the source: 0 when everything succeeds, 1 when a
command fails or the source cannot be read, 2 when the arguments are not
understood.
-/

namespace NewtonScript.CommandLine

/-- What a run prints, what it reports, and its exit status. -/
structure Outcome where
  output : String
  reports : List String
  status : UInt32
deriving DecidableEq, Repr

/-- The outcome when the arguments are not understood. -/
def misused : Outcome := ⟨"", ["usage error; see --help"], 2⟩

/-- The outcome when the file cannot be read. -/
def unreadable (path : String) : Outcome := ⟨"", ["cannot read " ++ path], 1⟩

/-- What is written for the version. -/
def versionText : String := "newtc 0.1.0\n"

/-- The arguments that are understood. -/
def helpText : String :=
  "Usage: newtc [OPTIONS] [INPUT_FILE]\n\n" ++
    "  -e, --eval <SOURCE>    Compile this source text instead of a file\n" ++
    "      --compat <COMPAT>  Layout of the code blocks: native, newton20\n" ++
    "      --debug-names      Attach names to every code block\n" ++
    "      --first-only       Only compile the first top-level command\n" ++
    "      --each             Compile every top-level command separately\n" ++
    "      --no-warnings      Do not report warnings\n" ++
    "  -h, --help             Print help\n" ++
    "  -V, --version          Print version\n"

/-- How reports name a source. -/
def Source.name : Source → String
  | .file path => path
  | .text _ => "<eval>"

/-- The listing of a result; nothing for a failure. -/
def resultText (each : Bool) (number : Nat) : Except Failure CodeBlock → String
  | .ok block =>
      let title := if each then ";; command " ++ toString number ++ "\n" else ""
      match block.listing with
      | .ok listing => title ++ listing
      | .error _ => title
  | .error _ => ""

/-- The listings of results, numbered from the given number on. -/
def resultTexts (each : Bool) : Nat → List (Except Failure CodeBlock) → String
  | _, [] => ""
  | number, result :: rest => resultText each number result ++ resultTexts each (number + 1) rest

/-- Whether a command was refused. -/
def isFailure : Except Failure CodeBlock → Bool
  | .ok _ => false
  | .error _ => true

/-- The line of a report. -/
def reportLine (file : String) (diagnostic : Diagnostic) : String :=
  file ++ ":" ++ toString diagnostic.span.line ++ ": " ++ diagnostic.level.text ++ " " ++
    toString diagnostic.code.number ++ ": " ++ diagnostic.message

/-- Add the failures among results to a bag. -/
def reportFailures (file : String) (results : List (Except Failure CodeBlock))
    (bag : DiagnosticBag) : DiagnosticBag :=
  results.foldl
    (fun bag result =>
      match result with
      | .ok _ => bag
      | .error failure => bag.reportError (failure.inFile file))
    bag

/-- Compile what an invocation asks for. -/
def results (invocation : Invocation) (compiler : Compiler) :
    List (Except Failure CodeBlock) × Compiler :=
  if invocation.each then
    compiler.compileEach
  else
    match Compiler.compile compiler with
    | .ok block compiler => ([.ok block], compiler)
    | .error failure compiler => ([.error failure], compiler)

/-- Compile the text of an invocation's source. -/
def Invocation.run (invocation : Invocation) (text : String) : Outcome :=
  let file := invocation.source.name
  let (results, compiler) := results invocation (.ofString text .empty invocation.options)
  let reports := (reportFailures file results compiler.bag).toList.map (reportLine file)
  if results.any isFailure then
    ⟨resultTexts invocation.each 1 results, reports ++ ["Compilation failed."], 1⟩
  else
    ⟨resultTexts invocation.each 1 results, reports, 0⟩

/-- Answer a request, with the texts of the files that can be read. -/
def answer (files : String → Option String) : Request → Outcome
  | .help => ⟨helpText, [], 0⟩
  | .version => ⟨versionText, [], 0⟩
  | .compile invocation =>
      match invocation.source with
      | .text text => invocation.run text
      | .file path =>
          match files path with
          | some text => invocation.run text
          | none => unreadable path

end NewtonScript.CommandLine
