import NewtonScript.Emission
import NewtonScript.Scope.Capture
import NewtonScript.Tree.Parser

/-!
# Compiling programs

A program is compiled as a whole, or one command at a time.  Each tree is
compiled in three steps: its declarations, its references, its code.  The
constants of the top level become global constants once a tree was compiled
without failure.
-/

namespace NewtonScript

/-- A text that is being compiled, and the reports about it. -/
structure Compiler where
  parser : Parser
  options : Options
  bag : DiagnosticBag

namespace Compiler

/-- Compiling.  A failure keeps what was read, interned and reported. -/
abbrev CompileM := EStateM Failure Compiler

/-- A compiler in front of a text. -/
def ofString (text : String) (store : Store) (options : Options) : Compiler :=
  { parser := .ofString text store
    options
    bag := if options.warnings then .empty else .silent }

/-- The store with all that was interned and defined so far. -/
def store (compiler : Compiler) : Store :=
  compiler.parser.tokens.store

/-- Go on with another store and other reports. -/
def withStore (compiler : Compiler) (store : Store) (bag : DiagnosticBag) : Compiler :=
  { compiler with
    parser := { compiler.parser with tokens := { compiler.parser.tokens with store } }
    bag }

/-- Run the parser. -/
def parse {α : Type} (action : Parser.ParseM α) : CompileM α := fun compiler =>
  match action compiler.parser with
  | .ok result parser => .ok result { compiler with parser }
  | .error failure parser => .error failure { compiler with parser }

/-- Run a pass over a tree. -/
def step {α : Type} (action : Store → DiagnosticBag → Except Failure α × Store × DiagnosticBag) :
    CompileM α := fun compiler =>
  match action compiler.store compiler.bag with
  | (.ok result, store, bag) => .ok result (compiler.withStore store bag)
  | (.error failure, store, bag) => .error failure (compiler.withStore store bag)

/-- Define the constants of the top level as global ones. -/
def defineConstants (scopes : Scopes) (store : Store) : Store :=
  (scopes.get Scopes.root).constants.entries.foldl
    (fun store (name, value) => store.defineConstant name value) store

/-- Compile a tree: declare, resolve and emit. -/
def compileTree (tree : Node) : CompileM CodeBlock := do
  let options := (← get).options
  let declared ← step (Scopes.ofTree tree)
  let scopes ← step fun store bag => (declared.withReferences tree, store, bag)
  let block ← step (CodeBlock.ofTree tree scopes options)
  step fun store bag => (.ok (), defineConstants scopes store, bag)
  return block

/-- Compile the rest of the text as one block, or its first command only. -/
def compile : CompileM CodeBlock := do
  if (← get).options.firstOnly then
    match ← parse Parser.nextCommand with
    | some tree => compileTree tree
    | none => compileTree ⟨.begin [], Span.none⟩
  else
    compileTree (← parse Parser.program)

/-- Compile up to this many commands, each on its own.  The results come
latest first. -/
def compileCommands : Nat → Compiler → List (Except Failure CodeBlock) →
    List (Except Failure CodeBlock) × Compiler
  | 0, compiler, results => (results, compiler)
  | bound + 1, compiler, results =>
      match parse Parser.nextCommand compiler with
      | .ok none compiler => (results, compiler)
      | .ok (some tree) compiler =>
          match compileTree tree compiler with
          | .ok block compiler => compileCommands bound compiler (.ok block :: results)
          | .error failure compiler => compileCommands bound compiler (.error failure :: results)
      | .error failure compiler =>
          compileCommands bound { compiler with parser := compiler.parser.synchronize }
            (.error failure :: results)

/-- Compile each command of the rest of the text on its own, or the first one
only.  Behind a failure, compiling goes on with the next command. -/
def compileEach (compiler : Compiler) : List (Except Failure CodeBlock) × Compiler :=
  let bound := if compiler.options.firstOnly then 1 else compiler.parser.bound
  let (results, compiler) := compileCommands bound compiler []
  (results.reverse, compiler)

/-- Take the reports so far. -/
def takeReports (compiler : Compiler) : List Diagnostic × Compiler :=
  let (reports, bag) := compiler.bag.take
  (reports, { compiler with bag })

end Compiler

end NewtonScript
