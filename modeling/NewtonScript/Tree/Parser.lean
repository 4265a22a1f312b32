import NewtonScript.Tree.Parser.Forms

/-!
# Reading programs

A program is a row of commands with semicolons between them.  Commands are
read one at a time; behind a failure, reading can go on behind the next
semicolon.
-/

namespace NewtonScript.Parser

/-- An expression, nested at most this deep. -/
def expression : Nat → ParseM Node
  | 0 => unexpectedFor .expression
  | depth + 1 => bounded fun bound => operations (operand (expression depth)) bound {}

/-- Read the first token, once. -/
def prime : ParseM Unit := do
  if !(← get).started then
    let token ← readToken
    modify fun parser => { parser with current := token, started := true }

/-- Skip semicolons before a command. -/
def skipSemicolons : Nat → ParseM Unit
  | 0 => unexpected
  | bound + 1 => do
      if ← accept (.punctuation .semicolon) then
        skipSemicolons bound

/-- The next command, or nothing at the end of the text. -/
def nextCommand : ParseM (Option Node) := do
  prime
  bounded skipSemicolons
  match ← currentLexeme with
  | .eof => return none
  | _ =>
      let command ← bounded expression
      if ← accept (.punctuation .semicolon) then
        return some command
      else if ← check .eof then
        return some command
      else
        unexpected

/-- The commands up to the end of the text, of which some were found. -/
def commands : Nat → List Node → ParseM (List Node)
  | 0, _ => unexpected
  | bound + 1, found => do
      match ← nextCommand with
      | some command => commands bound (command :: found)
      | none => return found.reverse

/-- All commands as one sequence. -/
def program : ParseM Node := do
  prime
  let start ← currentSpan
  let found ← bounded fun bound => commands bound []
  if found.isEmpty then
    return ⟨.begin [], start⟩
  else
    node (.begin found) start

/-- The state in which an action leaves the parser, failed or not. -/
def after {α : Type} (action : ParseM α) (parser : Parser) : Parser :=
  match action parser with
  | .ok _ parser => parser
  | .error _ parser => parser

/-- Take up to this many steps towards the place behind the next semicolon. -/
def synchronizeWithin : Nat → Parser → Parser
  | 0, parser => parser
  | bound + 1, parser =>
      if parser.started then
        match parser.current.lexeme with
        | .eof => parser
        | .punctuation .semicolon => after advance parser
        | _ => synchronizeWithin bound (after advance parser)
      else
        synchronizeWithin bound (after prime parser)

/-- Go on behind the next semicolon, or at the end of the text.  Every step
reads on, failed ones included. -/
def synchronize (parser : Parser) : Parser :=
  synchronizeWithin parser.bound parser

end NewtonScript.Parser
