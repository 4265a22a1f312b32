import NewtonScript.Token.Stream
import NewtonScript.Tree

/-!
# The state of a parser

A parser looks at one token, can look at the one behind it, and remembers
which tokens would have been accepted where it stands, for the message of a
syntax error.  A failed step keeps what was read: only a step that moves to
the next token forgets what was expected before it.
-/

namespace NewtonScript

/-- Where a parser stands. -/
structure Parser where
  tokens : TokenStream
  /-- The token looked at. -/
  current : Token := ⟨.eof, Span.none⟩
  /-- The token behind it, once it was looked at. -/
  lookahead : Option Token := none
  /-- The region of the token consumed last. -/
  previous : Span := Span.none
  /-- What would have been accepted here, in the order in which it was tried. -/
  expected : List Expectation := []
  started : Bool := false
  functions : Nat := 0
  /-- A bound on the number of tokens, and so on every repetition and on every
  nesting. -/
  bound : Nat

namespace Parser

/-- The parser in front of a whole text. -/
def ofString (text : String) (store : Store) : Parser :=
  let tokens := TokenStream.ofString text store
  { tokens, bound := tokens.cursor.rest.length + 3 }

/-- Parsing.  A failure keeps the state in which it arose. -/
abbrev ParseM := EStateM Failure Parser

/-- Ask the store. -/
def withStore {α : Type} (action : Store → α × Store) : ParseM α := fun parser =>
  let (result, store) := action parser.tokens.store
  .ok result { parser with tokens := { parser.tokens with store } }

/-- Read a token from the stream. -/
def readToken : ParseM Token := fun parser =>
  match TokenStream.next parser.tokens with
  | .ok token tokens => .ok token { parser with tokens }
  | .error failure tokens => .error failure { parser with tokens }

/-- The word looked at. -/
def currentLexeme : ParseM Lexeme :=
  return (← get).current.lexeme

/-- The region of the token looked at. -/
def currentSpan : ParseM Span :=
  return (← get).current.span

/-- The next token, be it looked at already or not. -/
def takeNext : ParseM Token := do
  match (← get).lookahead with
  | some token =>
      modify fun parser => { parser with lookahead := none }
      return token
  | none => readToken

/-- Consume the token looked at. -/
def advance : ParseM Token := do
  let next ← takeNext
  modifyGet fun parser =>
    (parser.current,
      { parser with current := next, previous := parser.current.span, expected := [] })

/-- The word behind the one looked at. -/
def peekLexeme : ParseM Lexeme := do
  let token ← takeNext
  modify fun parser => { parser with lookahead := some token }
  return token.lexeme

/-- Remember something that would have been accepted. -/
def expect (what : Expectation) : ParseM Unit :=
  modify fun parser =>
    if parser.expected.contains what then
      parser
    else
      { parser with expected := parser.expected ++ [what] }

/-- Whether the given word is looked at; if not, it was expected. -/
def check (lexeme : Lexeme) : ParseM Bool := do
  if (← currentLexeme) == lexeme then
    return true
  else
    expect (.word lexeme)
    return false

/-- Fail at the token looked at. -/
def unexpected {α : Type} : ParseM α := do
  let parser ← get
  throw ⟨.unexpected parser.current.lexeme parser.expected, parser.current.span⟩

/-- Fail at the token looked at, where something else was expected. -/
def unexpectedFor {α : Type} (what : Expectation) : ParseM α := do
  expect what
  unexpected

/-- Consume the given word if it is looked at. -/
def accept (lexeme : Lexeme) : ParseM Bool := do
  if ← check lexeme then
    let _ ← advance
    return true
  else
    return false

/-- Consume a word that has to be there. -/
def consume (lexeme : Lexeme) : ParseM Unit := do
  if ← check lexeme then
    let _ ← advance
  else
    unexpected

/-- Whether a name is next. -/
def atIdentifier : ParseM Bool := do
  match ← currentLexeme with
  | .identifier _ => return true
  | _ => return false

/-- Consume a name. -/
def identifier : ParseM Symbol := do
  match ← currentLexeme with
  | .identifier name =>
      let _ ← advance
      return name
  | _ => unexpectedFor .identifier

/-- The region from a span to the token consumed last. -/
def spanFrom (start : Span) : ParseM Span :=
  return start.join (← get).previous

/-- A node from a span to the token consumed last. -/
def node (expr : Expr) (start : Span) : ParseM Node :=
  return ⟨expr, ← spanFrom start⟩

/-- A number for a new function literal. -/
def newFunction : ParseM FuncId :=
  modifyGet fun parser => (parser.functions + 1, { parser with functions := parser.functions + 1 })

/-- The bound on repetitions. -/
def bounded {α : Type} (action : Nat → ParseM α) : ParseM α := do
  action (← get).bound

/-- One or more items with commas between them, of which some were found. -/
def commaItems {α : Type} (item : ParseM α) : Nat → List α → ParseM (List α)
  | 0, _ => unexpected
  | bound + 1, found => do
      let next ← item
      if ← accept (.punctuation .comma) then
        commaItems item bound (next :: found)
      else
        return (next :: found).reverse

/-- One or more items with commas between them. -/
def commaList {α : Type} (item : ParseM α) : ParseM (List α) :=
  bounded fun bound => commaItems item bound []

/-- Items with commas between them, up to the given closing mark; none when
the mark follows directly. -/
def listUntil {α : Type} (item : ParseM α) (close : Punctuation) : ParseM (List α) := do
  if ← accept (.punctuation close) then
    return []
  else
    let items ← commaList item
    consume (.punctuation close)
    return items

end Parser

end NewtonScript
