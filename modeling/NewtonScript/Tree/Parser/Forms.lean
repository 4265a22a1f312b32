import NewtonScript.Tree.Parser.Operators
import NewtonScript.Tree.Parser.Quoted

/-!
# The forms of expressions

Every form is a parser that is given the parser of the expressions inside it.
The form that a keyword introduces is read from the keyword on.
-/

namespace NewtonScript

/-- Whether a word can start an expression. -/
def Lexeme.startsExpression : Lexeme → Bool
  | .literal _ => true
  | .identifier _ => true
  | .punctuation mark =>
      mark == .leftParen || mark == .leftBracket || mark == .leftBrace || mark == .quote
  | .operator op => op == .minus || op == .colon || op == .colonQuery
  | .keyword word =>
      [.kwNot, .kwSelf, .kwIf, .kwLoop, .kwWhile, .kwRepeat, .kwFor, .kwForeach, .kwTry, .kwBegin,
        .kwLocal, .kwConstant, .kwGlobal, .kwFunc, .kwBreak, .kwReturn, .kwCall,
        Keyword.kwInherited].contains word
  | .eof => false

namespace Parser

variable (expr : ParseM Node)

/-! ## Calls, paths and constructors -/

/-- Arguments in parentheses. -/
def arguments : ParseM (List Node) := do
  consume (.punctuation .leftParen)
  listUntil expr .rightParen

/-- An expression, if one starts here. -/
def optionalExpr : ParseM (Option Node) := do
  if (← currentLexeme).startsExpression then
    return some (← expr)
  else
    return none

/-- An expression behind a word, if the word is there. -/
def exprBehind (lexeme : Lexeme) : ParseM (Option Node) := do
  if ← accept lexeme then
    return some (← expr)
  else
    return none

/-- The key of a path behind its dot. -/
def pathKey : ParseM PathKey := do
  if ← accept (.punctuation .leftParen) then
    let key ← expr
    consume (.punctuation .rightParen)
    return .computed key
  else
    return .slot (← identifier)

/-- A message and its arguments. -/
def message : ParseM (Symbol × List Node) := do
  let name ← identifier
  return (name, ← arguments expr)

/-- Slot accesses, messages and element accesses behind an operand. -/
def accesses : Nat → Node → ParseM Node
  | 0, _ => unexpected
  | bound + 1, object => do
      match ← currentLexeme with
      | .operator .dot =>
          let _ ← advance
          let key ← pathKey expr
          accesses bound (← node (.path object key) object.span)
      | .operator .colon =>
          let _ ← advance
          let (name, args) ← message expr
          accesses bound (← node (.send (some object) name args false) object.span)
      | .operator .colonQuery =>
          let _ ← advance
          let (name, args) ← message expr
          accesses bound (← node (.send (some object) name args true) object.span)
      | .punctuation .leftBracket =>
          let _ ← advance
          let position ← expr
          consume (.punctuation .rightBracket)
          accesses bound (← node (.index object position) object.span)
      | _ => return object

/-- A name, or the call of a global function. -/
def nameOrCall (name : Symbol) (start : Span) : ParseM Node := do
  let _ ← advance
  match ← currentLexeme with
  | .punctuation .leftParen =>
      let args ← arguments expr
      node (.call name args) start
  | _ => return ⟨.name name, start⟩

/-- A message to the current receiver. -/
def implicitSend (ifDefined : Bool) (start : Span) : ParseM Node := do
  let _ ← advance
  let (name, args) ← message expr
  node (.send none name args ifDefined) start

/-- An expression between parentheses, which covers them. -/
def parenthesized (start : Span) : ParseM Node := do
  let _ ← advance
  let inner ← expr
  consume (.punctuation .rightParen)
  node inner.expr start

/-- An array in brackets, with or without a class. -/
def arrayConstructor (start : Span) : ParseM Node := do
  let _ ← advance
  let className ← className?
  let elements ← listUntil expr .rightBracket
  node (.makeArray className elements) start

/-- A frame in braces. -/
def frameConstructor (start : Span) : ParseM Node := do
  let _ ← advance
  let slot : ParseM Slot := do
    let name ← slotName
    return ⟨name, ← expr⟩
  let slots ← listUntil slot .rightBrace
  node (.makeFrame slots) start

/-! ## Sequences and conditionals -/

/-- Expressions with semicolons between them, up to one of the given words. -/
def sequenceItems (ends : Keyword) : Nat → List Node → ParseM (List Node)
  | 0, _ => unexpected
  | bound + 1, found => do
      if (← currentLexeme) == .keyword ends then
        return found.reverse
      else
        let item ← expr
        if ← accept (.punctuation .semicolon) then
          sequenceItems ends bound (item :: found)
        else
          return (item :: found).reverse

/-- A sequence that the given word ends. -/
def exprSequence (ends : Keyword) : ParseM Node := do
  let start ← currentSpan
  let items ← bounded fun bound => sequenceItems expr ends bound []
  let _ ← check (.keyword ends)
  node (.begin items) start

/-- The sequence between `begin` and `end`. -/
def beginForm (start : Span) : ParseM Node := do
  let _ ← advance
  let body ← exprSequence expr .kwEnd
  consume (.keyword .kwEnd)
  node body.expr start

/-- A choice. -/
def ifForm (start : Span) : ParseM Node := do
  let _ ← advance
  let cond ← expr
  consume (.keyword .kwThen)
  let thenBranch ← expr
  let elseBranch ← exprBehind expr (.keyword .kwElse)
  node (.ifThen cond thenBranch elseBranch) start

/-- The handlers of a `try`, of which there is at least one. -/
def handlers : Nat → List Handler → ParseM (List Handler)
  | 0, _ => unexpected
  | bound + 1, found => do
      let another ← check (.keyword .kwOnException)
      if another || found.isEmpty then
        consume (.keyword .kwOnException)
        let exception ← identifier
        let _ ← accept (.keyword .kwDo)
        let body ← expr
        handlers bound (⟨exception, body⟩ :: found)
      else
        return found.reverse

/-- A body and its handlers. -/
def tryForm (start : Span) : ParseM Node := do
  let _ ← advance
  let body ← exprSequence expr .kwOnException
  let found ← bounded fun bound => handlers expr bound []
  node (.tryCatch body found) start

/-! ## Loops -/

/-- A loop without a condition. -/
def loopForm (start : Span) : ParseM Node := do
  let _ ← advance
  let body ← expr
  node (.loop body) start

/-- A loop with a condition in front. -/
def whileForm (start : Span) : ParseM Node := do
  let _ ← advance
  let cond ← expr
  consume (.keyword .kwDo)
  let body ← expr
  node (.whileLoop cond body) start

/-- A loop with a condition behind. -/
def repeatForm (start : Span) : ParseM Node := do
  let _ ← advance
  let body ← exprSequence expr .kwUntil
  consume (.keyword .kwUntil)
  let cond ← expr
  node (.repeatLoop body cond) start

/-- A counting loop. -/
def forForm (start : Span) : ParseM Node := do
  let _ ← advance
  let var ← identifier
  consume (.operator .assign)
  let first ← expr
  consume (.keyword .kwTo)
  let limit ← expr
  let step ← exprBehind expr (.keyword .kwBy)
  consume (.keyword .kwDo)
  let body ← expr
  node (.forLoop var first limit step body) start

/-- A loop over a collection. -/
def foreachForm (start : Span) : ParseM Node := do
  let _ ← advance
  let first ← identifier
  let (key, value) ←
    if ← accept (.punctuation .comma) then
      pure (some first, ← identifier)
    else
      pure (none, first)
  let deeply ← accept (.keyword .kwDeeply)
  consume (.keyword .kwIn)
  let collection ← expr
  let collect ← accept (.keyword .kwCollect)
  if !collect then
    consume (.keyword .kwDo)
  let body ← expr
  node (.foreachLoop key value deeply collection collect body) start

/-! ## Declarations and functions -/

/-- A type in front of a name: one of two names in a row. -/
def annotation? : ParseM (Option Symbol) := do
  if ← atIdentifier then
    match ← peekLexeme with
    | .identifier _ => return some (← identifier)
    | _ => return none
  else
    return none

/-- One name of a declaration; a constant must have a value. -/
def binding (constant : Bool) : ParseM Binding := do
  let start ← currentSpan
  let type ← annotation?
  let name ← identifier
  let value ←
    if constant then
      consume (.operator .assign)
      pure (some (← expr))
    else
      exprBehind expr (.operator .assign)
  return ⟨name, type, value, ← spanFrom start⟩

/-- Declared variables or constants. -/
def declaration (constant : Bool) (start : Span) : ParseM Node := do
  let _ ← advance
  let bindings ← commaList (binding expr constant)
  node (if constant then .constantDecl bindings else .localDecl bindings) start

/-- A parameter. -/
def param : ParseM Param := do
  let start ← currentSpan
  let type ← annotation?
  let name ← identifier
  return ⟨name, type, ← spanFrom start⟩

/-- The parameters and the body of a function.  It gets its number when its
body was read. -/
def functionTail (native : Bool) (name : Option Symbol) (start : Span) : ParseM Node := do
  consume (.punctuation .leftParen)
  let params ← listUntil param .rightParen
  let body ← expr
  let id ← newFunction
  node (.func id params body native name) start

/-- A function literal. -/
def funcForm (start : Span) : ParseM Node := do
  let _ ← advance
  let native ← accept (.keyword .kwNative)
  functionTail expr native none start

/-- The form of `global`: a function when parameters follow the name, else a
variable. -/
def globalForm (start : Span) : ParseM Node := do
  let _ ← advance
  let name ← identifier
  if ← check (.punctuation .leftParen) then
    let function ← functionTail expr false (some name) (← currentSpan)
    node (.globalFunc name function) start
  else
    let value ← exprBehind expr (.operator .assign)
    node (.globalVar name value) start

/-- A break, with or without a result. -/
def breakForm (start : Span) : ParseM Node := do
  let _ ← advance
  let value ← optionalExpr expr
  node (.breakLoop value) start

/-- A return, with or without a result. -/
def returnForm (start : Span) : ParseM Node := do
  let _ ← advance
  let value ← optionalExpr expr
  node (.returnValue value) start

/-- A call of a function that is computed. -/
def callForm (start : Span) : ParseM Node := do
  let _ ← advance
  let function ← expr
  consume (.keyword .kwWith)
  let args ← arguments expr
  node (.invoke function args) start

/-- A message that is sent on. -/
def inheritedForm (start : Span) : ParseM Node := do
  let _ ← advance
  let ifDefined ← accept (.operator .colonQuery)
  if !ifDefined then
    consume (.operator .colon)
  let (name, args) ← message expr
  node (.resend name args ifDefined) start

/-! ## Operands -/

/-- The form that a reserved word introduces. -/
def keywordForm (word : Keyword) (start : Span) : ParseM Node :=
  match word with
  | .kwSelf => do
      let _ ← advance
      return ⟨.selfRef, start⟩
  | .kwIf => ifForm expr start
  | .kwWhile => whileForm expr start
  | .kwRepeat => repeatForm expr start
  | .kwFor => forForm expr start
  | .kwForeach => foreachForm expr start
  | .kwTry => tryForm expr start
  | .kwGlobal => globalForm expr start
  | .kwFunc => funcForm expr start
  | .kwLoop => loopForm expr start
  | .kwBegin => beginForm expr start
  | .kwLocal => declaration expr false start
  | .kwConstant => declaration expr true start
  | .kwBreak => breakForm expr start
  | .kwReturn => returnForm expr start
  | .kwCall => callForm expr start
  | .kwInherited => inheritedForm expr start
  | _ => unexpectedFor .expression

/-- An operand without the accesses behind it. -/
def primary : ParseM Node := do
  let start ← currentSpan
  match ← currentLexeme with
  | .literal literal =>
      checkRange literal
      let _ ← advance
      return ⟨.literal (← literalValue literal), start⟩
  | .identifier name => nameOrCall expr name start
  | .keyword word => keywordForm expr word start
  | .punctuation .leftParen => parenthesized expr start
  | .punctuation .leftBracket => arrayConstructor expr start
  | .punctuation .leftBrace => frameConstructor expr start
  | .punctuation .quote =>
      let _ ← advance
      let value ← bounded quoted
      node (.literal value) start
  | .operator .colon => implicitSend expr false start
  | .operator .colonQuery => implicitSend expr true start
  | _ => unexpectedFor .expression

/-- An operand with the accesses behind it. -/
def operand : ParseM Node := do
  let object ← primary expr
  bounded fun bound => accesses expr bound object

end Parser

end NewtonScript
