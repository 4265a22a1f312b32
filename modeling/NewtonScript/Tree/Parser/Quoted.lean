import NewtonScript.Tree.Parser.State

/-!
# Literals and quoted objects

Behind a quote stands an object that is built while the program is read:
names, numbers, strings, arrays and frames of such objects.  Reserved words
are names there.
-/

namespace NewtonScript.Parser

/-- Integers may exceed the largest one only behind a minus. -/
def checkRange (literal : Literal) : ParseM Unit := do
  match literal with
  | .integer n =>
      if 536870911 < n then
        throw ⟨.integerOutOfRange (toString n), ← currentSpan⟩
  | _ => return

/-- The value of a literal. -/
def literalValue : Literal → ParseM Value
  | .integer n => return .int n
  | .real x => return .real x
  | .char unit => return .char unit
  | .string text => withStore (Store.makeString text)
  | .magic n => return .magic n
  | .nil => return .nil
  | .truth => return .truth

/-- The class of an array: a name and a colon in front of its elements. -/
def className? : ParseM (Option Symbol) := do
  if ← atIdentifier then
    match ← peekLexeme with
    | .operator .colon =>
        let name ← identifier
        let _ ← advance
        return some name
    | _ => return none
  else
    return none

/-- The name of a slot, with the colon behind it. -/
def slotName : ParseM Symbol := do
  let name ← identifier
  consume (.operator .colon)
  return name

/-- A number behind a minus sign. -/
def negativeNumber : ParseM Value := do
  match ← currentLexeme with
  | .literal (.integer n) =>
      let _ ← advance
      return .int (-n)
  | .literal (.real x) =>
      let _ ← advance
      return .real x.neg
  | _ => unexpectedFor .number

/-- The elements and the class of a quoted array behind its bracket. -/
def quotedArray (object : ParseM Value) : ParseM Value := do
  let className ← className?
  let elements ← listUntil object .rightBracket
  let className ←
    match className with
    | some name => pure name
    | none => withStore (Store.intern "array")
  withStore (Store.makeArray className elements)

/-- The slots of a quoted frame behind its brace. -/
def quotedFrame (object : ParseM Value) : ParseM Value := do
  let slot : ParseM (Symbol × Value) := do
    let name ← slotName
    return (name, ← object)
  let slots ← listUntil slot .rightBrace
  withStore (Store.makeFrame (slots.map Prod.fst) (slots.map Prod.snd))

/-- The object behind a quote, nested at most this deep. -/
def quoted : Nat → ParseM Value
  | 0 => unexpectedFor .literal
  | depth + 1 => do
      match ← currentLexeme with
      | .identifier name =>
          let _ ← advance
          return .symbol name
      | .keyword word =>
          let _ ← advance
          return .symbol (← withStore (Store.intern word.text))
      | .literal literal =>
          checkRange literal
          let _ ← advance
          literalValue literal
      | .punctuation .quote =>
          let _ ← advance
          quoted depth
      | .operator .minus =>
          let _ ← advance
          negativeNumber
      | .punctuation .leftBracket =>
          let _ ← advance
          quotedArray (quoted depth)
      | .punctuation .leftBrace =>
          let _ ← advance
          quotedFrame (quoted depth)
      | _ => unexpectedFor .literal

end NewtonScript.Parser
