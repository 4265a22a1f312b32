import NewtonScript.Emission.State

/-!
# Variables

A variable of the function itself is reached by its slot; all others are
looked up by name at run time.  Constants are replaced by their values.
-/

namespace NewtonScript.Emission

/-- What a name stands for.  Global constants count only for names that no
function around declares. -/
def resolve (name : Symbol) : EmitM Resolved := do
  let context ← read
  match context.scopes.resolve context.scope name with
  | .environment =>
      match (← get).store.constant? name with
      | some value => return .constant value
      | none => return .environment
  | found => return found

/-- The slot of a variable that was declared for this function. -/
def localSlot (name : Symbol) (span : Span) : EmitM Nat := do
  let context ← read
  match (context.scopes.get context.scope).slotOf? name with
  | some slot => return slot
  | none => throw ⟨.notLocal name, span⟩

/-- Push the variable in a slot. -/
def getVar (slot : Nat) : EmitM Unit := do
  op .getVar ((← read).layout.varIndex slot)

def setVar (slot : Nat) : EmitM Unit := do
  op .setVar ((← read).layout.varIndex slot)

def incrVar (slot : Nat) : EmitM Unit := do
  op .incrVar ((← read).layout.varIndex slot)

/-- Push what a name stands for. -/
def pushVariable (name : Symbol) : EmitM Unit := do
  match ← resolve name with
  | .slot slot => getVar slot
  | .constant value => pushValue value
  | .outer => op .findVar (← literalIndex (.symbol name))
  | .environment => op .findVar (← literalIndex (.symbol name))

/-- Refuse to assign to a constant. -/
def refuseConstant (name : Symbol) (span : Span) : EmitM Unit := do
  match ← resolve name with
  | .constant _ => throw ⟨.assignToConstant name, span⟩
  | _ => return

/-- Leave a copy of the value on top of the stack, if it is to be kept. -/
def duplicateIf (keep : Bool) : EmitM Unit := do
  if keep then
    simple .dup

/-- Pop a value into a variable; with `keep` a copy of it stays. -/
def storeVariable (name : Symbol) (keep : Bool) (span : Span) : EmitM Unit := do
  match ← resolve name with
  | .constant _ => throw ⟨.assignToConstant name, span⟩
  | .slot slot =>
      duplicateIf keep
      setVar slot
  | .outer =>
      duplicateIf keep
      op .findAndSetVar (← literalIndex (.symbol name))
  | .environment =>
      duplicateIf keep
      op .findAndSetVar (← literalIndex (.symbol name))

/-- Push whether a name stands for something.  Only names that no function
around declares have to be looked up. -/
def pushExists (name : Symbol) : EmitM Unit := do
  match ← resolve name with
  | .environment =>
      pushSymbol name
      callGlobal "HasVar" 1
  | _ => pushValue .truth

/-- Push the key of a path: one slot, or a path of several. -/
def pushPath : List Symbol → EmitM Unit
  | [slot] => pushSymbol slot
  | slots => do
      let className ← withStore (Store.intern "pathExpr")
      pushLiteral (← withStore (Store.makeArray className (slots.map Value.symbol)))

/-- What an assignment changes, once its parts are on the stack. -/
inductive Target where
  | variable (name : Symbol) (span : Span)
  | path
  | element

/-- Assign the value on top of the stack.  The result tells whether it stays
there. -/
def Target.store (discard : Bool) : Target → EmitM Bool
  | .variable name span => do
      storeVariable name (!discard) span
      return !discard
  | .path => do
      op .setPath (if discard then 0 else 1)
      return !discard
  | .element => do
      frequent .setAref
      return true

end NewtonScript.Emission
