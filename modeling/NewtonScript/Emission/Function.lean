import NewtonScript.Emission.State

/-!
# Sealing functions

A function is emitted with code, literals and loops of its own; those of the
function around it are put back afterwards, whether it succeeds or fails.
What was emitted is then sealed into a code block.
-/

namespace NewtonScript.Emission

/-- The largest number of bytes of a function. -/
def maxCodeSize : Nat := 0xFFFF

/-- Intern the names of a frame's own slots. -/
def internAll : List String → EmitM (List Symbol)
  | [] => return []
  | spelling :: rest => do
      let name ← withStore (Store.intern spelling)
      return name :: (← internAll rest)

/-- The frame template of a function: a shared map and `nil` in every slot. -/
def frameTemplate (scope : Scope) : EmitM Value := do
  let slots := (← internAll frameHeader) ++ scope.names
  let map ← withStore (Store.sharedMap slots)
  withStore (Store.makeFrameOver map (slots.map fun _ => .nil))

/-- The frame template of a function that needs one. -/
def frameTemplate? (scope : Scope) : EmitM (Option Value) := do
  if (← read).layout.hasFrame then
    return some (← frameTemplate scope)
  else
    return none

/-- Seal the code of a function. -/
def sealCode (function : FunctionCode) : EmitM CodeBlock := do
  let context ← read
  let scope := context.scopes.get context.scope
  if maxCodeSize < function.code.size then
    throw ⟨.bodyTooLong function.code.size, context.span⟩
  let argFrame ← frameTemplate? scope
  let debug : Option DebugNames :=
    if context.options.debugNames then
      some { name := scope.name, args := scope.args, locals := scope.locals }
    else
      none
  return {
    code := function.code.bytes
    literals := function.literals.toLiterals?
    numArgs := context.layout.numArgs
    argFrame
    debug
    compat := context.options.compat }

/-- Emit a function of its own: its body, then `return`. -/
def isolated (body : EmitM Unit) : EmitM FunctionCode := fun context state =>
  let outer := state.function
  match (do body; simple .ret : EmitM Unit) context { state with function := {} } with
  | .ok _ inner => .ok inner.function { inner with function := outer }
  | .error failure inner => .error failure { inner with function := outer }

/-- The code block of the function with a scope. -/
def functionBlock (id : ScopeId) (body : EmitM Unit) : EmitM CodeBlock :=
  withReader (fun context => Context.ofScope context.scopes context.options id) do
    sealCode (← isolated body)

/-- Push the code block of a function literal, with the variables around it
when it needs them.  A function that is thrown away is emitted and forgotten. -/
def functionLiteral (id : FuncId) (span : Span) (body : EmitM Unit) (discard : Bool) :
    EmitM Bool := do
  match (← read).scopes.scopeOf? id with
  | none => throw ⟨.undeclaredFunction, span⟩
  | some inner =>
      let block ← functionBlock inner body
      if discard then
        return false
      else
        pushLiteral (← withStore (Store.makeBlock block))
        if block.argFrame.isSome then
          simple .setLexScope
        return true

end NewtonScript.Emission
