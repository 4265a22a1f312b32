import NewtonScript.Emission.State

/-!
# Branching

The code around the parts of conditionals, of logical operators and of
exception handlers.  The parts come as actions that emit them.
-/

namespace NewtonScript.Emission

open Bytecode (Label Opcode)

/-- The warning about a value that is thrown away, if there is one. -/
def unusedWarning? (node : Node) : Option Diagnostic :=
  match node.expr with
  | .binary .equal _ _ => some (.standaloneEquals node.span)
  | .literal _ => none
  | .name _ => none
  | .selfRef => none
  | .func .. => none
  | _ => if node.isPure then some (.unusedValue node.span) else none

/-- Emit a node for its value. -/
def value (emitted : Bool → EmitM Bool) : EmitM Unit := do
  let _ ← emitted false

/-- Emit a node for its effect: warn about it, and pop what it leaves. -/
def effect (node : Node) (emitted : Bool → EmitM Bool) : EmitM Unit := do
  match unusedWarning? node with
  | some warning => report warning
  | none => pure ()
  if ← emitted true then
    simple .pop

/-- Emit a node for its effect or for its value. -/
def arm (node : Node) (discard : Bool) (emitted : Bool → EmitM Bool) : EmitM Unit :=
  if discard then effect node emitted else value emitted

/-- The branch that leaves out the second operand. -/
def skipOf : LogicalOp → Opcode
  | .conjunction => .branchIfFalse
  | .disjunction => .branchIfTrue

/-- The value when the second operand is left out. -/
def shortValue : LogicalOp → Value
  | .conjunction => .nil
  | .disjunction => .truth

/-- The code of a logical operator. -/
def logical (op : LogicalOp) (lhs : EmitM Unit) (rhs : Bool → EmitM Unit) (discard : Bool) :
    EmitM Bool := do
  lhs
  let short ← reserve (skipOf op)
  rhs discard
  if discard then
    patchHere short
    return false
  else
    let done ← reserve .branch
    patchHere short
    pushValue (shortValue op)
    patchHere done
    return true

/-- The code of a conditional with two branches. -/
def ifThenElse (cond thenBranch elseBranch : EmitM Unit) : EmitM Unit := do
  cond
  let toElse ← reserve .branchIfFalse
  thenBranch
  let toEnd ← reserve .branch
  patchHere toElse
  elseBranch
  patchHere toEnd

/-- The code of a conditional with one branch, for its effect. -/
def ifThen (cond thenBranch : EmitM Unit) : EmitM Unit := do
  cond
  let toEnd ← reserve .branchIfFalse
  thenBranch
  patchHere toEnd

/-- Push the exception names and the addresses of handlers, which are not
known yet. -/
def handlerTable : List Handler → EmitM (List Label)
  | [] => return []
  | handler :: rest => do
      pushSymbol handler.exception
      let address ← reserve .pushConstant
      return address :: (← handlerTable rest)

/-- The code of a body with handlers: the table, the body, and behind it the
handlers, which give back the branches to their common end. -/
def tryCatch (handlers : List Handler) (body : EmitM Unit)
    (emitted : List Label → EmitM (List Label)) : EmitM Unit := do
  let addresses ← handlerTable handlers
  op .newHandlers handlers.length
  body
  simple .popHandlers
  let toContinuation ← reserve .branch
  patchAllHere (← emitted addresses)
  simple .popHandlers
  patchHere toContinuation

end NewtonScript.Emission
