import NewtonScript.Bytecode.Frequent
import NewtonScript.Bytecode.Immediate
import NewtonScript.Bytecode.LiteralPool
import NewtonScript.Diagnostic.Bag
import NewtonScript.Scope.FrameLayout
import NewtonScript.Store

/-!
# Emitting instructions

While the code of a function is emitted, its instructions, its literals and
its open loops are collected.  What is fixed for the whole function, such as
its scope and its layout, is read from a context.
-/

namespace NewtonScript.Emission

open Bytecode

/-- What is fixed while one function is emitted. -/
structure Context where
  scopes : Scopes
  options : Options
  scope : ScopeId
  span : Span
  layout : FrameLayout

/-- The context of the function with a scope. -/
def Context.ofScope (scopes : Scopes) (options : Options) (id : ScopeId) : Context :=
  let scope := scopes.get id
  { scopes, options, scope := id, span := scope.span, layout := .ofScope scope options.compat }

/-- The code of a function so far, its literals, and for each open loop, the
innermost first, the branches that leave it. -/
structure FunctionCode where
  code : Buffer := .empty
  literals : LiteralPool := .empty
  loops : List (List Label) := []
deriving Inhabited

/-- The function being emitted, the store and the reports. -/
structure State where
  function : FunctionCode := {}
  store : Store
  bag : DiagnosticBag

/-- Emission into a function. -/
abbrev EmitM := ReaderT Context (EStateM Failure State)

/-- Change the function that is emitted. -/
def modifyFunction (change : FunctionCode → FunctionCode) : EmitM Unit :=
  modify fun state => { state with function := change state.function }

/-- Ask the store. -/
def withStore {α : Type} (action : Store → α × Store) : EmitM α :=
  modifyGet fun state =>
    let (result, store) := action state.store
    (result, { state with store })

def report (diagnostic : Diagnostic) : EmitM Unit :=
  modify fun state => { state with bag := state.bag.report diagnostic }

/-! ## Instructions -/

/-- An operand as 16 bits; the function is too large for others. -/
def operand16 (op : Opcode) (operand : Nat) : EmitM UInt16 := do
  match Buffer.operand16 op operand with
  | .ok operand => return operand
  | .error problem => throw ⟨.operandTooLarge problem, (← read).span⟩

/-- Add an instruction. -/
def push (instruction : Instruction) : EmitM Unit :=
  modifyFunction fun function => { function with code := function.code.push instruction }

/-- Emit an operation in the shortest form that holds its operand. -/
def op (op : Opcode) (operand : Nat) : EmitM Unit := do
  push (.shortest op (← operand16 op operand))

/-- Add a simple operation. -/
def simple (op : SimpleOp) : EmitM Unit :=
  push (.ofSimple op)

/-- The position of the next instruction. -/
def here : EmitM Nat :=
  return (← get).function.code.size

/-- Reserve an operation whose operand is not known yet. -/
def reserve (op : Opcode) : EmitM Label := do
  let label := (← get).function.code.nextLabel
  push (Buffer.reserved op)
  return label

/-- Give a reserved operation its operand. -/
def patch (label : Label) (operand : Nat) : EmitM Unit := do
  let reserved := (← get).function.code.opAt label
  let operand ← operand16 reserved operand
  modifyFunction fun function => { function with code := function.code.setOperand label operand }

/-- Let a reserved branch lead to the next instruction. -/
def patchHere (label : Label) : EmitM Unit := do
  patch label (← here)

/-- Let reserved branches lead to the next instruction. -/
def patchAllHere : List Label → EmitM Unit
  | [] => return
  | label :: rest => do
      patchHere label
      patchAllHere rest

/-- The largest address of a handler: addresses are pushed as immediate
integers. -/
def maxHandlerAddress : Nat := 8191

/-- Let a reserved push give the address of the next instruction. -/
def patchAddressHere (label : Label) : EmitM Unit := do
  let address ← here
  if address ≤ maxHandlerAddress then
    patch label (Immediate.ofInt address).toNat
  else
    throw ⟨.handlerOutOfReach address, (← read).span⟩

/-! ## Values -/

/-- The number of a literal, a new one if needed. -/
def literalIndex (value : Value) : EmitM Nat :=
  modifyGet fun state =>
    let (index, literals) := state.function.literals.add value
    (index, { state with function := { state.function with literals } })

/-- Push a literal from the pool. -/
def pushLiteral (value : Value) : EmitM Unit := do
  op .push (← literalIndex value)

/-- Push a value, as an immediate if it is one. -/
def pushValue (value : Value) : EmitM Unit :=
  match Immediate.ofValue? value with
  | some operand => op .pushConstant operand.toNat
  | none => pushLiteral value

def pushNil : EmitM Unit :=
  pushValue .nil

def pushInt (n : Int) : EmitM Unit :=
  pushValue (.int n)

def pushSymbol (name : Symbol) : EmitM Unit :=
  pushLiteral (.symbol name)

/-- Push the symbol with a spelling. -/
def pushSpelling (spelling : String) : EmitM Unit := do
  pushSymbol (← withStore (Store.intern spelling))

/-- Call a frequent function. -/
def frequent (function : Frequent) : EmitM Unit :=
  op .freqFunc function.index

/-- Call a global function by its name. -/
def callGlobal (spelling : String) (count : Nat) : EmitM Unit := do
  pushSpelling spelling
  op .call count

end NewtonScript.Emission
