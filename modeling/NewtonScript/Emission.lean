import NewtonScript.Emission.Branching
import NewtonScript.Emission.Function
import NewtonScript.Emission.Loop
import NewtonScript.Scope.Declaration

/-!
# Code of expressions

Code for a tree is emitted from left to right.  A node is emitted for its
value, which it leaves on the stack, or for its effect; for its effect it may
still leave a value, and says so.
-/

namespace NewtonScript

namespace Emission

open Bytecode (Frequent Label)

/-- How an operator between two operands is carried out. -/
inductive Operation where
  | frequent (function : Frequent)
  | library (name : String)

/-- How an operator is carried out.  Joining texts is no operation of two
operands. -/
def operationOf? : BinaryOp → Option Operation
  | .add => some (.frequent .add)
  | .sub => some (.frequent .subtract)
  | .mul => some (.frequent .multiply)
  | .div => some (.frequent .divide)
  | .intDiv => some (.frequent .intDivide)
  | .mod => some (.library "Mod")
  | .shiftLeft => some (.library "ShiftLeft")
  | .shiftRight => some (.library "ShiftRight")
  | .equal => some (.frequent .equals)
  | .notEqual => some (.frequent .notEquals)
  | .less => some (.frequent .less)
  | .greater => some (.frequent .greater)
  | .lessEqual => some (.frequent .lessEqual)
  | .greaterEqual => some (.frequent .greaterEqual)
  | .concat => none
  | .concatSpace => none

/-- Carry out an operator whose operands are on the stack. -/
def Operation.emit : Operation → EmitM Unit
  | .frequent function => Emission.frequent function
  | .library name => callGlobal name 2

/-- The value of a negated node, if it is a number or the negation of one. -/
def foldedNegation? : Node → Option Value
  | ⟨.literal value, _⟩ => negateConstant? value
  | ⟨.unary .negate operand, _⟩ => (foldedNegation? operand).bind negateConstant?
  | _ => none

/-- Push the space that an operator puts between texts.  The result is the
number of texts pushed. -/
def separator (op : BinaryOp) (space : Value) : EmitM Nat := do
  match op with
  | .concatSpace =>
      pushLiteral space
      return 1
  | _ => return 0

/-- Join the texts on top of the stack. -/
def joinTexts (count : Nat) : EmitM Unit := do
  pushSpelling "array"
  op .makeArray count
  frequent .stringer

/-- Call a function by its name, with its arguments on the stack. -/
def callNamed (name : Symbol) (count : Nat) : EmitM Unit :=
  match Frequent.ofCall? name.spelling count with
  | some function => frequent function
  | none => do
      pushSymbol name
      op .call count

/-- Whether a declared name has an initializer. -/
def isInitialized (binding : Binding) : Bool :=
  binding.value.isSome

mutual

/-- Emit a node for its value or, with `discard`, for its effect.  The result
tells whether a value was left on the stack. -/
def emit : Node → Bool → EmitM Bool
  | ⟨expr, span⟩, discard => emitExpr expr span discard

/-- Emit an expression.  The result tells whether it leaves a value. -/
def emitExpr : Expr → Span → Bool → EmitM Bool
  | .literal literal, _, discard => do
      if discard then
        return false
      else
        pushValue literal
        return true
  | .name name, _, discard => do
      if discard then
        return false
      else
        pushVariable name
        return true
  | .selfRef, _, discard => do
      if discard then
        return false
      else
        simple .pushSelf
        return true
  | .begin items, _, discard => emitItems items discard
  | .unary .negate operand, _, _ => do
      match foldedNegation? operand with
      | some folded => pushValue folded
      | none =>
          pushInt 0
          value (emit operand)
          frequent .subtract
      return true
  | .unary .complement operand, _, _ => do
      value (emit operand)
      frequent .complement
      return true
  | .binary op lhs rhs, _, _ => do
      match operationOf? op with
      | some operation =>
          value (emit lhs)
          value (emit rhs)
          operation.emit
      | none =>
          let space ← withStore (Store.makeString " ")
          let before ← emitTexts lhs space
          let between ← separator op space
          let behind ← emitTexts rhs space
          joinTexts (before + between + behind)
      return true
  | .logical op lhs rhs, _, discard =>
      logical op (value (emit lhs)) (fun discard => arm rhs discard (emit rhs)) discard
  | .existsTest operand, span, _ => do
      emitExists operand span
      return true
  | .path object (.slot name), _, _ => do
      emitBase object [name]
      op .getPath 1
      return true
  | .path object (.computed key), _, _ => do
      value (emit object)
      value (emit key)
      op .getPath 1
      return true
  | .index object position, _, _ => do
      value (emit object)
      value (emit position)
      frequent .aref
      return true
  | .assign target assigned, _, discard => do
      let target ← emitTarget target
      value (emit assigned)
      target.store discard
  | .localDecl bindings, _, discard => do
      emitBindings bindings (!discard)
      if !discard && !bindings.any isInitialized then
        pushNil
      return !discard
  | .constantDecl _, _, discard => do
      if discard then
        return false
      else
        pushNil
        return true
  | .globalVar name (some initial), _, _ => do
      pushSymbol name
      value (emit initial)
      callGlobal "DefGlobalVar" 2
      return true
  | .globalVar name none, _, _ => do
      pushSymbol name
      pushNil
      callGlobal "DefGlobalVar" 2
      return true
  | .globalFunc name function, _, _ => do
      pushSymbol name
      value (emit function)
      callGlobal "DefGlobalFn" 2
      return true
  | .func id _ body _ _, span, discard => functionLiteral id span (value (emit body)) discard
  | .call name args, _, _ => do
      emitAll args
      callNamed name args.length
      return true
  | .invoke function args, _, _ => do
      emitAll args
      value (emit function)
      op .invoke args.length
      return true
  | .send (some receiver) message args ifDefined, _, _ => do
      emitAll args
      emitReceiver receiver ifDefined
      pushSymbol message
      op (if ifDefined then .sendIfDefined else .send) args.length
      return true
  | .send none message args ifDefined, _, _ => do
      emitAll args
      simple .pushSelf
      pushSymbol message
      op (if ifDefined then .sendIfDefined else .send) args.length
      return true
  | .resend message args ifDefined, _, _ => do
      emitAll args
      pushSymbol message
      op (if ifDefined then .resendIfDefined else .resend) args.length
      return true
  | .ifThen cond thenBranch (some elseBranch), _, discard => do
      ifThenElse (value (emit cond)) (arm thenBranch discard (emit thenBranch))
        (arm elseBranch discard (emit elseBranch))
      return !discard
  | .ifThen cond thenBranch none, _, discard => do
      if discard then
        ifThen (value (emit cond)) (effect thenBranch (emit thenBranch))
      else
        ifThenElse (value (emit cond)) (value (emit thenBranch)) pushNil
      return !discard
  | .loop body, _, discard => endless (effect body (emit body)) discard
  | .whileLoop cond body, _, discard =>
      whileLoop (value (emit cond)) (effect body (emit body)) discard
  | .repeatLoop body cond, _, discard =>
      repeatLoop (effect body (emit body)) (value (emit cond)) discard
  | .forLoop var start limit (some step) body, span, discard => do
      let slots ← forSlots var span
      forLoop slots (value (emit start)) (value (emit limit)) (value (emit step))
        (effect body (emit body)) discard
  | .forLoop var start limit none body, span, discard => do
      let slots ← forSlots var span
      forLoop slots (value (emit start)) (value (emit limit)) (pushInt 1)
        (effect body (emit body)) discard
  | .foreachLoop key item deeply collection collect body, span, discard => do
      let slots ← foreachSlots key item collect span
      foreachLoop slots deeply (value (emit collection))
        (fun discard => arm body discard (emit body)) discard
  | .tryCatch body handlers, _, discard => do
      tryCatch handlers (arm body discard (emit body)) fun addresses =>
        emitHandlers handlers addresses discard
      return !discard
  | .breakLoop (some result), span, discard => do
      refuseOutsideLoop span
      value (emit result)
      breakHere
      return !discard
  | .breakLoop none, span, discard => do
      refuseOutsideLoop span
      pushNil
      breakHere
      return !discard
  | .returnValue (some result), _, discard => do
      value (emit result)
      simple .ret
      return !discard
  | .returnValue none, _, discard => do
      pushNil
      simple .ret
      return !discard
  | .makeArray (some className) elements, _, _ => do
      emitAll elements
      pushSymbol className
      op .makeArray elements.length
      return true
  | .makeArray none elements, _, _ => do
      emitAll elements
      pushSpelling "array"
      op .makeArray elements.length
      return true
  | .makeFrame slots, _, _ => do
      emitSlots slots
      let map ← withStore (Store.sharedMap (slots.map Slot.name))
      pushLiteral (.map map)
      op .makeFrame slots.length
      return true

/-- Emit nodes for their values. -/
def emitAll : List Node → EmitM Unit
  | [] => return
  | node :: rest => do
      value (emit node)
      emitAll rest

/-- Emit a sequence: the last item gives its value, the others are emitted for
their effect. -/
def emitItems : List Node → Bool → EmitM Bool
  | [], discard => do
      if discard then
        return false
      else
        pushNil
        return true
  | [last], discard => emit last discard
  | item :: next :: rest, discard => do
      effect item (emit item)
      emitItems (next :: rest) discard

/-- Emit the initializers of declared names.  With `keep` the value of the
last one stays on the stack. -/
def emitBindings : List Binding → Bool → EmitM Unit
  | [], _ => return
  | ⟨name, _, some initial, span⟩ :: rest, keep => do
      value (emit initial)
      storeVariable name (keep && !rest.any isInitialized) span
      emitBindings rest keep
  | ⟨_, _, none, _⟩ :: rest, keep => emitBindings rest keep

/-- Emit the values of slots. -/
def emitSlots : List Slot → EmitM Unit
  | [] => return
  | ⟨_, initial⟩ :: rest => do
      value (emit initial)
      emitSlots rest

/-- Emit handlers at their addresses.  All but the last branch to their common
end; these branches are given back. -/
def emitHandlers : List Handler → List Label → Bool → EmitM (List Label)
  | [], _, _ => return []
  | ⟨_, body⟩ :: rest, addresses, discard => do
      match addresses.head? with
      | some address => patchAddressHere address
      | none => pure ()
      arm body discard (emit body)
      if rest.isEmpty then
        return []
      else
        let toEnd ← reserve .branch
        return toEnd :: (← emitHandlers rest addresses.tail discard)

/-- Emit the object of a path and the key.  Slots that follow each other are
one key; those behind the node are given. -/
def emitBase : Node → List Symbol → EmitM Unit
  | ⟨.path object (.slot name), _⟩, slots => emitBase object (name :: slots)
  | ⟨expr, span⟩, slots => do
      value (emitExpr expr span)
      pushPath slots

/-- Emit the texts that a node joins, or the node if it joins none; `space`
stands where one is put between.  The result is their number. -/
def emitTexts : Node → Value → EmitM Nat
  | ⟨.binary .concat lhs rhs, _⟩, space => do
      let before ← emitTexts lhs space
      let behind ← emitTexts rhs space
      return before + behind
  | ⟨.binary .concatSpace lhs rhs, _⟩, space => do
      let before ← emitTexts lhs space
      pushLiteral space
      let behind ← emitTexts rhs space
      return before + 1 + behind
  | ⟨expr, span⟩, _ => do
      value (emitExpr expr span)
      return 1

/-- Emit the parts of what is assigned to. -/
def emitTarget : Node → EmitM Target
  | ⟨.name name, span⟩ => do
      refuseConstant name span
      return .variable name span
  | ⟨.path object (.slot name), _⟩ => do
      emitBase object [name]
      return .path
  | ⟨.path object (.computed key), _⟩ => do
      value (emit object)
      value (emit key)
      return .path
  | ⟨.index object position, _⟩ => do
      value (emit object)
      value (emit position)
      return .element
  | ⟨_, span⟩ => throw ⟨.assignTarget, span⟩

/-- Emit the test whether something exists. -/
def emitExists : Node → Span → EmitM Unit
  | ⟨.name name, _⟩, _ => pushExists name
  | ⟨.path object (.slot name), _⟩, _ => do
      emitBase object [name]
      frequent .hasPath
  | ⟨.path object (.computed key), _⟩, _ => do
      value (emit object)
      value (emit key)
      frequent .hasPath
  | _, span => throw ⟨.existsTarget, span⟩

/-- Emit the receiver of a message.  On the way to the receiver of a message
that may be undefined, slots may be missing. -/
def emitReceiver : Node → Bool → EmitM Unit
  | ⟨.path object (.slot name), _⟩, ifDefined => do
      emitBase object [name]
      op .getPath (if ifDefined then 0 else 1)
  | ⟨.path object (.computed key), _⟩, ifDefined => do
      value (emit object)
      value (emit key)
      op .getPath (if ifDefined then 0 else 1)
  | ⟨expr, span⟩, _ => value (emitExpr expr span)

end

end Emission

/-- The code block of a tree whose scopes are known, with the store and the
reports after emitting it. -/
def CodeBlock.ofTree (tree : Node) (scopes : Scopes) (options : Options) (store : Store)
    (bag : DiagnosticBag) : Except Failure CodeBlock × Store × DiagnosticBag :=
  let context := Emission.Context.ofScope scopes options Scopes.root
  let emitted := Emission.functionBlock Scopes.root (Emission.value (Emission.emit tree))
  match emitted context { store, bag } with
  | .ok block state => (.ok block, state.store, state.bag)
  | .error failure state => (.error failure, state.store, state.bag)

end NewtonScript
