import NewtonScript.Diagnostic.Bag
import NewtonScript.Scope
import NewtonScript.Scope.HiddenName

/-!
# Declarations

The first walk over a tree collects, for every function in it, the arguments,
locals and constants that it declares, the hidden variables of its loops
included.  Within one function a name is either a variable or a constant.
-/

namespace NewtonScript

/-- The negation of a number, when it is a number that can be written. -/
def negateConstant? : Value → Option Value
  | .int n => if minInt ≤ -n ∧ -n ≤ maxInt then some (.int (-n)) else none
  | .real x => some (.real x.neg)
  | _ => none

namespace Declaration

/-- The scopes so far, the store and the reports. -/
structure State where
  scopes : Scopes
  store : Store
  bag : DiagnosticBag

/-- Collecting declarations. -/
abbrev DeclareM := EStateM Failure State

/-- Look at a scope. -/
def scope (id : ScopeId) : DeclareM Scope :=
  return (← get).scopes.get id

def updateScope (id : ScopeId) (change : Scope → Scope) : DeclareM Unit :=
  modify fun state => { state with scopes := state.scopes.update id change }

/-- Ask the store. -/
def withStore {α : Type} (action : Store → α × Store) : DeclareM α :=
  modifyGet fun state =>
    let (result, store) := action state.store
    (result, { state with store })

def report (diagnostic : Diagnostic) : DeclareM Unit :=
  modify fun state => { state with bag := state.bag.report diagnostic }

/-- Declare a local of a function.  A name that it has already is reported
only when it was written as a declaration. -/
def addLocal (id : ScopeId) (name : Symbol) (span : Span) (written : Bool) : DeclareM Unit := do
  if (← scope id).owns name then
    if written then
      report (.duplicateName name span)
  else
    updateScope id fun scope => scope.addLocal name

/-- Refuse a variable that is a constant of the same function. -/
def refuseConstant (id : ScopeId) (name : Symbol) (span : Span) : DeclareM Unit := do
  if (← scope id).constants.contains name then
    throw ⟨.localConstantClash name, span⟩

/-- Declare hidden variables of a loop. -/
def addHidden (id : ScopeId) (var : Symbol) (span : Span) : List String → DeclareM Unit
  | [] => return
  | word :: rest => do
      let name ← withStore (hiddenName [var] word)
      addLocal id name span false
      addHidden id var span rest

/-- Declare the variables of a `for` loop. -/
def addForVariables (id : ScopeId) (var : Symbol) (span : Span) : DeclareM Unit := do
  refuseConstant id var span
  addLocal id var span false
  addHidden id var span ["limit", "incr"]
  updateScope id fun scope =>
    { scope with loopIndices := Scope.addName scope.loopIndices var }

/-- Declare variables that the text of a loop names. -/
def addLoopVariables (id : ScopeId) (span : Span) : List Symbol → DeclareM Unit
  | [] => return
  | name :: rest => do
      refuseConstant id name span
      addLocal id name span false
      addLoopVariables id span rest

/-- Declare the variables of a `foreach` loop. -/
def addForeachVariables (id : ScopeId) (key : Option Symbol) (value : Symbol) (collect : Bool)
    (span : Span) : DeclareM Unit := do
  addLoopVariables id span (key.toList ++ [value])
  let iterator ← withStore (iteratorName value key)
  addLocal id iterator span false
  if collect then
    addHidden id value span ["index", "result", "item"]

/-- The distinct arguments among parameters, behind those found so far, the
last of them first; repeated ones are reported. -/
def arguments : List Param → Trie Unit → List Symbol → DeclareM (List Symbol)
  | [], _, args => return args.reverse
  | param :: rest, known, args => do
      let key := param.name.folded.toList
      if (known.get? key).isSome then
        report (.duplicateName param.name param.span)
        arguments rest known args
      else
        arguments rest (known.insert () key) (param.name :: args)

/-- Open the scope of a function literal. -/
def addFunction (parent : ScopeId) (function : FuncId) (params : List Param) (native : Bool)
    (name : Option Symbol) (span : Span) : DeclareM ScopeId := do
  let args ← arguments params .empty []
  modifyGet fun state =>
    let scope : Scope := { parent := some parent, span, name, native, args }
    let (id, scopes) := state.scopes.add scope function
    (id, { state with scopes })

/-- The value of a constant expression: a literal, a constant, or the negation
of one of those.  A name that any function around declares as a variable is no
constant. -/
def constantValue? (scopes : Scopes) (store : Store) (id : ScopeId) : Node → Option Value
  | ⟨.literal value, _⟩ => some value
  | ⟨.name name, _⟩ =>
      if (scopes.chain id).any fun scope => (scopes.get scope).owns name then
        none
      else
        match scopes.constant? id name with
        | some value => some value
        | none => store.constant? name
  | ⟨.unary .negate operand, _⟩ => (constantValue? scopes store id operand).bind negateConstant?
  | _ => none

/-- Refuse a constant that is a variable of the same function, or a global
variable at the top level. -/
def refuseVariable (id : ScopeId) (name : Symbol) (span : Span) : DeclareM Unit := do
  if (← scope id).owns name then
    throw ⟨.localConstantClash name, span⟩
  if id == Scopes.root && (← get).store.hasGlobal name then
    throw ⟨.constantGlobalClash name, span⟩

/-- Bind a constant to the value of its initializer. -/
def bindConstant (id : ScopeId) (name : Symbol) (value : Option Value) (span : Span) :
    DeclareM Unit := do
  match value with
  | some value =>
      updateScope id fun scope => { scope with constants := scope.constants.insert name value }
  | none => throw ⟨.nonLiteralConstant name, span⟩

/-- Declare a name with `local`. -/
def bindLocal (id : ScopeId) (name : Symbol) (span : Span) : DeclareM Unit := do
  refuseConstant id name span
  addLocal id name span true
  updateScope id fun scope =>
    { scope with explicitLocals := Scope.addName scope.explicitLocals name }

mutual

/-- Collect the declarations of a node into a scope. -/
def declare : Node → ScopeId → DeclareM Unit
  | ⟨expr, span⟩, id => declareExpr expr span id

/-- Collect the declarations in an expression. -/
def declareExpr : Expr → Span → ScopeId → DeclareM Unit
  | .literal _, _, _ => return
  | .name _, _, _ => return
  | .selfRef, _, _ => return
  | .begin items, _, id => declareAll items id
  | .unary _ operand, _, id => declare operand id
  | .binary _ lhs rhs, _, id => do
      declare lhs id
      declare rhs id
  | .logical _ lhs rhs, _, id => do
      declare lhs id
      declare rhs id
  | .existsTest operand, _, id => declare operand id
  | .path object (.slot _), _, id => declare object id
  | .path object (.computed key), _, id => do
      declare object id
      declare key id
  | .index object position, _, id => do
      declare object id
      declare position id
  | .assign target value, _, id => do
      declare target id
      declare value id
  | .localDecl bindings, _, id => declareLocals bindings id
  | .constantDecl bindings, _, id => declareConstants bindings id
  | .globalVar _ (some value), _, id => declare value id
  | .globalVar _ none, _, _ => return
  | .globalFunc _ function, _, id => declare function id
  | .func function params body native name, span, id => do
      let inner ← addFunction id function params native name span
      declare body inner
  | .call _ args, _, id => declareAll args id
  | .invoke function args, _, id => do
      declareAll args id
      declare function id
  | .send (some receiver) _ args _, _, id => do
      declareAll args id
      declare receiver id
  | .send none _ args _, _, id => declareAll args id
  | .resend _ args _, _, id => declareAll args id
  | .ifThen cond thenBranch (some elseBranch), _, id => do
      declare cond id
      declare thenBranch id
      declare elseBranch id
  | .ifThen cond thenBranch none, _, id => do
      declare cond id
      declare thenBranch id
  | .loop body, _, id => declare body id
  | .whileLoop cond body, _, id => do
      declare cond id
      declare body id
  | .repeatLoop body cond, _, id => do
      declare body id
      declare cond id
  | .forLoop var start limit (some step) body, span, id => do
      declare start id
      declare limit id
      declare step id
      addForVariables id var span
      declare body id
  | .forLoop var start limit none body, span, id => do
      declare start id
      declare limit id
      addForVariables id var span
      declare body id
  | .foreachLoop key value _ collection collect body, span, id => do
      declare collection id
      addForeachVariables id key value collect span
      declare body id
  | .tryCatch body handlers, _, id => do
      declare body id
      declareHandlers handlers id
  | .breakLoop (some value), _, id => declare value id
  | .breakLoop none, _, _ => return
  | .returnValue (some value), _, id => declare value id
  | .returnValue none, _, _ => return
  | .makeArray _ elements, _, id => declareAll elements id
  | .makeFrame slots, _, id => declareSlots slots id

/-- Collect the declarations in nodes. -/
def declareAll : List Node → ScopeId → DeclareM Unit
  | [], _ => return
  | node :: rest, id => do
      declare node id
      declareAll rest id

/-- Declare the names of a `local`, each after its initializer. -/
def declareLocals : List Binding → ScopeId → DeclareM Unit
  | [], _ => return
  | ⟨name, _, some value, span⟩ :: rest, id => do
      declare value id
      bindLocal id name span
      declareLocals rest id
  | ⟨name, _, none, span⟩ :: rest, id => do
      bindLocal id name span
      declareLocals rest id

/-- Declare constants, each behind its initializer. -/
def declareConstants : List Binding → ScopeId → DeclareM Unit
  | [], _ => return
  | ⟨name, _, some value, span⟩ :: rest, id => do
      refuseVariable id name span
      declare value id
      let state ← get
      bindConstant id name (constantValue? state.scopes state.store id value) span
      declareConstants rest id
  | ⟨name, _, none, span⟩ :: rest, id => do
      refuseVariable id name span
      bindConstant id name none span
      declareConstants rest id

def declareHandlers : List Handler → ScopeId → DeclareM Unit
  | [], _ => return
  | ⟨_, body⟩ :: rest, id => do
      declare body id
      declareHandlers rest id

def declareSlots : List Slot → ScopeId → DeclareM Unit
  | [], _ => return
  | ⟨_, value⟩ :: rest, id => do
      declare value id
      declareSlots rest id

end

end Declaration

/-- The scopes that a tree declares, with the store and the reports after
collecting them.  Names and reports stay also when the tree is refused. -/
def Scopes.ofTree (tree : Node) (store : Store) (bag : DiagnosticBag) :
    Except Failure Scopes × Store × DiagnosticBag :=
  match Declaration.declare tree Scopes.root ⟨.ofSpan tree.span, store, bag⟩ with
  | .ok _ state => (.ok state.scopes, state.store, state.bag)
  | .error failure state => (.error failure, state.store, state.bag)

end NewtonScript
