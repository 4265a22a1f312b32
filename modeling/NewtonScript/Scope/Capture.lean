import NewtonScript.Diagnostic.Fault
import NewtonScript.Scope

/-!
# Captured variables

The second walk over a tree looks up every name that is read or written, and
notes which variables are referred to by functions inside their own, and which
functions need the receiver.  The index of a `for` loop lives on the stack and
cannot be captured.
-/

namespace NewtonScript

namespace Capture

/-- Finding out what functions share. -/
abbrev CaptureM := EStateM Failure Scopes

/-- Mark every scope of a list. -/
def markAll (scopes : Scopes) (change : Scope → Scope) : List ScopeId → Scopes
  | [] => scopes
  | id :: rest => markAll (scopes.update id change) change rest

/-- Note that the receiver is needed in a function and in all around it. -/
def markSelf (id : ScopeId) : CaptureM Unit :=
  modify fun scopes =>
    markAll scopes (fun scope => { scope with usesSelf := true }) (scopes.chain id)

/-- Count a reference of a function to its own variable. -/
def countReference (scope : Scope) (name : Symbol) : Scope :=
  { scope with references := scope.references.insert name ((scope.references.get? name).getD 0 + 1) }

/-- Note that a function around, `owner`, has a variable to which `current`
refers; `inner` are the functions between, `current` included. -/
def capture (scopes : Scopes) (owner current : ScopeId) (inner : List ScopeId) (name : Symbol) :
    Scopes :=
  let scopes := scopes.update owner fun scope =>
    { scope with locations := scope.locations.insert name .closedOver, hasClosedOver := true }
  let scopes := markAll scopes (fun scope => { scope with capturesOuter := true }) inner
  scopes.update current fun scope =>
    { scope with locations := scope.locations.insert name .environment }

/-- Look a name up along the rest of a chain; `inner` are the scopes that were
passed. -/
def referenceAlong (current : ScopeId) (name : Symbol) (span : Span) :
    List ScopeId → List ScopeId → CaptureM Unit
  | [], _ =>
      modify fun scopes => scopes.update current fun scope =>
        { scope with locations := scope.locations.insertNew name .environment }
  | id :: rest, inner => do
      let scope := (← get).get id
      if scope.owns name then
        if inner.isEmpty then
          modify fun scopes => scopes.update id fun scope => countReference scope name
        else if scope.isBareLoopIndex name then
          throw ⟨.capturedLoopIndex name, span⟩
        else
          modify fun scopes => capture scopes id current inner name
      else if scope.constants.contains name then
        return
      else
        referenceAlong current name span rest (inner ++ [id])

/-- Note a reference to a name in a function. -/
def reference (current : ScopeId) (name : Symbol) (span : Span) : CaptureM Unit := do
  referenceAlong current name span ((← get).chain current) []

mutual

/-- Note the references of a node. -/
def visit : Node → ScopeId → CaptureM Unit
  | ⟨expr, span⟩, id => visitExpr expr span id

/-- Visit the names in an expression. -/
def visitExpr : Expr → Span → ScopeId → CaptureM Unit
  | .literal _, _, _ => return
  | .name name, span, id => reference id name span
  | .selfRef, _, id => markSelf id
  | .begin items, _, id => visitAll items id
  | .unary _ operand, _, id => visit operand id
  | .binary _ lhs rhs, _, id => do
      visit lhs id
      visit rhs id
  | .logical _ lhs rhs, _, id => do
      visit lhs id
      visit rhs id
  | .existsTest operand, _, id => visit operand id
  | .path object (.slot _), _, id => visit object id
  | .path object (.computed key), _, id => do
      visit object id
      visit key id
  | .index object position, _, id => do
      visit object id
      visit position id
  | .assign target value, _, id => do
      visit target id
      visit value id
  | .localDecl bindings, _, id => visitBindings bindings id
  | .constantDecl bindings, _, id => visitBindings bindings id
  | .globalVar _ (some value), _, id => visit value id
  | .globalVar _ none, _, _ => return
  | .globalFunc _ function, _, id => visit function id
  | .func function _ body _ _, _, _ => do
      match (← get).scopeOf? function with
      | some inner => visit body inner
      | none => return
  | .call _ args, _, id => visitAll args id
  | .invoke function args, _, id => do
      visitAll args id
      visit function id
  | .send (some receiver) _ args _, _, id => do
      visitAll args id
      visit receiver id
  | .send none _ args _, _, id => do
      markSelf id
      visitAll args id
  | .resend _ args _, _, id => do
      markSelf id
      visitAll args id
  | .ifThen cond thenBranch (some elseBranch), _, id => do
      visit cond id
      visit thenBranch id
      visit elseBranch id
  | .ifThen cond thenBranch none, _, id => do
      visit cond id
      visit thenBranch id
  | .loop body, _, id => visit body id
  | .whileLoop cond body, _, id => do
      visit cond id
      visit body id
  | .repeatLoop body cond, _, id => do
      visit body id
      visit cond id
  | .forLoop _ start limit (some step) body, _, id => do
      visit start id
      visit limit id
      visit step id
      visit body id
  | .forLoop _ start limit none body, _, id => do
      visit start id
      visit limit id
      visit body id
  | .foreachLoop _ _ _ collection _ body, _, id => do
      visit collection id
      visit body id
  | .tryCatch body handlers, _, id => do
      visit body id
      visitHandlers handlers id
  | .breakLoop (some value), _, id => visit value id
  | .breakLoop none, _, _ => return
  | .returnValue (some value), _, id => visit value id
  | .returnValue none, _, _ => return
  | .makeArray _ elements, _, id => visitAll elements id
  | .makeFrame slots, _, id => visitSlots slots id

def visitAll : List Node → ScopeId → CaptureM Unit
  | [], _ => return
  | node :: rest, id => do
      visit node id
      visitAll rest id

/-- Visit initializers. -/
def visitBindings : List Binding → ScopeId → CaptureM Unit
  | [], _ => return
  | ⟨_, _, some value, _⟩ :: rest, id => do
      visit value id
      visitBindings rest id
  | ⟨_, _, none, _⟩ :: rest, id => visitBindings rest id

def visitHandlers : List Handler → ScopeId → CaptureM Unit
  | [], _ => return
  | ⟨_, body⟩ :: rest, id => do
      visit body id
      visitHandlers rest id

def visitSlots : List Slot → ScopeId → CaptureM Unit
  | [], _ => return
  | ⟨_, value⟩ :: rest, id => do
      visit value id
      visitSlots rest id

end

/-- Variables to which no function inside refers live in a slot. -/
def settle (scope : Scope) : Scope :=
  { scope with locations := scope.locations.insertEachNew scope.names .slot }

end Capture

/-- The scopes of a tree after its references were noted. -/
def Scopes.withReferences (scopes : Scopes) (tree : Node) : Except Failure Scopes :=
  match Capture.visit tree Scopes.root scopes with
  | .ok _ scopes => .ok { scopes with scopes := scopes.scopes.map Capture.settle }
  | .error failure _ => .error failure

end NewtonScript
