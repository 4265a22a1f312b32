import NewtonScript.Proofs.Scope.Chain
import NewtonScript.Proofs.Tree.View

/-!
# Declarations in the order of the walk

Collecting declarations walks over a tree, but what it does to the scopes is a
flat row of events in the order of the walk: names are referred to, variables
and constants are declared, and function literals open scopes.  This is the
order of the text, except that the arguments of a call or a message come before
its function or receiver.  The walk fails or succeeds as the row does when its
events are carried out one after the other, so what every event keeps is kept
by the walk.

Scopes are numbered as they are opened.  The events of a part of a tree
therefore depend on the number of the next scope.
-/

namespace NewtonScript.Declaration

/-- What happens at one place of the walk. -/
inductive Act where
  | refer (name : Symbol)
  | localName (name : Symbol)
  | counting (var : Symbol)
  | iterating (key : Option Symbol) (value : Symbol) (collect : Bool)
  | constant (name : Symbol) (value : Option Node)
  | function (function : FuncId) (params : List Param) (native : Bool) (name : Option Symbol)

/-- Something that happens in a scope. -/
structure Event where
  scope : ScopeId
  act : Act
  span : Span

/-- Declare a constant. -/
def declareConstant (id : ScopeId) (name : Symbol) (value : Option Node) (span : Span) :
    DeclareM Unit := do
  refuseVariable id name span
  match value with
  | some value => do
    declare value id
    let state ← get
    bindConstant id name (constantValue? state.scopes state.store id value) span
  | none => bindConstant id name none span

/-- Carry out an event. -/
def Event.perform : Event → DeclareM Unit
  | ⟨_, .refer _, _⟩ => return
  | ⟨id, .localName name, span⟩ => bindLocal id name span
  | ⟨id, .counting var, span⟩ => addForVariables id var span
  | ⟨id, .iterating key value collect, span⟩ => addForeachVariables id key value collect span
  | ⟨id, .constant name value, span⟩ => declareConstant id name value span
  | ⟨id, .function function params native name, span⟩ => do
    let _ ← addFunction id function params native name span

/-- Carry out events in order. -/
def performAll : List Event → DeclareM Unit
  | [] => return
  | event :: rest => do
    event.perform
    performAll rest

/-- Whether an event opens a scope. -/
def Event.opens : Event → Bool
  | ⟨_, .function .., _⟩ => true
  | _ => false

/-- The number of scopes that events open. -/
def opened (events : List Event) : Nat :=
  events.countP Event.opens

/-! ## The events of a tree -/

/-- Events that are known when the number of the next scope is. -/
abbrev Trail := ScopeId → List Event

namespace Trail

/-- Nothing happens. -/
def nothing : Trail := fun _ => []

/-- One thing happens. -/
def single (id : ScopeId) (act : Act) (span : Span) : Trail := fun _ => [⟨id, act, span⟩]

/-- One trail behind another. -/
def andThen (first second : Trail) : Trail := fun next =>
  let events := first next
  events ++ second (next + opened events)

end Trail

mutual

/-- The events of a node in a scope. -/
def eventsOf : Node → ScopeId → Trail
  | ⟨expr, span⟩, id => eventsOfExpr expr span id

/-- The events of an expression over a region. -/
def eventsOfExpr : Expr → Span → ScopeId → Trail
  | .literal _, _, _ => .nothing
  | .name name, span, id => .single id (.refer name) span
  | .selfRef, _, _ => .nothing
  | .begin items, _, id => eventsOfAll items id
  | .unary _ operand, _, id => eventsOf operand id
  | .binary _ lhs rhs, _, id => (eventsOf lhs id).andThen (eventsOf rhs id)
  | .logical _ lhs rhs, _, id => (eventsOf lhs id).andThen (eventsOf rhs id)
  | .existsTest operand, _, id => eventsOf operand id
  | .path object (.slot _), _, id => eventsOf object id
  | .path object (.computed key), _, id => (eventsOf object id).andThen (eventsOf key id)
  | .index object position, _, id => (eventsOf object id).andThen (eventsOf position id)
  | .assign target value, _, id => (eventsOf target id).andThen (eventsOf value id)
  | .localDecl bindings, _, id => eventsOfLocals bindings id
  | .constantDecl bindings, _, id => eventsOfConstants bindings id
  | .globalVar _ (some value), _, id => eventsOf value id
  | .globalVar _ none, _, _ => .nothing
  | .globalFunc _ function, _, id => eventsOf function id
  | .func function params body native name, span, id => fun next =>
    ⟨id, .function function params native name, span⟩ :: eventsOf body next (next + 1)
  | .call _ args, _, id => eventsOfAll args id
  | .invoke function args, _, id => (eventsOfAll args id).andThen (eventsOf function id)
  | .send (some receiver) _ args _, _, id => (eventsOfAll args id).andThen (eventsOf receiver id)
  | .send none _ args _, _, id => eventsOfAll args id
  | .resend _ args _, _, id => eventsOfAll args id
  | .ifThen cond thenBranch (some elseBranch), _, id =>
    (eventsOf cond id).andThen ((eventsOf thenBranch id).andThen (eventsOf elseBranch id))
  | .ifThen cond thenBranch none, _, id => (eventsOf cond id).andThen (eventsOf thenBranch id)
  | .loop body, _, id => eventsOf body id
  | .whileLoop cond body, _, id => (eventsOf cond id).andThen (eventsOf body id)
  | .repeatLoop body cond, _, id => (eventsOf body id).andThen (eventsOf cond id)
  | .forLoop var start limit (some step) body, span, id =>
    (eventsOf start id).andThen ((eventsOf limit id).andThen ((eventsOf step id).andThen
      ((Trail.single id (.counting var) span).andThen (eventsOf body id))))
  | .forLoop var start limit none body, span, id =>
    (eventsOf start id).andThen ((eventsOf limit id).andThen
      ((Trail.single id (.counting var) span).andThen (eventsOf body id)))
  | .foreachLoop key value _ collection collect body, span, id =>
    (eventsOf collection id).andThen
      ((Trail.single id (.iterating key value collect) span).andThen (eventsOf body id))
  | .tryCatch body handlers, _, id => (eventsOf body id).andThen (eventsOfHandlers handlers id)
  | .breakLoop (some value), _, id => eventsOf value id
  | .breakLoop none, _, _ => .nothing
  | .returnValue (some value), _, id => eventsOf value id
  | .returnValue none, _, _ => .nothing
  | .makeArray _ elements, _, id => eventsOfAll elements id
  | .makeFrame slots, _, id => eventsOfSlots slots id

/-- The events of nodes in order. -/
def eventsOfAll : List Node → ScopeId → Trail
  | [], _ => .nothing
  | node :: rest, id => (eventsOf node id).andThen (eventsOfAll rest id)

/-- The events of a `local`: each name is declared behind its initializer. -/
def eventsOfLocals : List Binding → ScopeId → Trail
  | [], _ => .nothing
  | ⟨name, _, some value, span⟩ :: rest, id =>
    (eventsOf value id).andThen
      ((Trail.single id (.localName name) span).andThen (eventsOfLocals rest id))
  | ⟨name, _, none, span⟩ :: rest, id =>
    (Trail.single id (.localName name) span).andThen (eventsOfLocals rest id)

/-- The events of a `constant`.  The initializers have none of their own: those
that are constants declare nothing, and no code is emitted for them. -/
def eventsOfConstants : List Binding → ScopeId → Trail
  | [], _ => .nothing
  | ⟨name, _, value, span⟩ :: rest, id =>
    (Trail.single id (.constant name value) span).andThen (eventsOfConstants rest id)

/-- The events of handlers in order. -/
def eventsOfHandlers : List Handler → ScopeId → Trail
  | [], _ => .nothing
  | ⟨_, body⟩ :: rest, id => (eventsOf body id).andThen (eventsOfHandlers rest id)

/-- The events of the values of slots in order. -/
def eventsOfSlots : List Slot → ScopeId → Trail
  | [], _ => .nothing
  | ⟨_, value⟩ :: rest, id => (eventsOf value id).andThen (eventsOfSlots rest id)

end

/-! ## The walk follows the events -/

/-- Neither a constant with an initializer nor a function literal. -/
def Act.isSimple : Act → Bool
  | .constant _ (some _) => false
  | .function .. => false
  | _ => true

/-- What happens at a place of the text where names are spelled otherwise. -/
def Act.renamed (rename : Symbol → Symbol) : Act → Act
  | .refer name => .refer (rename name)
  | .localName name => .localName (rename name)
  | .counting var => .counting (rename var)
  | .iterating key value collect => .iterating (key.map rename) (rename value) collect
  | .constant name value => .constant (rename name) (value.map (Node.seen (.names rename)))
  | .function number params native name =>
    .function number (params.map (Param.seen (.names rename))) native (name.map rename)

/-- An action that declares nodes into a scope does what a trail says, and the
action that declares the nodes in another spelling goes the same way. -/
inductive Follows (rename : Symbol → Symbol) :
    ScopeId → List Node → DeclareM Unit → DeclareM Unit → Trail → Prop where
  | nothing {id : ScopeId} : Follows rename id [] (pure ()) (pure ()) .nothing
  | single {id : ScopeId} (act : Act) (span : Span) (simple : act.isSimple = true) :
      Follows rename id [] (Event.perform ⟨id, act, span⟩)
        (Event.perform ⟨id, act.renamed rename, span⟩) (.single id act span)
  | constant {id : ScopeId} (name : Symbol) (span : Span) {value : Node} {trail : Trail}
      (initial : Follows rename id [value] (declare value id)
        (declare (value.seen (.names rename)) id) trail) :
      Follows rename id [value] (Event.perform ⟨id, .constant name (some value), span⟩)
        (Event.perform ⟨id, (Act.constant name (some value)).renamed rename, span⟩)
        (.single id (.constant name (some value)) span)
  | andThen {id : ScopeId} {nodes nodes' : List Node} {action action' other other' : DeclareM Unit}
      {trail trail' : Trail} (first : Follows rename id nodes action other trail)
      (second : Follows rename id nodes' action' other' trail') :
      Follows rename id (nodes ++ nodes') (action >>= fun _ => action')
        (other >>= fun _ => other') (trail.andThen trail')
  | parts {id : ScopeId} {expr : Expr} {span : Span} {other : DeclareM Unit}
      (noFunction : expr.isFunction = false)
      (children : Follows rename id expr.children (declareExpr expr span id) other
        (eventsOfExpr expr span id)) :
      Follows rename id [⟨expr, span⟩] (declareExpr expr span id) other (eventsOfExpr expr span id)
  | function {id : ScopeId} (function : FuncId) (params : List Param) {body : Node}
      (native : Bool) (name : Option Symbol) (span : Span)
      (inside : ∀ inner, Follows rename inner [body] (declare body inner)
        (declare (body.seen (.names rename)) inner) (eventsOf body inner)) :
      Follows rename id [⟨.func function params body native name, span⟩]
        (addFunction id function params native name span >>= declare body)
        (addFunction id function (params.map (Param.seen (.names rename))) native
          (name.map rename) span >>= declare (body.seen (.names rename))) fun inner =>
          ⟨id, .function function params native name, span⟩ :: eventsOf body inner (inner + 1)

section

variable {rename : Symbol → Symbol} {id : ScopeId} {node : Node} {nodes : List Node}
  {action action' other other' : DeclareM Unit} {trail trail' : Trail}

/-- Nodes behind another one. -/
theorem Follows.cons (first : Follows rename id [node] action other trail)
    (second : Follows rename id nodes action' other' trail') :
    Follows rename id (node :: nodes) (action >>= fun _ => action') (other >>= fun _ => other')
      (trail.andThen trail') :=
  .andThen first second

/-- Nodes behind something that is none. -/
theorem Follows.before (first : Follows rename id [] action other trail)
    (second : Follows rename id nodes action' other' trail') :
    Follows rename id nodes (action >>= fun _ => action') (other >>= fun _ => other')
      (trail.andThen trail') :=
  .andThen first second

end

section

variable (rename : Symbol → Symbol)

mutual

theorem follows_declare (id : ScopeId) : (node : Node) →
    Follows rename id [node] (declare node id) (declare (node.seen (.names rename)) id)
      (eventsOf node id)
  | ⟨expr, span⟩ => by
    rw [Node.seen, declare, declare, eventsOf]
    exact follows_declareExpr id expr span

theorem follows_declareExpr (id : ScopeId) : (expr : Expr) → (span : Span) →
    Follows rename id [⟨expr, span⟩] (declareExpr expr span id)
      (declareExpr (expr.seen (.names rename)) span id) (eventsOfExpr expr span id)
  | .literal _, _ => .parts rfl .nothing
  | .name name, span => .parts rfl (.single (.refer name) span rfl)
  | .selfRef, _ => .parts rfl .nothing
  | .begin items, _ => .parts rfl (follows_declareAll id items)
  | .unary _ operand, _ => .parts rfl (follows_declare id operand)
  | .binary _ lhs rhs, _ => .parts rfl (.cons (follows_declare id lhs) (follows_declare id rhs))
  | .logical _ lhs rhs, _ =>
    .parts rfl (.cons (follows_declare id lhs) (follows_declare id rhs))
  | .existsTest operand, _ => .parts rfl (follows_declare id operand)
  | .path object (.slot _), _ => .parts rfl (follows_declare id object)
  | .path object (.computed key), _ =>
    .parts rfl (.cons (follows_declare id object) (follows_declare id key))
  | .index object position, _ =>
    .parts rfl (.cons (follows_declare id object) (follows_declare id position))
  | .assign target value, _ =>
    .parts rfl (.cons (follows_declare id target) (follows_declare id value))
  | .localDecl bindings, _ => .parts rfl (follows_declareLocals id bindings)
  | .constantDecl bindings, _ => .parts rfl (follows_declareConstants id bindings)
  | .globalVar _ (some value), _ => .parts rfl (follows_declare id value)
  | .globalVar _ none, _ => .parts rfl .nothing
  | .globalFunc _ function, _ => .parts rfl (follows_declare id function)
  | .func function params body native name, span =>
    .function function params native name span fun inner => follows_declare inner body
  | .call _ args, _ => .parts rfl (follows_declareAll id args)
  | .invoke function args, _ =>
    .parts rfl (.andThen (follows_declareAll id args) (follows_declare id function))
  | .send (some receiver) _ args _, _ =>
    .parts rfl (.andThen (follows_declareAll id args) (follows_declare id receiver))
  | .send none _ args _, _ => .parts rfl (by
      have all := follows_declareAll id args
      rw [Expr.children, Option.toList_none, List.append_nil]
      exact all)
  | .resend _ args _, _ => .parts rfl (follows_declareAll id args)
  | .ifThen cond thenBranch (some elseBranch), _ =>
    .parts rfl (.cons (follows_declare id cond)
      (.cons (follows_declare id thenBranch) (follows_declare id elseBranch)))
  | .ifThen cond thenBranch none, _ =>
    .parts rfl (.cons (follows_declare id cond) (follows_declare id thenBranch))
  | .loop body, _ => .parts rfl (follows_declare id body)
  | .whileLoop cond body, _ =>
    .parts rfl (.cons (follows_declare id cond) (follows_declare id body))
  | .repeatLoop body cond, _ =>
    .parts rfl (.cons (follows_declare id body) (follows_declare id cond))
  | .forLoop var start limit (some step) body, span =>
    .parts rfl (.cons (follows_declare id start) (.cons (follows_declare id limit)
      (.cons (follows_declare id step)
        (.before (.single (.counting var) span rfl) (follows_declare id body)))))
  | .forLoop var start limit none body, span =>
    .parts rfl (.cons (follows_declare id start) (.cons (follows_declare id limit)
      (.before (.single (.counting var) span rfl) (follows_declare id body))))
  | .foreachLoop key value _ collection collect body, span =>
    .parts rfl (.cons (follows_declare id collection)
      (.before (.single (.iterating key value collect) span rfl) (follows_declare id body)))
  | .tryCatch body handlers, _ =>
    .parts rfl (.cons (follows_declare id body) (follows_declareHandlers id handlers))
  | .breakLoop (some value), _ => .parts rfl (follows_declare id value)
  | .breakLoop none, _ => .parts rfl .nothing
  | .returnValue (some value), _ => .parts rfl (follows_declare id value)
  | .returnValue none, _ => .parts rfl .nothing
  | .makeArray _ elements, _ => .parts rfl (follows_declareAll id elements)
  | .makeFrame slots, _ => .parts rfl (follows_declareSlots id slots)

theorem follows_declareAll (id : ScopeId) : (nodes : List Node) →
    Follows rename id nodes (declareAll nodes id)
      (declareAll (Node.seenAll (.names rename) nodes) id) (eventsOfAll nodes id)
  | [] => .nothing
  | node :: rest => .cons (follows_declare id node) (follows_declareAll id rest)

theorem follows_declareLocals (id : ScopeId) : (bindings : List Binding) →
    Follows rename id (bindings.filterMap Binding.value) (declareLocals bindings id)
      (declareLocals (Binding.seenAll (.names rename) bindings) id) (eventsOfLocals bindings id)
  | [] => .nothing
  | ⟨name, _, some value, span⟩ :: rest =>
    .cons (follows_declare id value)
      (.before (.single (.localName name) span rfl) (follows_declareLocals id rest))
  | ⟨name, _, none, span⟩ :: rest =>
    .before (.single (.localName name) span rfl) (follows_declareLocals id rest)

theorem follows_declareConstants (id : ScopeId) : (bindings : List Binding) →
    Follows rename id (bindings.filterMap Binding.value) (declareConstants bindings id)
      (declareConstants (Binding.seenAll (.names rename) bindings) id)
      (eventsOfConstants bindings id)
  | [] => .nothing
  | ⟨name, _, some value, span⟩ :: rest => by
    have both := Follows.cons (.constant name span (follows_declare id value))
      (follows_declareConstants id rest)
    simp only [Act.renamed, Option.map_some, Event.perform, declareConstant, bind_assoc] at both
    exact both
  | ⟨name, _, none, span⟩ :: rest => by
    have both := Follows.before (.single (.constant name none) span rfl)
      (follows_declareConstants id rest)
    simp only [Act.renamed, Option.map_none, Event.perform, declareConstant, bind_assoc] at both
    exact both

theorem follows_declareHandlers (id : ScopeId) : (handlers : List Handler) →
    Follows rename id (handlers.map Handler.body) (declareHandlers handlers id)
      (declareHandlers (Handler.seenAll (.names rename) handlers) id) (eventsOfHandlers handlers id)
  | [] => .nothing
  | ⟨_, body⟩ :: rest => .cons (follows_declare id body) (follows_declareHandlers id rest)

theorem follows_declareSlots (id : ScopeId) : (slots : List Slot) →
    Follows rename id (slots.map Slot.value) (declareSlots slots id)
      (declareSlots (Slot.seenAll (.names rename) slots) id) (eventsOfSlots slots id)
  | [] => .nothing
  | ⟨_, value⟩ :: rest => .cons (follows_declare id value) (follows_declareSlots id rest)

end

end

end NewtonScript.Declaration
