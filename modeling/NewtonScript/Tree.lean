import NewtonScript.Text.Span
import NewtonScript.Value

/-!
# Syntax trees

A program is a tree of nodes.  A node is an expression with the region of
source text that it covers; everything in the language is an expression,
declarations and loops included.
-/

namespace NewtonScript

/-- The number of a function literal, unique within one parser. -/
abbrev FuncId := Nat

/-- The operators in front of one operand. -/
inductive UnaryOp where
  | negate
  | complement
deriving DecidableEq, Repr

/-- The operators between two operands that are both evaluated. -/
inductive BinaryOp where
  | add
  | sub
  | mul
  | div
  | intDiv
  | mod
  | shiftLeft
  | shiftRight
  | equal
  | notEqual
  | less
  | greater
  | lessEqual
  | greaterEqual
  /-- Joins two texts. -/
  | concat
  /-- Joins two texts with a space between. -/
  | concatSpace
deriving DecidableEq, Repr

/-- The operators that may leave their second operand out. -/
inductive LogicalOp where
  | conjunction
  | disjunction
deriving DecidableEq, Repr

/-- A parameter of a function, with a type that is not enforced. -/
structure Param where
  name : Symbol
  type : Option Symbol
  span : Span

mutual

/-- An expression and the region that it covers. -/
structure Node where
  expr : Expr
  span : Span

/-- The kinds of expressions. -/
inductive Expr where
  | literal (value : Value)
  | name (name : Symbol)
  | selfRef
  | begin (items : List Node)
  | unary (op : UnaryOp) (operand : Node)
  | binary (op : BinaryOp) (lhs rhs : Node)
  | logical (op : LogicalOp) (lhs rhs : Node)
  | existsTest (operand : Node)
  | path (object : Node) (key : PathKey)
  | index (object position : Node)
  | assign (target value : Node)
  | localDecl (bindings : List Binding)
  | constantDecl (bindings : List Binding)
  | globalVar (name : Symbol) (value : Option Node)
  | globalFunc (name : Symbol) (function : Node)
  | func (id : FuncId) (params : List Param) (body : Node) (native : Bool) (name : Option Symbol)
  /-- The call of a global function. -/
  | call (name : Symbol) (args : List Node)
  /-- The call of a function value. -/
  | invoke (function : Node) (args : List Node)
  /-- A message to a receiver, or to the current one when there is none. -/
  | send (receiver : Option Node) (message : Symbol) (args : List Node) (ifDefined : Bool)
  /-- A message to the inherited method. -/
  | resend (message : Symbol) (args : List Node) (ifDefined : Bool)
  | ifThen (cond thenBranch : Node) (elseBranch : Option Node)
  | loop (body : Node)
  | whileLoop (cond body : Node)
  | repeatLoop (body cond : Node)
  | forLoop (var : Symbol) (start limit : Node) (step : Option Node) (body : Node)
  | foreachLoop (key : Option Symbol) (value : Symbol) (deeply : Bool) (collection : Node)
      (collect : Bool) (body : Node)
  | tryCatch (body : Node) (handlers : List Handler)
  | breakLoop (value : Option Node)
  | returnValue (value : Option Node)
  | makeArray (className : Option Symbol) (elements : List Node)
  | makeFrame (slots : List Slot)

/-- The key of a path: a slot name, or an expression that gives the key. -/
inductive PathKey where
  | slot (name : Symbol)
  | computed (key : Node)

/-- One name of a declaration, with a type that is not enforced. -/
structure Binding where
  name : Symbol
  type : Option Symbol
  value : Option Node
  span : Span

/-- An exception name and what is done about it. -/
structure Handler where
  exception : Symbol
  body : Node

/-- A named slot of a frame. -/
structure Slot where
  name : Symbol
  value : Node

end

instance : Inhabited Node := ⟨⟨.begin [], Span.none⟩⟩

namespace Expr

/-- The nodes directly below an expression, in the order in which they are
visited: the arguments of a call stand before what is called.  The body of a
function literal is not among them. -/
def children : Expr → List Node
  | literal _ => []
  | name _ => []
  | selfRef => []
  | func .. => []
  | begin items => items
  | unary _ operand => [operand]
  | existsTest operand => [operand]
  | loop body => [body]
  | binary _ lhs rhs => [lhs, rhs]
  | logical _ lhs rhs => [lhs, rhs]
  | path object (.slot _) => [object]
  | path object (.computed key) => [object, key]
  | index object position => [object, position]
  | assign target value => [target, value]
  | localDecl bindings => bindings.filterMap Binding.value
  | constantDecl bindings => bindings.filterMap Binding.value
  | globalVar _ value => value.toList
  | globalFunc _ function => [function]
  | call _ args => args
  | resend _ args _ => args
  | invoke function args => args ++ [function]
  | send receiver _ args _ => args ++ receiver.toList
  | ifThen cond thenBranch elseBranch => [cond, thenBranch] ++ elseBranch.toList
  | whileLoop cond body => [cond, body]
  | repeatLoop body cond => [body, cond]
  | forLoop _ start limit step body => [start, limit] ++ step.toList ++ [body]
  | foreachLoop _ _ _ collection _ body => [collection, body]
  | tryCatch body handlers => body :: handlers.map Handler.body
  | breakLoop value => value.toList
  | returnValue value => value.toList
  | makeArray _ elements => elements
  | makeFrame slots => slots.map Slot.value

end Expr

/-! ## Expressions without effect -/

mutual

/-- Whether evaluating a node does nothing but produce its value. -/
def Node.isPure : Node → Bool
  | ⟨expr, _⟩ => Expr.isPure expr

/-- Whether evaluating an expression does nothing but produce its value. -/
def Expr.isPure : Expr → Bool
  | .literal _ => true
  | .name _ => true
  | .selfRef => true
  | .func .. => true
  | .unary _ operand => Node.isPure operand
  | .existsTest operand => Node.isPure operand
  | .binary _ lhs rhs => Node.isPure lhs && Node.isPure rhs
  | .logical _ lhs rhs => Node.isPure lhs && Node.isPure rhs
  | .path object (.slot _) => Node.isPure object
  | .path object (.computed key) => Node.isPure object && Node.isPure key
  | .index object position => Node.isPure object && Node.isPure position
  | .makeArray _ elements => Node.allPure elements
  | .makeFrame slots => Slot.allPure slots
  | _ => false

def Node.allPure : List Node → Bool
  | [] => true
  | node :: rest => Node.isPure node && Node.allPure rest

def Slot.allPure : List Slot → Bool
  | [] => true
  | ⟨_, value⟩ :: rest => Node.isPure value && Slot.allPure rest

end

end NewtonScript
