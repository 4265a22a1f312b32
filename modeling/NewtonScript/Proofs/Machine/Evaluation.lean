import NewtonScript.Emission
import NewtonScript.Proofs.Machine.Step

/-!
# Evaluating structured programs

A big-step semantics for the part of the language that has only values,
variables, operators, conditionals and loops that end by themselves.  It knows
nothing about code: variables are found by their names, and names that differ
only in case are one variable.
-/

namespace NewtonScript

open Bytecode

namespace Evaluation

/-- The frequent function that an operator stands for. -/
def functionOf? : BinaryOp → Option Frequent
  | .add => some .add
  | .sub => some .subtract
  | .mul => some .multiply
  | .div => some .divide
  | .intDiv => some .intDivide
  | .equal => some .equals
  | .notEqual => some .notEquals
  | .less => some .less
  | .greater => some .greater
  | .lessEqual => some .lessEqual
  | .greaterEqual => some .greaterEqual
  | _ => none

section

variable (own declared : Symbol → Bool)

mutual

/-- Whether a node is a structured program that reads and assigns only some
names, its own, and gives only some names a value where it declares them. -/
def isStructured : Node → Bool
  | ⟨expr, _⟩ => isStructuredExpr expr

/-- Whether an expression is a structured program. -/
def isStructuredExpr : Expr → Bool
  | .literal _ => true
  | .name name => own name
  | .unary .complement operand => isStructured operand
  | .binary op lhs rhs => (functionOf? op).isSome && (isStructured lhs && isStructured rhs)
  | .logical _ lhs rhs => isStructured lhs && isStructured rhs
  | .ifThen cond thenBranch (some elseBranch) =>
    isStructured cond && (isStructured thenBranch && isStructured elseBranch)
  | .ifThen cond thenBranch none => isStructured cond && isStructured thenBranch
  | .begin items => areStructured items
  | .assign ⟨.name name, _⟩ value => own name && isStructured value
  | .localDecl bindings => haveStructuredValues bindings
  | .whileLoop cond body => isStructured cond && isStructured body
  | .repeatLoop body cond => isStructured body && isStructured cond
  | _ => false

/-- Whether all nodes of a list are structured programs. -/
def areStructured : List Node → Bool
  | [] => true
  | node :: rest => isStructured node && areStructured rest

/-- Whether the initializers of declared names are structured programs. -/
def haveStructuredValues : List Binding → Bool
  | [] => true
  | ⟨name, _, some value, _⟩ :: rest =>
    declared name && (isStructured value && haveStructuredValues rest)
  | ⟨_, _, none, _⟩ :: rest => haveStructuredValues rest

end

end

/-- The values of variables, by the folded spellings of their names. -/
abbrev Environment (V : Type) := String → V

/-- Change a variable. -/
def Environment.assign {V : Type} (environment : Environment V) (name : Symbol) (value : V) :
    Environment V :=
  Function.update environment name.folded value

/-- What can be evaluated: a node, the items of a sequence, or the
initializers of declared names. -/
inductive Phrase where
  | node (node : Node)
  | items (items : List Node)
  | bindings (bindings : List Binding)

open Machine (Interpretation)

variable {V : Type}

/-- The value of a phrase in an environment, and the environment behind it.
The value of a sequence is that of its last item; declared names have the
value of the last initializer. -/
inductive Evaluates (interp : Interpretation V) :
    Phrase → Environment V → V → Environment V → Prop where
  | literal {value : Value} {span : Span} {env : Environment V} :
      Evaluates interp (.node ⟨.literal value, span⟩) env (interp.literal value) env
  | name {name : Symbol} {span : Span} {env : Environment V} :
      Evaluates interp (.node ⟨.name name, span⟩) env (env name.folded) env
  | complement {operand : Node} {span : Span} {env env' : Environment V} {value : V}
      (inner : Evaluates interp (.node operand) env value env') :
      Evaluates interp (.node ⟨.unary .complement operand, span⟩) env
        (interp.apply .complement [value]) env'
  | binary {op : BinaryOp} {function : Frequent} {lhs rhs : Node} {span : Span}
      {env env' env'' : Environment V} {first second : V} (known : functionOf? op = some function)
      (left : Evaluates interp (.node lhs) env first env')
      (right : Evaluates interp (.node rhs) env' second env'') :
      Evaluates interp (.node ⟨.binary op lhs rhs, span⟩) env
        (interp.apply function [first, second]) env''
  | andShort {lhs rhs : Node} {span : Span} {env env' : Environment V}
      (left : Evaluates interp (.node lhs) env interp.nil env') :
      Evaluates interp (.node ⟨.logical .conjunction lhs rhs, span⟩) env interp.nil env'
  | andRest {lhs rhs : Node} {span : Span} {env env' env'' : Environment V} {first second : V}
      (left : Evaluates interp (.node lhs) env first env') (holds : first ≠ interp.nil)
      (right : Evaluates interp (.node rhs) env' second env'') :
      Evaluates interp (.node ⟨.logical .conjunction lhs rhs, span⟩) env second env''
  | orShort {lhs rhs : Node} {span : Span} {env env' : Environment V} {first : V}
      (left : Evaluates interp (.node lhs) env first env') (holds : first ≠ interp.nil) :
      Evaluates interp (.node ⟨.logical .disjunction lhs rhs, span⟩) env interp.truth env'
  | orRest {lhs rhs : Node} {span : Span} {env env' env'' : Environment V} {second : V}
      (left : Evaluates interp (.node lhs) env interp.nil env')
      (right : Evaluates interp (.node rhs) env' second env'') :
      Evaluates interp (.node ⟨.logical .disjunction lhs rhs, span⟩) env second env''
  | ifTrue {cond thenBranch : Node} {elseBranch : Option Node} {span : Span}
      {env env' env'' : Environment V} {test value : V}
      (tested : Evaluates interp (.node cond) env test env') (holds : test ≠ interp.nil)
      (branch : Evaluates interp (.node thenBranch) env' value env'') :
      Evaluates interp (.node ⟨.ifThen cond thenBranch elseBranch, span⟩) env value env''
  | ifFalse {cond thenBranch elseBranch : Node} {span : Span} {env env' env'' : Environment V}
      {value : V} (tested : Evaluates interp (.node cond) env interp.nil env')
      (branch : Evaluates interp (.node elseBranch) env' value env'') :
      Evaluates interp (.node ⟨.ifThen cond thenBranch (some elseBranch), span⟩) env value env''
  | ifNeither {cond thenBranch : Node} {span : Span} {env env' : Environment V}
      (tested : Evaluates interp (.node cond) env interp.nil env') :
      Evaluates interp (.node ⟨.ifThen cond thenBranch none, span⟩) env interp.nil env'
  | begin {items : List Node} {span : Span} {env env' : Environment V} {value : V}
      (inner : Evaluates interp (.items items) env value env') :
      Evaluates interp (.node ⟨.begin items, span⟩) env value env'
  | assign {name : Symbol} {assigned : Node} {span span' : Span} {env env' : Environment V}
      {value : V} (inner : Evaluates interp (.node assigned) env value env') :
      Evaluates interp (.node ⟨.assign ⟨.name name, span⟩ assigned, span'⟩) env value
        (env'.assign name value)
  | declare {bindings : List Binding} {span : Span} {env env' : Environment V} {value : V}
      (inner : Evaluates interp (.bindings bindings) env value env') :
      Evaluates interp (.node ⟨.localDecl bindings, span⟩) env value env'
  | whileDone {cond body : Node} {span : Span} {env env' : Environment V}
      (tested : Evaluates interp (.node cond) env interp.nil env') :
      Evaluates interp (.node ⟨.whileLoop cond body, span⟩) env interp.nil env'
  | whileAgain {cond body : Node} {span : Span} {env env' env'' env''' : Environment V}
      {test dropped : V} (tested : Evaluates interp (.node cond) env test env')
      (holds : test ≠ interp.nil) (inner : Evaluates interp (.node body) env' dropped env'')
      (again : Evaluates interp (.node ⟨.whileLoop cond body, span⟩) env'' interp.nil env''') :
      Evaluates interp (.node ⟨.whileLoop cond body, span⟩) env interp.nil env'''
  | repeatDone {body cond : Node} {span : Span} {env env' env'' : Environment V} {dropped test : V}
      (inner : Evaluates interp (.node body) env dropped env')
      (tested : Evaluates interp (.node cond) env' test env'') (holds : test ≠ interp.nil) :
      Evaluates interp (.node ⟨.repeatLoop body cond, span⟩) env interp.nil env''
  | repeatAgain {body cond : Node} {span : Span} {env env' env'' env''' : Environment V}
      {dropped : V} (inner : Evaluates interp (.node body) env dropped env')
      (tested : Evaluates interp (.node cond) env' interp.nil env'')
      (again : Evaluates interp (.node ⟨.repeatLoop body cond, span⟩) env'' interp.nil env''') :
      Evaluates interp (.node ⟨.repeatLoop body cond, span⟩) env interp.nil env'''
  | noItem {env : Environment V} : Evaluates interp (.items []) env interp.nil env
  | lastItem {item : Node} {env env' : Environment V} {value : V}
      (inner : Evaluates interp (.node item) env value env') :
      Evaluates interp (.items [item]) env value env'
  | nextItem {item next : Node} {rest : List Node} {env env' env'' : Environment V}
      {dropped value : V} (inner : Evaluates interp (.node item) env dropped env')
      (others : Evaluates interp (.items (next :: rest)) env' value env'') :
      Evaluates interp (.items (item :: next :: rest)) env value env''
  | noBinding {env : Environment V} :
      Evaluates interp (.bindings []) env interp.nil env
  | bare {name : Symbol} {type : Option Symbol} {span : Span} {rest : List Binding}
      {env env' : Environment V} {value : V}
      (others : Evaluates interp (.bindings rest) env value env') :
      Evaluates interp (.bindings (⟨name, type, none, span⟩ :: rest)) env value env'
  | lastBinding {name : Symbol} {type : Option Symbol} {initial : Node} {span : Span}
      {rest : List Binding} {env env' env'' : Environment V} {value other : V}
      (inner : Evaluates interp (.node initial) env value env')
      (last : rest.all fun binding => binding.value.isNone)
      (others : Evaluates interp (.bindings rest) (env'.assign name value) other env'') :
      Evaluates interp (.bindings (⟨name, type, some initial, span⟩ :: rest)) env value env''
  | nextBinding {name : Symbol} {type : Option Symbol} {initial : Node} {span : Span}
      {rest : List Binding} {env env' env'' : Environment V} {dropped value : V}
      (inner : Evaluates interp (.node initial) env dropped env')
      (more : rest.any fun binding => binding.value.isSome)
      (others : Evaluates interp (.bindings rest) (env'.assign name dropped) value env'') :
      Evaluates interp (.bindings (⟨name, type, some initial, span⟩ :: rest)) env value env''

end Evaluation

end NewtonScript
