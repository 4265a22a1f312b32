import NewtonScript.Proofs.Code.Pending
import NewtonScript.Proofs.Scope.Chain

/-!
# The parts of trees

The parts of a node that are evaluated with it, each with the operands and
handlers around the place where it is evaluated.  A part of a loop may stand
inside of the loop, where a break leaves it, or outside.
-/

namespace NewtonScript

namespace Expr

/-- Whether an expression is a loop. -/
def isLoop : Expr → Bool
  | loop _ => true
  | whileLoop .. => true
  | repeatLoop .. => true
  | forLoop .. => true
  | foreachLoop .. => true
  | _ => false

/-- The parts of a loop in which a break leaves it: its body, and its condition
if it has one. -/
def looped : Expr → List Node
  | loop body => [body]
  | whileLoop cond body => [cond, body]
  | repeatLoop body cond => [body, cond]
  | forLoop _ _ _ _ body => [body]
  | foreachLoop _ _ _ _ _ body => [body]
  | _ => []

/-- The other nodes below an expression. -/
def unlooped : Expr → List Node
  | loop _ => []
  | whileLoop .. => []
  | repeatLoop .. => []
  | forLoop _ start limit step _ => [start, limit] ++ step.toList
  | foreachLoop _ _ _ collection _ _ => [collection]
  | expr => expr.children

/-- The variable of a loop that collects results. -/
def gathers? : Expr → Option Symbol
  | foreachLoop _ value _ _ true _ => some value
  | _ => none

end Expr

namespace Emission

open Bytecode

/-! ## Parts and their surroundings -/

/-- Nodes that are evaluated one after the other, each above the values of
those before it. -/
def partsOfAll : List Node → Pending → List (Pending × Node)
  | [], _ => []
  | node :: rest, pending => (pending, node) :: partsOfAll rest (pending.below 1)

/-- The operands in front of the second operand of an operator: the first one,
or the texts that are joined to it. -/
def operandsBeside (op : BinaryOp) (lhs : Node) : Nat :=
  if (operationOf? op).isSome then 1 else textCount lhs + separatorCount op

/-- The parts of an expression that are evaluated with it, each with what
stands around it.  Initializers of constants are not evaluated, and function
literals have a code block of their own. -/
def partsOf : Expr → Pending → List (Pending × Node)
  | .begin items, pending => items.map fun item => (pending, item)
  | .unary .negate operand, pending => [(pending.below 1, operand)]
  | .unary .complement operand, pending => [(pending, operand)]
  | .binary op lhs rhs, pending => [(pending, lhs), (pending.below (operandsBeside op lhs), rhs)]
  | .logical _ lhs rhs, pending => [(pending, lhs), (pending, rhs)]
  | .existsTest operand, pending => [(pending, operand)]
  | .path object (.slot _), pending => [(pending, object)]
  | .path object (.computed key), pending => [(pending, object), (pending.below 1, key)]
  | .index object position, pending => [(pending, object), (pending.below 1, position)]
  | .assign target value, pending =>
    [(pending, target), (pending.below (targetOf target).depth, value)]
  | .localDecl bindings, pending =>
    (bindings.filterMap Binding.value).map fun initial => (pending, initial)
  | .globalVar _ (some initial), pending => [(pending.below 1, initial)]
  | .globalFunc _ function, pending => [(pending.below 1, function)]
  | .call _ args, pending => partsOfAll args pending
  | .invoke function args, pending =>
    partsOfAll args pending ++ [(pending.below args.length, function)]
  | .send (some receiver) _ args _, pending =>
    partsOfAll args pending ++ [(pending.below args.length, receiver)]
  | .send none _ args _, pending => partsOfAll args pending
  | .resend _ args _, pending => partsOfAll args pending
  | .ifThen cond thenBranch (some elseBranch), pending =>
    [(pending, cond), (pending, thenBranch), (pending, elseBranch)]
  | .ifThen cond thenBranch none, pending => [(pending, cond), (pending, thenBranch)]
  | .loop body, pending => [(pending.insideLoop, body)]
  | .whileLoop cond body, pending => [(pending.insideLoop, cond), (pending.insideLoop, body)]
  | .repeatLoop body cond, pending => [(pending.insideLoop, body), (pending.insideLoop, cond)]
  | .forLoop _ start limit (some step) body, pending =>
    [(pending, start), (pending, limit), (pending, step), (pending.insideLoop, body)]
  | .forLoop _ start limit none body, pending =>
    [(pending, start), (pending, limit), (pending.insideLoop, body)]
  | .foreachLoop _ _ _ collection _ body, pending =>
    [(pending, collection), (pending.insideLoop, body)]
  | .tryCatch body handlers, pending =>
    (pending.guarded, body) :: handlers.map fun handler => (pending.guarded, handler.body)
  | .breakLoop (some value), pending => [(pending, value)]
  | .returnValue (some value), pending => [(pending, value)]
  | .makeArray _ elements, pending => partsOfAll elements pending
  | .makeFrame slots, pending => partsOfAll (slots.map Slot.value) pending
  | _, _ => []

/-- The parts of a function body, each with what stands around it. -/
inductive Within (body : Node) : Pending → Node → Prop where
  | whole : Within body {} body
  | part {pending inner : Pending} {node child : Node} (outer : Within body pending node)
      (member : (inner, child) ∈ partsOf node.expr pending) : Within body inner child

/-- The marks of the breaks of a function body. -/
def BreakMark (body : Node) (mark : Mark) : Prop :=
  ∃ pending value span, Within body pending ⟨.breakLoop value, span⟩ ∧ pending.mark = mark

/-- The names that an expression itself assigns to, apart from its parts. -/
def assignedNames : Expr → List Symbol
  | .assign target _ =>
    match targetOf target with
    | .variable name _ => [name]
    | _ => []
  | .localDecl bindings => (bindings.filter isInitialized).map Binding.name
  | expr => expr.loopVariables

/-- The operands below the values of the returns of a function body.  Nothing
waits at its end. -/
def ReturnDepth (body : Node) (operands : Nat) : Prop :=
  operands = 0 ∨
    ∃ pending value span, Within body pending ⟨.returnValue value, span⟩ ∧
      pending.operands = operands

theorem mem_of_partsOfAll {nodes : List Node} {pending : Pending} {part : Pending × Node}
    (member : part ∈ partsOfAll nodes pending) : part.2 ∈ nodes := by
  induction nodes generalizing pending with
  | nil => cases member
  | cons node rest ih =>
    rcases List.mem_cons.mp member with rfl | inRest
    · exact .head _
    · exact .tail _ (ih inRest)

theorem mem_children_of_partsOf {expr : Expr} {pending : Pending} {part : Pending × Node}
    (member : part ∈ partsOf expr pending) : part.2 ∈ expr.children := by
  have ofAll := @mem_of_partsOfAll
  fun_cases partsOf expr pending <;> simp_all [partsOf, Expr.children] <;> grind

/-- A node that is emitted as a part of another one, inside the loop that this
one is or outside.  Between the two there may be nodes that are not emitted as
such: the objects of longer paths, and joined texts. -/
inductive Part (node : Node) (pending : Pending) : Bool → Pending → Node → Prop where
  | outside {around : Pending} {part : Node} (side : part ∈ node.expr.unlooped)
      (member : (around, part) ∈ partsOf node.expr pending) : Part node pending false around part
  | inside {around : Pending} {part : Node} (side : part ∈ node.expr.looped)
      (member : (around, part) ∈ partsOf node.expr pending) : Part node pending true around part
  | deeper {within : Bool} {around inner : Pending} {part next : Node}
      (part_ : Part node pending within around part) (noLoop : part.expr.isLoop = false)
      (member : (inner, next) ∈ partsOf part.expr around) : Part node pending within inner next

namespace Part

variable {node part : Node} {pending around : Pending} {within : Bool}

theorem of_not_isLoop (noLoop : node.expr.isLoop = false)
    (member : (around, part) ∈ partsOf node.expr pending) : Part node pending false around part := by
  refine .outside ?_ member
  have child := mem_children_of_partsOf member
  obtain ⟨expr, span⟩ := node
  cases expr <;> first | exact child | cases noLoop

theorem of_handler {body : Node} {handlers : List Handler} (pending : Pending) (span : Span)
    (member : part ∈ handlers.map Handler.body) :
    Part ⟨.tryCatch body handlers, span⟩ pending false pending.guarded part := by
  refine .outside (.tail _ member) (.tail _ ?_)
  obtain ⟨handler, inside, rfl⟩ := List.mem_map.mp member
  exact List.mem_map.mpr ⟨handler, inside, rfl⟩

/-- What the parts of nodes have in common with the nodes, the parts have at
any depth. -/
theorem closed (holds : Pending → Node → Prop)
    (child : ∀ {pending inner : Pending} {node part : Node}, holds pending node →
      (inner, part) ∈ partsOf node.expr pending → holds inner part)
    (isPart : Part node pending within around part) (outer : holds pending node) :
    holds around part := by
  induction isPart with
  | outside _ member | inside _ member => exact child outer member
  | deeper _ _ member ih => exact child ih member

theorem sizeOf_lt (isPart : Part node pending within around part) : sizeOf part < sizeOf node := by
  have below : ∀ {node part : Node} {pending inner : Pending},
      (inner, part) ∈ partsOf node.expr pending → sizeOf part < sizeOf node := by
    intro node part pending inner member
    obtain ⟨expr, span⟩ := node
    have smaller : sizeOf part < sizeOf expr :=
      Expr.sizeOf_lt_of_mem_children (mem_children_of_partsOf member)
    simp only [Node.mk.sizeOf_spec]
    omega
  induction isPart with
  | outside _ member | inside _ member => exact below member
  | deeper _ _ member ih => exact Nat.lt_trans (below member) ih

theorem occurs {tree : Node} (isPart : Part node pending within around part)
    (outer : tree.Occurs node) : tree.Occurs part :=
  isPart.closed (fun _ => tree.Occurs)
    (fun outer member => outer.child (mem_children_of_partsOf member)) outer

theorem isWithin {body : Node} (isPart : Part node pending within around part)
    (outer : Within body pending node) : Within body around part :=
  isPart.closed (Within body) .part outer

end Part

end Emission

end NewtonScript
