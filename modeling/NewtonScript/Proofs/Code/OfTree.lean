import NewtonScript.Proofs.Emission.Made

/-!
# The structured code of a tree

What code a tree stands for, without positions and without numbers of
literals.  It is the code of the plan of the tree, in which the parts that the
plan emits have code of their own.  It depends on the tree, on the scope of the
function and on the global constants alone, so it can be computed before
anything is emitted.

Trees that the emitter refuses have code here too; nothing is said about it.
-/

namespace NewtonScript.Emission

open Bytecode

/-! ## The parts of plans -/

/-- The nodes that a step emits. -/
def Step.parts : Step → List Node
  | part node _ _ => [node]
  | effect node _ => [node]
  | leave result _ _ => result.toList
  | guard body handlers _ _ => body :: handlers.map Handler.body
  | _ => []

/-- The nodes that a plan emits. -/
def Plan.parts : Plan → List Node
  | empty => []
  | step taken => taken.parts
  | append first second => first.parts ++ second.parts
  | collecting _ rest => rest.parts
  | after _ rest => rest.parts
  | spaced body => body.parts
  | skip _ body => body.parts
  | fork _ yes no => yes.parts ++ no.parts
  | back _ body => body.parts
  | guarded test body => test.parts ++ body.parts
  | entered _ body test => body.parts ++ test.parts
  | scope body => body.parts

section

variable {node part : Node} {pending : Pending} {within : Bool} {depth depth' : Nat}

/-- What a step of the plan of a node emits is a part of the node. -/
theorem Step.Of.exists_part {step : Step} (made : step.Of node pending within depth depth')
    (member : part ∈ step.parts) : ∃ around, Part node pending within around part := by
  cases step with
  | part | effect =>
    cases List.mem_singleton.mp member
    exact ⟨_, made.1.isPart⟩
  | leave result =>
    obtain ⟨rfl, rfl, -⟩ := made
    cases result with
    | none => cases member
    | some result =>
      cases List.mem_singleton.mp member
      exact ⟨_, .outside (.head _) (.head _)⟩
  | guard body handlers =>
    obtain ⟨rfl, ⟨span, rfl⟩, -⟩ := made
    rcases List.mem_cons.mp member with rfl | member
    · exact ⟨_, .outside (.head _) (.head _)⟩
    · exact ⟨_, .of_handler pending span member⟩
  | _ => cases member

/-- So is what the plan of a node emits. -/
theorem Plan.Made.exists_part {plan : Plan} (made : plan.Made node pending within depth depth')
    (member : part ∈ plan.parts) : ∃ within around, Part node pending within around part := by
  induction plan generalizing within depth depth' with
  | empty => cases member
  | step step => exact ⟨within, Step.Of.exists_part made member⟩
  | append _ _ ofFirst ofSecond =>
    obtain ⟨_, first, second⟩ := made
    exact (List.mem_append.mp member).elim (ofFirst first) (ofSecond second)
  | collecting _ _ ofRest =>
    obtain ⟨-, _, -, -, rest⟩ := made
    exact ofRest rest member
  | after _ _ ofRest => exact ofRest made.2.2 member
  | spaced _ ofBody => exact ofBody made member
  | skip _ _ ofBody => exact ofBody made.2.2 member
  | fork _ _ _ ofYes ofNo =>
    obtain ⟨-, _, -, yes, no⟩ := made
    exact (List.mem_append.mp member).elim (ofYes yes) (ofNo no)
  | back _ _ ofBody =>
    obtain ⟨_, -, body⟩ := made
    exact ofBody body member
  | guarded _ _ ofTest ofBody =>
    exact (List.mem_append.mp member).elim (ofTest made.1) (ofBody made.2)
  | entered _ _ _ ofBody ofTest =>
    obtain ⟨_, -, -, body, test⟩ := made
    exact (List.mem_append.mp member).elim (ofBody body) (ofTest test)
  | scope _ ofBody => exact ofBody made.2.2.2.2 member

theorem sizeOf_lt_of_mem_parts {discard : Bool} (member : part ∈ (planOf node pending discard).parts) :
    sizeOf part < sizeOf node := by
  obtain ⟨_, _, isPart⟩ := (made_planOf node pending discard).exists_part member
  exact isPart.sizeOf_lt

end

theorem parts_items (items : List Node) (pending : Pending) (discard : Bool) :
    (Plan.items items pending discard).parts = items := by
  fun_induction Plan.items items pending discard with
  | case1 => cases ‹Bool› <;> rfl
  | case2 => rfl
  | case3 _ _ _ _ _ ih => exact congrArg (_ :: ·) ih

theorem parts_bindings (bindings : List Binding) (pending : Pending) (keep keep' : Bool) :
    (Plan.bindings bindings pending keep).parts = (Plan.bindings bindings pending keep').parts := by
  fun_induction Plan.bindings bindings pending keep with
  | case1 => rfl
  | case2 _ _ _ _ _ _ _ ih => exact congrArg (_ :: ·) ih
  | case3 _ _ _ _ _ _ ih => exact ih

/-- A node emits the same parts for its effect as for its value. -/
theorem parts_planOf (node : Node) (pending : Pending) (discard : Bool) :
    (planOf node pending discard).parts = (planOf node pending false).parts := by
  cases discard with
  | false => rfl
  | true =>
    obtain ⟨expr, span⟩ := node
    cases expr with
    | begin items => exact (parts_items _ _ _).trans (parts_items _ _ _).symm
    | localDecl bindings =>
      have pushed (condition : Bool) : (Plan.onlyIf condition (.push .nil)).parts = [] := by
        cases condition <;> rfl
      exact congrArg₂ (· ++ ·) (parts_bindings _ _ _ _) ((pushed _).trans (pushed _).symm)
    | unary op => cases op <;> rfl
    | assign target => cases found : targetOf target <;> rw [planOf, planOf, found] <;> rfl
    | globalVar _ value => cases value <;> rfl
    | ifThen _ _ other => cases other <;> rfl
    | returnValue value => cases value <;> rfl
    | _ => rfl

/-! ## The code of plans -/

section

variable (ctx : Context) (globals : Table Symbol Value)

/-- The code of handlers whose bodies have given code: alternatives with a common
end. -/
def handlersCode (discard : Bool) : (handlers : List Handler) →
    (∀ body ∈ handlers.map Handler.body, Bool → Fragment Primitive) → Fragment Primitive
  | [], _ => .empty
  | ⟨_, body⟩ :: rest, code =>
    let arm := armCode body discard (code body (.head _))
    if rest.isEmpty then arm
    else .joined arm (handlersCode discard rest fun body member => code body (.tail _ member))

/-- The code of a step whose parts have given code. -/
def Step.codeWith : (step : Step) →
    (∀ part ∈ step.parts, Pending → Bool → Fragment Primitive) → Fragment Primitive
  | part node pending discard, code => code node (.head _) pending discard
  | effect node pending, code => effectCode node (code node (.head _) pending)
  | push value, _ => one (.value value)
  | spelled spelling, _ => Emission.spelled spelling
  | space, _ => one (.text " ")
  | path slots, _ => pathCode slots
  | frame slots, _ => one (.map slots) ++ one (.op .makeFrame slots.length)
  | lookup name, _ => nameCode ctx globals name
  | store name keep _, _ => storeCode ctx globals name keep
  | nameExists name, _ => nameExistsCode ctx globals name
  | access kind var, _ => one (kind.primitive (slotIn ctx var.name))
  | op opcode operand, _ => one (.op opcode operand)
  | simple opcode, _ => oneSimple opcode
  | ret operands, _ => .finish operands
  | refuseConstant .., _ => .empty
  | find .., _ => .empty
  | fail _, _ => .empty
  | leave (some result) _ pending, code => code result (.head _) pending false ++ .leave pending.mark
  | leave none _ pending, _ => nilCode ++ .leave pending.mark
  | guard body handlers pending discard, code =>
    .handled (handlers.map fun handler => .value (.symbol handler.exception))
      (armCode body discard (code body (.head _) pending))
      (handlersCode discard handlers fun body member => code body (.tail _ member) pending)
  | function id _ _ discard, _ => functionCode ctx id discard

/-- The code of a plan whose parts have given code. -/
def Plan.codeWith : (plan : Plan) →
    (∀ part ∈ plan.parts, Pending → Bool → Fragment Primitive) → Fragment Primitive
  | empty, _ => .empty
  | step taken, code => taken.codeWith ctx globals code
  | append first second, code =>
    first.codeWith (fun part member => code part (List.mem_append_left _ member)) ++
      second.codeWith fun part member => code part (List.mem_append_right _ member)
  | collecting value rest, code => one (.op .makeArray growableArray) ++
    (one (.setVar (hiddenSlot ctx [value] "result")) ++ rest.codeWith code)
  | after _ rest, code => rest.codeWith code
  | spaced body, code => body.codeWith code
  | skip op body, code => .skip op (body.codeWith code)
  | fork op yes no, code =>
    .fork op (yes.codeWith fun part member => code part (List.mem_append_left _ member))
      (no.codeWith fun part member => code part (List.mem_append_right _ member))
  | back op body, code => .back op (body.codeWith code)
  | guarded test body, code =>
    .guarded (test.codeWith fun part member => code part (List.mem_append_left _ member))
      (body.codeWith fun part member => code part (List.mem_append_right _ member))
  | entered op body test, code =>
    .entered op (body.codeWith fun part member => code part (List.mem_append_left _ member))
      (test.codeWith fun part member => code part (List.mem_append_right _ member))
  | scope body, code => .scope (body.codeWith code)

/-! ## The code of trees -/

/-- The code of a node for its value or, with `discard`, for its effect. -/
def codeOf (node : Node) (pending : Pending) (discard : Bool) : Fragment Primitive :=
  (planOf node pending discard).codeWith ctx globals fun part _ => codeOf part
termination_by sizeOf node
decreasing_by exact sizeOf_lt_of_mem_parts ‹_›

/-- The code of a step. -/
def Step.code (step : Step) : Fragment Primitive :=
  step.codeWith ctx globals fun part _ => codeOf ctx globals part

/-- The code of a plan. -/
def Plan.code (plan : Plan) : Fragment Primitive :=
  plan.codeWith ctx globals fun part _ => codeOf ctx globals part

/-- The code of handlers: alternatives with a common end. -/
def codeOfHandlers (handlers : List Handler) (pending : Pending) (discard : Bool) :
    Fragment Primitive :=
  handlersCode discard handlers fun body _ => codeOf ctx globals body pending

/-- The code of a function: its body, then a return. -/
def codeOfFunction (body : Node) : Fragment Primitive :=
  codeOf ctx globals body {} false ++ .finish 0

end

variable {ctx : Context} {globals : Table Symbol Value}

theorem codeOf_eq (node : Node) (pending : Pending) (discard : Bool) :
    codeOf ctx globals node pending discard =
      (planOf node pending discard).code ctx globals := by
  rw [codeOf]
  rfl

end NewtonScript.Emission
