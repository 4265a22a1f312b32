import NewtonScript.Proofs.Emission.Elementary
import NewtonScript.Proofs.Emission.Parts
import NewtonScript.Proofs.Emission.Plan
import NewtonScript.Proofs.Flow.Items

/-!
# What plans are made of

The steps of the plan of a node emit parts of the node, each above the operands
that its surroundings say, assign to variables that the node assigns to, and
otherwise do what depends on the kind of the node.  A loop opens and closes
itself once, a break leaves a loop, a counting loop asks for its slots, and a
function literal has its body emitted on its own.  Every step finds the stack
as deep as the step before it left it.
-/

namespace NewtonScript.Emission

open Bytecode

/-- The depth behind code that may leave a value. -/
def withValue (present : Bool) (depth : Nat) : Nat :=
  if present then depth + 1 else depth

@[simp]
theorem withValue_true (depth : Nat) : withValue true depth = depth + 1 := rfl

@[simp]
theorem withValue_false (depth : Nat) : withValue false depth = depth := rfl

/-- What stands around the steps of a plan: what stands around the node, or
around the inside of the loop that it is. -/
def Pending.inside (pending : Pending) : Bool → Pending
  | true => pending.insideLoop
  | false => pending

/-- Surroundings with more operands. -/
abbrev Pending.Above (pending : Pending) (within : Bool) (around : Pending) : Prop :=
  ∃ count, around = (pending.inside within).below count

/-- A part of a node is emitted at a depth of the stack. -/
structure Stands (node : Node) (pending : Pending) (within : Bool) (around : Pending)
    (part : Node) (depth : Nat) : Prop where
  isPart : Part node pending within around part
  above : pending.Above within around
  operands : depth = around.operands

/-- What the steps of the plan of a node have to do with the node, and how they
change the depth of the stack. -/
def Step.Of (node : Node) (pending : Pending) (within : Bool) : Step → Nat → Nat → Prop
  | part inner around discard, depth, depth' =>
    Stands node pending within around inner depth ∧
      depth' = withValue (leavesValue inner discard) depth
  | effect inner around, depth, depth' =>
    Stands node pending within around inner depth ∧ depth' = depth
  | push value, depth, depth' =>
    (Value.isOwn value ∨ ∃ span, node = ⟨.literal value, span⟩) ∧ depth' = depth + 1
  | spelled _, depth, depth' | space, depth, depth' | path _, depth, depth'
  | lookup _, depth, depth' | nameExists _, depth, depth' => depth' = depth + 1
  | frame slots, depth, depth' => ∃ rest, depth = rest + slots.length ∧ depth' = rest + 1
  | store name keep _, depth, depth' =>
    name ∈ assignedNames node.expr ∧ ∃ rest, depth = rest + 1 ∧ depth' = withValue keep rest
  | access kind var, depth, depth' =>
    (kind.primitive 0).Moves
      ⟨fun _ => True, fun _ => var.name ∈ assignedNames node.expr, fun _ => True⟩ depth depth'
  | op opcode operand, depth, depth' =>
    (Primitive.op opcode operand).Moves (.frame 0) depth depth'
  | simple opcode, depth, depth' =>
    (Primitive.simple opcode).Moves (.frame 0) depth depth'
  | ret operands, depth, depth' =>
    within = false ∧ (∃ result span, node = ⟨.returnValue result, span⟩) ∧
      operands = pending.operands ∧ depth = operands + 1 ∧ depth' ≤ depth
  | refuseConstant .., depth, depth' => depth' = depth
  | find vars _, depth, depth' =>
    (∀ var ∈ vars, var.name ∈ node.expr.loopVariables) ∧ depth' = depth
  | fail failure, depth, depth' => Fault.Ordinary failure.fault ∧ depth' = depth
  | leave result span around, depth, depth' =>
    within = false ∧ node = ⟨.breakLoop result, span⟩ ∧ around = pending ∧
      depth = pending.operands ∧ depth' ≤ depth + 1
  | guard body handlers around discard, depth, depth' =>
    within = false ∧ (∃ span, node = ⟨.tryCatch body handlers, span⟩) ∧ around = pending.guarded ∧
      depth = pending.operands ∧ depth' = withValue (!discard) depth
  | function id span body discard, depth, depth' =>
    within = false ∧ (∃ params native name, node = ⟨.func id params body native name, span⟩) ∧
      depth' = withValue (!discard) depth

/-- Whether a step emits nothing. -/
def Step.isSilent : Step → Bool
  | refuseConstant .. | find .. | fail _ => true
  | _ => false

/-- A plan is made for a node, and leads from one depth of the stack to
another. -/
def Plan.Made (node : Node) (pending : Pending) : Bool → Plan → Nat → Nat → Prop
  | _, empty, depth, depth' => depth' = depth
  | within, step taken, depth, depth' => taken.Of node pending within depth depth'
  | within, append first second, depth, depth' =>
    ∃ middle, first.Made node pending within depth middle ∧
      second.Made node pending within middle depth'
  | within, collecting value rest, depth, depth' =>
    node.expr.gathers? = some value ∧ ∃ middle, depth = middle + 2 ∧
      (Step.access .set (.hidden [value] "result")).Of node pending within (middle + 1) middle ∧
        rest.Made node pending within middle depth'
  | within, after check rest, depth, depth' =>
    check.isSilent ∧ check.Of node pending within depth depth ∧
      rest.Made node pending within depth depth'
  | within, spaced body, depth, depth' => body.Made node pending within depth depth'
  | within, skip op body, depth, depth' =>
    op.taken? = some 1 ∧ depth = depth' + 1 ∧ body.Made node pending within depth' depth'
  | within, fork op yes no, depth, depth' =>
    op.taken? = some 1 ∧ ∃ rest, depth = rest + 1 ∧ yes.Made node pending within rest depth' ∧
      no.Made node pending within rest depth'
  | within, back op body, depth, depth' =>
    ∃ top, (op = .branch ∧ top = depth ∧ depth' ≤ depth + 1 ∨
      op.taken? = some 1 ∧ top = depth + 1 ∧ depth' = depth) ∧
        body.Made node pending within depth top
  | within, guarded test body, depth, depth' =>
    test.Made node pending within depth (depth' + 1) ∧ body.Made node pending within depth' depth
  | within, entered op body test, depth, depth' =>
    ∃ count, op.taken? = some count ∧ depth' ≤ depth ∧ body.Made node pending within depth' depth ∧
      test.Made node pending within depth (depth' + count)
  | within, scope body, depth, depth' =>
    within = false ∧ node.expr.isLoop ∧ depth = pending.operands ∧ depth' = depth + 1 ∧
      body.Made node pending true depth (depth + 1)

namespace Plan

variable {object node : Node} {span : Span} {pending around : Pending} {within : Bool}
  {depth depth' : Nat}

/-! ## Single steps -/

theorem made_value {part : Node} (isPart : Part node pending within around part)
    (above : pending.Above within around) :
    (value part around).Made node pending within around.operands (around.operands + 1) :=
  ⟨⟨isPart, above, rfl⟩, by rw [leavesValue_false, withValue_true]⟩

theorem made_arm {part : Node} (isPart : Part node pending within around part)
    (above : pending.Above within around) (discard : Bool) :
    (arm part around discard).Made node pending within around.operands
      (withValue (!discard) around.operands) := by
  cases discard with
  | true => exact ⟨⟨isPart, above, rfl⟩, rfl⟩
  | false => exact made_value isPart above

theorem made_push {value : Value} (own : value.isOwn) :
    (push value).Made node pending within depth (depth + 1) :=
  ⟨.inl own, rfl⟩

theorem made_frequent {function : Frequent} (arity : depth + 1 = depth' + function.arity) :
    (frequent function).Made node pending within depth depth' :=
  ⟨function, Frequent.ofIndex?_index function, arity⟩

/-- A step whose value may not be wanted. -/
theorem made_wanted {step : Step} (made : step.Of node pending within depth (depth + 1))
    (discard : Bool) : (onlyIf (!discard) (.step step)).Made node pending within depth
      (withValue (!discard) depth) := by
  cases discard with
  | true => rfl
  | false => exact made

theorem made_loopValue (discard : Bool) :
    (loopValue discard).Made node pending within (depth + 1) (withValue (!discard) depth) := by
  cases discard <;> rfl

theorem made_callGlobal {spelling : String} {count : Nat} (equal : depth + 1 = depth' + count) :
    (callGlobal spelling count).Made node pending within depth depth' :=
  ⟨_, rfl, equal⟩

/-! ## Rows of parts -/

theorem made_all {nodes : List Node}
    (parts : ∀ part ∈ partsOfAll nodes around, Part node pending within part.1 part.2)
    (above : pending.Above within around) :
    (all nodes around).Made node pending within around.operands
      (around.operands + nodes.length) := by
  induction nodes generalizing around with
  | nil => rfl
  | cons part rest ih =>
    obtain ⟨first, others⟩ := List.forall_mem_cons.mp parts
    obtain ⟨count, rfl⟩ := above
    have ofRest := ih others ⟨count + 1, rfl⟩
    rw [List.length_cons, Nat.add_comm rest.length, ← Nat.add_assoc]
    exact ⟨_, made_value first ⟨count, rfl⟩, ofRest⟩

theorem made_items {items : List Node} (discard : Bool)
    (parts : ∀ part ∈ items, Part node pending within around part)
    (above : pending.Above within around) :
    (Plan.items items around discard).Made node pending within around.operands
      (withValue (leavesLast items discard) around.operands) := by
  fun_induction Plan.items items around discard with
  | case1 _ discard =>
    exact made_wanted (made_push rfl) discard
  | case2 =>
    exact ⟨⟨parts _ (.head _), above, rfl⟩, rfl⟩
  | case3 item next rest around discard ih =>
    exact ⟨_, ⟨⟨parts _ (.head _), above, rfl⟩, rfl⟩,
      ih (fun part member => parts part (.tail _ member)) above⟩

theorem made_bindings_bare {declared : List Binding}
    (bare : declared.any isInitialized = false) (keep : Bool) :
    (bindings declared around keep).Made node pending within depth depth := by
  fun_induction bindings declared around keep with
  | case1 => rfl
  | case2 => cases bare
  | case3 _ _ _ _ _ _ ih => exact ih bare

theorem made_bindings {declared : List Binding} {keep : Bool}
    (parts : ∀ part ∈ declared.filterMap Binding.value, Part node pending within around part)
    (assigned : ∀ binding ∈ declared, isInitialized binding →
      binding.name ∈ assignedNames node.expr)
    (above : pending.Above within around) :
    (bindings declared around keep).Made node pending within around.operands
      (withValue (keep && declared.any isInitialized) around.operands) := by
  fun_induction bindings declared around keep with
  | case1 => 
    rw [List.any_nil, Bool.and_false]
    rfl
  | case2 name type initial span rest around keep ih =>
    obtain ⟨first, others⟩ := List.forall_mem_cons.mp parts
    obtain ⟨own, assigned⟩ := List.forall_mem_cons.mp assigned
    refine ⟨_, made_value first above, _, ⟨own rfl, _, rfl, rfl⟩, ?_⟩
    have ofRest := ih others assigned above
    rw [List.any_cons, show isInitialized ⟨name, type, some initial, span⟩ = true from rfl,
      Bool.true_or]
    -- The value stays if it is the last one; then the rest has no code.
    cases last : rest.any isInitialized with
    | true => simpa [last] using ofRest
    | false => simpa using made_bindings_bare last keep
  | case3 name type span rest around keep ih =>
    exact ih parts (List.forall_mem_cons.mp assigned).2 above

/-! ## Paths and texts -/

theorem made_base {slots : List Symbol} (isPart : Part node pending within around object)
    (above : pending.Above within around) :
    (base object around slots).Made node pending within around.operands (around.operands + 2) := by
  fun_induction base object around slots with
  | case1 _ _ _ _ _ ih => exact ih (isPart.deeper rfl (.head _)) above
  | case2 => exact ⟨_, made_value isPart above, rfl⟩

theorem made_pair {key : Node} (first : Part node pending within around object)
    (second : Part node pending within (around.below 1) key) (above : pending.Above within around) :
    (pair object key around).Made node pending within around.operands (around.operands + 2) := by
  obtain ⟨count, rfl⟩ := above
  exact ⟨_, made_value first ⟨count, rfl⟩, made_value second ⟨count + 1, rfl⟩⟩

theorem made_path {key : PathKey} {last : Step}
    (parts : ∀ part ∈ partsOf (.path object key) around, Part node pending within part.1 part.2)
    (above : pending.Above within around)
    (made : last.Of node pending within (around.operands + 2) depth) :
    (path object key around last).Made node pending within around.operands depth := by
  cases key with
  | slot => exact ⟨_, made_base (parts _ (.head _)) above, made⟩
  | computed =>
    obtain ⟨_, first, second⟩ := made_pair (parts _ (.head _)) (parts _ (.tail _ (.head _))) above
    exact ⟨_, first, _, second, made⟩

theorem made_texts {text : Node} (isPart : Part node pending within around text)
    (above : pending.Above within around) :
    (texts text around).Made node pending within around.operands
      (around.operands + textCount text) := by
  fun_induction texts text around with
  | case1 lhs rhs span around left right =>
    have ofLhs := left (isPart.deeper rfl (.head _)) above
    obtain ⟨count, rfl⟩ := above
    have ofRhs := right (isPart.deeper rfl (.tail _ (.head _)))
      ⟨count + textCount lhs, by simp [Pending.below, Nat.add_assoc]⟩
    rw [textCount, ← Nat.add_assoc]
    exact ⟨_, ofLhs, ofRhs⟩
  | case2 lhs rhs span around left right =>
    have ofLhs := left (isPart.deeper rfl (.head _)) above
    obtain ⟨count, rfl⟩ := above
    have ofRhs := right (isPart.deeper rfl (.tail _ (.head _)))
      ⟨count + (textCount lhs + 1), by simp [Pending.below, Nat.add_assoc]⟩
    rw [textCount, ← Nat.add_assoc]
    exact ⟨_, ofLhs, _, rfl, ofRhs⟩
  | case3 expr span around noJoin noSpace =>
    have single : textCount ⟨expr, span⟩ = 1 := by
      unfold textCount
      split <;> simp_all
    rw [single]
    exact made_value isPart above

theorem made_target {target : Node} (isPart : Part node pending within around target)
    (above : pending.Above within around) :
    (Plan.target target around).Made node pending within around.operands
      (around.operands + (targetOf target).depth) := by
  obtain ⟨expr, span⟩ := target
  cases expr with
  | path object key =>
    cases key with
    | slot => exact made_base (isPart.deeper rfl (.head _)) above
    | computed =>
      exact made_pair (isPart.deeper rfl (.head _)) (isPart.deeper rfl (.tail _ (.head _))) above
  | index =>
    exact made_pair (isPart.deeper rfl (.head _)) (isPart.deeper rfl (.tail _ (.head _))) above
  | name => rfl
  | _ => exact ⟨trivial, rfl⟩

theorem made_existsTest {operand : Node} (isPart : Part node pending within around operand)
    (above : pending.Above within around) :
    (Plan.existsTest operand span around).Made node pending within around.operands
      (around.operands + 1) := by
  fun_cases Plan.existsTest operand span around with
  | case1 => rfl
  | case2 => exact made_path (fun _ => isPart.deeper rfl) above (made_frequent rfl)
  | case3 => exact ⟨rfl, ⟨trivial, rfl⟩, .inl rfl, rfl⟩

theorem made_receiver {receiver : Node} {ifDefined : Bool}
    (isPart : Part node pending within around receiver) (above : pending.Above within around) :
    (Plan.receiver receiver around ifDefined).Made node pending within around.operands
      (around.operands + 1) := by
  fun_cases Plan.receiver receiver around ifDefined with
  | case1 => exact made_path (fun _ => isPart.deeper rfl) above rfl
  | case2 => exact made_value isPart above

/-! ## Loops -/

theorem made_forLoop {var : Symbol} {start limit : Node} {step : Option Node} {body : Node}
    {ofStart ofLimit ofStep ofBody : Plan} {discard : Bool}
    (isNode : node = ⟨.forLoop var start limit step body, span⟩)
    (madeStart : ofStart.Made node pending false pending.operands (pending.operands + 1))
    (madeLimit : ofLimit.Made node pending false pending.operands (pending.operands + 1))
    (madeStep : ofStep.Made node pending false pending.operands (pending.operands + 1))
    (madeBody : ofBody.Made node pending true pending.operands pending.operands) :
    (Plan.forLoop var ofStart ofLimit ofStep ofBody discard).Made node pending false
      pending.operands (withValue (!discard) pending.operands) := by
  have index : var ∈ assignedNames node.expr := by simp [isNode, assignedNames, Expr.loopVariables]
  have hidden : ∀ word ∈ ["limit", "incr"],
      (Variable.hidden [var] word).name ∈ assignedNames node.expr := by
    simp [isNode, assignedNames, Expr.loopVariables, Variable.name]
  have isLoop : node.expr.isLoop := by rw [isNode]; rfl
  exact ⟨_, madeStart, _, ⟨index, rfl⟩, _, madeLimit, _, ⟨hidden _ (.head _), rfl⟩, _, madeStep, _,
    ⟨hidden _ (.tail _ (.head _)), rfl⟩, _, ⟨rfl, isLoop, rfl, rfl, _, ⟨trivial, rfl⟩, _,
      ⟨trivial, rfl⟩, _, ⟨3, rfl, Nat.le_add_right _ 2,
        ⟨_, madeBody, _, ⟨trivial, rfl⟩, index, rfl⟩, trivial, rfl⟩, made_push rfl⟩,
    made_loopValue discard⟩

theorem made_fetchPart {iterator var : Variable} {part : Int} (own : Value.isOwn (.int part))
    (assigned : var.name ∈ assignedNames node.expr) :
    (fetchPart iterator part var).Made node pending within depth depth :=
  ⟨_, ⟨trivial, rfl⟩, _, made_push own, _, made_frequent rfl, assigned, rfl⟩

theorem made_foreachLoop {key : Option Symbol} {value : Symbol} {deeply collect : Bool}
    {collection body : Node} {ofCollection : Plan} {ofBody : Bool → Plan} {discard : Bool}
    (isNode : node = ⟨.foreachLoop key value deeply collection collect body, span⟩)
    (madeCollection : ofCollection.Made node pending false pending.operands (pending.operands + 1))
    (madeBody : ∀ drop, (ofBody drop).Made node pending true pending.operands
      (withValue (!drop) pending.operands)) :
    (Plan.foreachLoop key value deeply collect ofCollection ofBody discard).Made node pending false
      pending.operands (withValue (!discard) pending.operands) := by
  have item : value ∈ assignedNames node.expr := by
    simp [isNode, assignedNames, Expr.loopVariables]
  have iterator : (Variable.hidden (value :: key.toList) "iter").name ∈ assignedNames node.expr := by
    simp [isNode, assignedNames, Expr.loopVariables, Variable.name]
  have hidden : collect = true → ∀ word ∈ ["result", "index", "item"],
      (Variable.hidden [value] word).name ∈ assignedNames node.expr := by
    intro isTrue
    simp [isNode, assignedNames, Expr.loopVariables, Variable.name, isTrue]
  have isLoop : node.expr.isLoop := by rw [isNode]; rfl
  have pushed : Value.isOwn (if deeply then .truth else .nil) := by cases deeply <;> rfl
  have ofKey : (fetchKey (.hidden (value :: key.toList) "iter") key).Made node pending true
      pending.operands pending.operands := by
    cases key with
    | none => rfl
    | some key =>
      exact made_fetchPart rfl (by simp [isNode, assignedNames, Expr.loopVariables, Variable.name])
  have behind : ∀ depth, (push .nil ++ (set (.hidden (value :: key.toList) "iter") ++
      loopValue discard)).Made node pending false (depth + 1) (withValue (!discard) depth) :=
    fun depth => ⟨_, made_push rfl, _, ⟨iterator, rfl⟩, made_loopValue discard⟩
  have next : (get (.hidden (value :: key.toList) "iter") ++ simple .iterNext).Made node pending true
      pending.operands pending.operands := ⟨_, ⟨trivial, rfl⟩, rfl⟩
  cases collect with
  | false =>
    exact ⟨_, madeCollection, _, rfl, _, made_push pushed, _, made_frequent rfl, _, ⟨iterator, rfl⟩,
      _, ⟨rfl, isLoop, rfl, rfl, _, ⟨1, rfl, Nat.le_refl _, ⟨_, made_fetchPart rfl item, _, ofKey, _,
        madeBody true, next⟩, _, ⟨trivial, rfl⟩, rfl⟩, made_push rfl⟩, behind _⟩
  | true =>
    obtain ⟨result, index, last⟩ := by simpa using hidden rfl
    have starting : (startCollecting value).Made node pending false (pending.operands + 1)
        (pending.operands + 1) :=
      ⟨_, rfl, _, made_frequent rfl, _, rfl, by rw [isNode]; rfl, _, rfl, ⟨result, rfl⟩, _,
        made_push rfl, index, rfl⟩
    have collecting : (collectItem value).Made node pending true (pending.operands + 1)
        pending.operands :=
      ⟨_, ⟨last, rfl⟩, _, ⟨trivial, rfl⟩, _, ⟨trivial, rfl⟩, _, ⟨trivial, rfl⟩, _,
        made_frequent rfl, _, rfl, _, ⟨trivial, rfl⟩, _, made_push rfl, _, made_frequent rfl, index,
        rfl⟩
    exact ⟨_, madeCollection, _, starting, _, made_push pushed, _, made_frequent rfl, _,
      ⟨iterator, rfl⟩, _, ⟨rfl, isLoop, rfl, rfl, _, ⟨1, rfl, Nat.le_refl _,
        ⟨_, made_fetchPart rfl item, _, ofKey, _, ⟨_, madeBody false, collecting⟩, next⟩, _,
        ⟨trivial, rfl⟩, rfl⟩, trivial, rfl⟩, behind _⟩

end Plan

theorem isOwn_foldedNegation? {node : Node} {folded : Value}
    (found : foldedNegation? node = some folded) : folded.isOwn := by
  unfold foldedNegation? at found
  split at found
  · exact isOwn_negateConstant? found
  · obtain ⟨inner, -, negated⟩ := Option.bind_eq_some_iff.mp found
    exact isOwn_negateConstant? negated
  · cases found

theorem arity_of_ofCall? {name : String} {count : Nat} {function : Frequent}
    (found : Frequent.ofCall? name count = some function) : function.arity = count := by
  have holds := List.find?_some found
  simp only [Bool.and_eq_true, beq_iff_eq] at holds
  exact holds.2

theorem taken_skipOf (op : LogicalOp) : (skipOf op).taken? = some 1 := by
  cases op <;> rfl

open Plan in
/-- The plan of a node is made for the node. -/
theorem made_planOf (node : Node) (pending : Pending) (discard : Bool) :
    (planOf node pending discard).Made node pending false pending.operands
      (withValue (leavesValue node discard) pending.operands) := by
  obtain ⟨expr, span⟩ := node
  have outside : ∀ {around part}, expr.isLoop = false → (around, part) ∈ partsOf expr pending →
      Part ⟨expr, span⟩ pending false around part :=
    fun noLoop member => .of_not_isLoop noLoop member
  have here : ∀ {part}, expr.isLoop = false → (pending, part) ∈ partsOf expr pending →
      (Plan.value part pending).Made ⟨expr, span⟩ pending false pending.operands
        (pending.operands + 1) :=
    fun noLoop member => made_value (outside noLoop member) ⟨0, rfl⟩
  have beside : ∀ {count part}, expr.isLoop = false →
      (pending.below count, part) ∈ partsOf expr pending →
      (Plan.value part (pending.below count)).Made ⟨expr, span⟩ pending false
        (pending.operands + count) (pending.operands + count + 1) :=
    fun noLoop member => made_value (outside noLoop member) ⟨_, rfl⟩
  cases expr with simp only [leavesValue, withValue_true]
  | literal value =>
    refine made_wanted ?_ discard
    exact ⟨.inr ⟨span, rfl⟩, rfl⟩
  | name | selfRef =>
    refine made_wanted ?_ discard
    rfl
  | constantDecl => exact made_wanted (made_push rfl) discard
  | begin items =>
    exact made_items discard (fun part member => outside rfl (List.mem_map_of_mem member)) ⟨0, rfl⟩
  | unary op operand =>
    cases op with
    | negate =>
      simp only [planOf]
      cases found : foldedNegation? operand with
      | some folded => exact made_push (isOwn_foldedNegation? found)
      | none =>
        exact ⟨_, made_push rfl, _, beside rfl (.head _), made_frequent rfl⟩
    | complement => exact ⟨_, here rfl (.head _), made_frequent rfl⟩
  | binary op lhs rhs =>
    cases op with
    | concat | concatSpace =>
      refine ⟨_, made_texts (outside rfl (.head _)) ⟨0, rfl⟩, _, rfl, _,
        made_texts (outside rfl (.tail _ (.head _))) ⟨_, rfl⟩, _, rfl, pending.operands + 1,
        ⟨Nat.succ_pos _, ?_⟩, made_frequent rfl⟩
      simp only [Pending.below]
      omega
    | mod | shiftLeft | shiftRight =>
      exact ⟨_, here rfl (.head _), _, beside rfl (.tail _ (.head _)), made_callGlobal rfl⟩
    | _ => exact ⟨_, here rfl (.head _), _, beside rfl (.tail _ (.head _)), made_frequent rfl⟩
  | logical op lhs rhs =>
    have ofRhs := made_arm (outside rfl (.tail _ (.head _))) ⟨0, rfl⟩
    cases discard with
    | true => exact ⟨_, here rfl (.head _), taken_skipOf op, rfl, ofRhs true⟩
    | false =>
      exact ⟨_, here rfl (.head _), taken_skipOf op, _, rfl, ofRhs false,
        made_push (by cases op <;> rfl)⟩
  | existsTest => exact made_existsTest (outside rfl (.head _)) ⟨0, rfl⟩
  | path => exact made_path (fun _ => outside rfl) ⟨0, rfl⟩ rfl
  | index =>
    exact ⟨_, here rfl (.head _), _, beside rfl (.tail _ (.head _)), made_frequent rfl⟩
  | assign target assigned =>
    refine ⟨_, made_target (outside rfl (.head _)) ⟨0, rfl⟩, _, beside rfl (.tail _ (.head _)), ?_⟩
    cases isTarget : targetOf target with
    | «variable» name span => exact ⟨by simp [assignedNames, isTarget], _, rfl, rfl⟩
    | path => cases discard with
      | true => exact .inl ⟨rfl, rfl⟩
      | false => exact .inr ⟨rfl, rfl⟩
    | element => exact made_frequent rfl
  | localDecl bindings =>
    refine ⟨_, made_bindings (fun part member => outside rfl (List.mem_map_of_mem member))
      (fun binding member initialized =>
        List.mem_map_of_mem (List.mem_filter.mpr ⟨member, initialized⟩)) ⟨0, rfl⟩, ?_⟩
    cases discard <;> cases bindings.any isInitialized <;> first | rfl | exact made_push rfl
  | globalVar name value =>
    cases value with
    | some =>
      exact ⟨_, made_push rfl, _, beside rfl (.head _), made_callGlobal rfl⟩
    | none => exact ⟨_, made_push rfl, _, made_push rfl, made_callGlobal rfl⟩
  | globalFunc =>
    exact ⟨_, made_push rfl, _, beside rfl (.head _), made_callGlobal rfl⟩
  | func id params body native name => exact ⟨rfl, ⟨params, native, name, rfl⟩, rfl⟩
  | call name args =>
    refine ⟨_, made_all (fun _ => outside rfl) ⟨0, rfl⟩, ?_⟩
    simp only [Plan.callNamed]
    cases found : Frequent.ofCall? name.spelling args.length with
    | some function => exact made_frequent (by rw [arity_of_ofCall? found]; omega)
    | none => exact ⟨_, made_push rfl, Nat.add_right_comm _ _ _⟩
  | invoke function args =>
    exact ⟨_, made_all (fun _ member => outside rfl (List.mem_append_left _ member)) ⟨0, rfl⟩,
      _, beside rfl (List.mem_append_right _ (.head _)), Nat.add_right_comm _ _ _⟩
  | send receiver message args ifDefined =>
    have sent : pending.operands + args.length + 2 = pending.operands + 1 + args.length + 1 := by
      omega
    cases receiver with
    | none =>
      refine ⟨_, made_all (fun _ => outside rfl) ⟨0, rfl⟩, _, rfl, _, made_push rfl, ?_⟩
      cases ifDefined <;> exact sent
    | some receiver =>
      refine ⟨_, made_all (fun _ member => outside rfl (List.mem_append_left _ member)) ⟨0, rfl⟩,
        _, made_receiver (outside rfl (List.mem_append_right _ (.head _))) ⟨_, rfl⟩, _,
        made_push rfl, ?_⟩
      cases ifDefined <;> exact sent
  | resend message args ifDefined =>
    refine ⟨_, made_all (fun _ => outside rfl) ⟨0, rfl⟩, _, made_push rfl, ?_⟩
    cases ifDefined <;> exact Nat.add_right_comm _ _ _
  | ifThen cond thenBranch elseBranch =>
    cases elseBranch with
    | some =>
      exact ⟨_, here rfl (.head _), rfl, _, rfl,
        made_arm (outside rfl (.tail _ (.head _))) ⟨0, rfl⟩ discard,
        made_arm (outside rfl (.tail _ (.tail _ (.head _)))) ⟨0, rfl⟩ discard⟩
    | none =>
      have ofThen := made_arm (outside rfl (.tail _ (.head _))) ⟨0, rfl⟩
      cases discard with
      | true => exact ⟨_, here rfl (.head _), rfl, rfl, ofThen true⟩
      | false => exact ⟨_, here rfl (.head _), rfl, _, rfl, ofThen false, made_push rfl⟩
  | loop =>
    exact ⟨_, ⟨rfl, rfl, rfl, rfl, _, .inl ⟨rfl, rfl, Nat.le_refl _⟩,
      ⟨.inside (.head _) (.head _), ⟨0, rfl⟩, rfl⟩, rfl⟩, made_loopValue discard⟩
  | whileLoop =>
    exact ⟨_, ⟨rfl, rfl, rfl, rfl, _,
      ⟨made_value (.inside (.head _) (.head _)) ⟨0, rfl⟩,
        ⟨.inside (.tail _ (.head _)) (.tail _ (.head _)), ⟨0, rfl⟩, rfl⟩, rfl⟩,
      made_push rfl⟩, made_loopValue discard⟩
  | repeatLoop =>
    exact ⟨_, ⟨rfl, rfl, rfl, rfl, _, ⟨_, .inr ⟨rfl, rfl, rfl⟩, _,
      ⟨⟨.inside (.head _) (.head _), ⟨0, rfl⟩, rfl⟩, rfl⟩,
        made_value (.inside (.tail _ (.head _)) (.tail _ (.head _))) ⟨0, rfl⟩⟩,
      made_push rfl⟩, made_loopValue discard⟩
  | tryCatch => exact ⟨rfl, ⟨span, rfl⟩, rfl, rfl, rfl⟩
  | breakLoop => exact ⟨rfl, rfl, rfl, rfl, by cases discard <;> simp⟩
  | returnValue value =>
    have low : withValue (!discard) pending.operands ≤ pending.operands + 1 := by
      cases discard <;> simp
    cases value with
    | some => exact ⟨_, here rfl (.head _), rfl, ⟨_, span, rfl⟩, rfl, rfl, low⟩
    | none => exact ⟨_, made_push rfl, rfl, ⟨_, span, rfl⟩, rfl, rfl, low⟩
  | makeArray className elements =>
    have made : (Plan.op .makeArray elements.length).Made ⟨.makeArray className elements, span⟩
        pending false (pending.operands + elements.length + 1) (pending.operands + 1) :=
      ⟨Nat.succ_pos _, Nat.add_right_comm _ _ _⟩
    refine ⟨_, made_all (fun _ => outside rfl) ⟨0, rfl⟩, _, ?_, made⟩
    cases className with
    | some => exact made_push rfl
    | none => rfl
  | makeFrame slots =>
    refine ⟨_, made_all (fun _ => outside rfl) ⟨0, rfl⟩, _, ?_, rfl⟩
    rw [List.length_map, List.length_map]
  | forLoop var start limit step body =>
    have outer : ∀ {part}, part ∈ (Expr.forLoop var start limit step body).unlooped →
        (pending, part) ∈ partsOf (.forLoop var start limit step body) pending →
        (Plan.value part pending).Made ⟨.forLoop var start limit step body, span⟩ pending false
          pending.operands (pending.operands + 1) :=
      fun side member => made_value (.outside side member) ⟨0, rfl⟩
    have ofVar : (Step.find [.named var] span).Of ⟨.forLoop var start limit step body, span⟩
        pending false pending.operands pending.operands :=
      ⟨by simp [Expr.loopVariables, Variable.name], rfl⟩
    have ofHidden : (Step.find [.hidden [var] "limit", .hidden [var] "incr"] span).Of
        ⟨.forLoop var start limit step body, span⟩ pending false pending.operands
          pending.operands :=
      ⟨by simp [Expr.loopVariables, Variable.name], rfl⟩
    cases step with
    | some =>
      exact ⟨rfl, ofVar, rfl, ofHidden, made_forLoop rfl (outer (.head _) (.head _))
        (outer (.tail _ (.head _)) (.tail _ (.head _)))
        (outer (.tail _ (.tail _ (.head _))) (.tail _ (.tail _ (.head _))))
        ⟨⟨.inside (.head _) (.tail _ (.tail _ (.tail _ (.head _)))), ⟨0, rfl⟩, rfl⟩, rfl⟩⟩
    | none =>
      exact ⟨rfl, ofVar, rfl, ofHidden, made_forLoop rfl (outer (.head _) (.head _))
        (outer (.tail _ (.head _)) (.tail _ (.head _))) (made_push rfl)
        ⟨⟨.inside (.head _) (.tail _ (.tail _ (.head _))), ⟨0, rfl⟩, rfl⟩, rfl⟩⟩
  | foreachLoop key value deeply collection collect body =>
    refine ⟨rfl, ⟨?_, rfl⟩, rfl, ⟨?_, rfl⟩, rfl, ⟨?_, rfl⟩, rfl, ⟨?_, rfl⟩, made_foreachLoop rfl
      (made_value (.outside (.head _) (.head _)) ⟨0, rfl⟩)
      (made_arm (.inside (.head _) (.tail _ (.head _))) ⟨0, rfl⟩)⟩
    all_goals cases key <;> cases collect <;> simp [Expr.loopVariables, Variable.name]

end NewtonScript.Emission
