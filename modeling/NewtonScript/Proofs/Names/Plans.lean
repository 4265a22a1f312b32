import NewtonScript.Proofs.Emission.Script
import NewtonScript.Proofs.Tree.View

/-!
# Plans of renamed trees

The plan of a tree with its names renamed, each to one that is the same up to
the case of its letters, is the plan of the tree, renamed.
-/

namespace NewtonScript

/-- Whether a value is neither a name nor a heap object. -/
def Value.isAtom : Value → Bool
  | .nil | .truth | .int _ | .char _ | .real _ | .magic _ => true
  | _ => false

/-! ## What does not depend on names -/

section

variable (rename : Symbol → Symbol)

mutual

theorem Node.isPure_renamed : ∀ node : Node, (node.seen (.names rename)).isPure = node.isPure
  | ⟨expr, span⟩ => by rw [Node.seen, Node.isPure, Node.isPure, Expr.isPure_renamed expr]

theorem Expr.isPure_renamed : ∀ expr : Expr, (expr.seen (.names rename)).isPure = expr.isPure
  | .unary _ operand | .existsTest operand | .path operand (.slot _) => by
    rw [Expr.seen, Expr.isPure, Expr.isPure, Node.isPure_renamed operand]
  | .binary _ lhs rhs | .logical _ lhs rhs | .index lhs rhs | .path lhs (.computed rhs) => by
    rw [Expr.seen, Expr.isPure, Expr.isPure, Node.isPure_renamed lhs, Node.isPure_renamed rhs]
  | .makeArray _ elements => by
    rw [Expr.seen, Expr.isPure, Expr.isPure, Node.allPure_renamed elements]
  | .makeFrame slots => by
    rw [Expr.seen, Expr.isPure, Expr.isPure, Slot.allPure_renamed slots]
  | .literal _ | .name _ | .selfRef | .func .. | .begin _ | .assign _ _ | .localDecl _
  | .constantDecl _ | .globalVar _ _ | .globalFunc _ _ | .call _ _ | .invoke _ _ | .send _ _ _ _
  | .resend _ _ _ | .ifThen _ _ _ | .loop _ | .whileLoop _ _ | .repeatLoop _ _
  | .forLoop _ _ _ _ _ | .foreachLoop _ _ _ _ _ _ | .tryCatch _ _ | .breakLoop _
  | .returnValue _ => rfl

theorem Node.allPure_renamed :
    ∀ nodes : List Node, Node.allPure (Node.seenAll (.names rename) nodes) = Node.allPure nodes
  | [] => rfl
  | node :: rest => by
    rw [Node.seenAll, Node.allPure, Node.allPure, Node.isPure_renamed node,
      Node.allPure_renamed rest]

theorem Slot.allPure_renamed :
    ∀ slots : List Slot, Slot.allPure (Slot.seenAll (.names rename) slots) = Slot.allPure slots
  | [] => rfl
  | ⟨name, value⟩ :: rest => by
    rw [Slot.seenAll, Slot.allPure, Slot.allPure, Node.isPure_renamed value,
      Slot.allPure_renamed rest]

end

theorem negateConstant?_renamed (value : Value) :
    negateConstant? (value.renamed rename) = negateConstant? value := by
  cases value <;> rfl

namespace Emission

theorem unusedWarning?_renamed (node : Node) :
    unusedWarning? (node.seen (.names rename)) = unusedWarning? node := by
  obtain ⟨expr, span⟩ := node
  have otherwise : (if (Node.seen (.names rename) ⟨expr, span⟩).isPure then
      some (Diagnostic.unusedValue span) else none) =
      if Node.isPure ⟨expr, span⟩ then some (Diagnostic.unusedValue span) else none := by
    rw [Node.isPure_renamed]
  cases expr with
  | literal | name | selfRef | func => rfl
  | binary op =>
    cases op with
    | equal => rfl
    | _ => exact otherwise
  | path object key => cases key <;> exact otherwise
  | _ => exact otherwise

theorem foldedNegation?_renamed (node : Node) :
    foldedNegation? (node.seen (.names rename)) = foldedNegation? node := by
  induction node using Node.induction with
  | step expr span ih =>
    cases expr with
    | literal value => exact negateConstant?_renamed rename value
    | unary op operand =>
      cases op with
      | negate => exact congrArg (·.bind negateConstant?) (ih operand (.head _))
      | complement => rfl
    | path object key => cases key <;> rfl
    | _ => rfl

theorem isAtom_of_negateConstant? {value negated : Value}
    (found : negateConstant? value = some negated) : negated.isAtom = true := by
  cases value with
  | int n =>
    simp only [negateConstant?, Option.ite_none_right_eq_some, Option.some.injEq] at found
    rw [← found.2]
    rfl
  | real x =>
    cases found
    rfl
  | _ => cases found

theorem isAtom_of_foldedNegation? {node : Node} {folded : Value}
    (found : foldedNegation? node = some folded) : folded.isAtom = true := by
  unfold foldedNegation? at found
  split at found
  · exact isAtom_of_negateConstant? found
  · obtain ⟨inner, -, negated⟩ := Option.bind_eq_some_iff.mp found
    exact isAtom_of_negateConstant? negated
  · cases found

theorem any_isInitialized_renamed (bindings : List Binding) :
    (Binding.seenAll (.names rename) bindings).any isInitialized = bindings.any isInitialized := by
  induction bindings with
  | nil => rfl
  | cons binding rest ih =>
    obtain ⟨name, type, value, span⟩ := binding
    rw [Binding.seenAll, List.any_cons, ih]
    cases value <;> rfl

/-! ## Plans -/

/-- A variable with its names renamed. -/
def Variable.renamed : Variable → Variable
  | named name => named (rename name)
  | hidden parts word => hidden (parts.map rename) word

/-- A step with its names renamed. -/
def Step.renamed : Step → Step
  | part node pending discard => part (node.seen (.names rename)) pending discard
  | effect node pending => effect (node.seen (.names rename)) pending
  | push value => push (value.renamed rename)
  | path slots => path (slots.map rename)
  | frame slots => frame (slots.map rename)
  | lookup name => lookup (rename name)
  | store name keep span => store (rename name) keep span
  | nameExists name => nameExists (rename name)
  | access use var => access use (var.renamed rename)
  | refuseConstant name span => refuseConstant (rename name) span
  | find vars span => find (vars.map (Variable.renamed rename)) span
  | leave result span pending => leave (result.map (Node.seen (.names rename))) span pending
  | guard body handlers pending discard =>
    guard (body.seen (.names rename)) (handlers.map (Handler.seen (.names rename))) pending discard
  | function id span body discard => function id span (body.seen (.names rename)) discard
  | step => step

/-- A plan with its names renamed. -/
def Plan.renamed : Plan → Plan
  | empty => empty
  | step taken => step (taken.renamed rename)
  | append first second => append first.renamed second.renamed
  | collecting value rest => collecting (rename value) rest.renamed
  | after check rest => after (check.renamed rename) rest.renamed
  | spaced body => spaced body.renamed
  | skip op body => skip op body.renamed
  | fork op yes no => fork op yes.renamed no.renamed
  | back op body => back op body.renamed
  | guarded test body => guarded test.renamed body.renamed
  | entered op body test => entered op body.renamed test.renamed
  | scope body => scope body.renamed

attribute [local simp] Node.seen Expr.seen Plan.renamed Step.renamed Value.renamed

namespace Plan

@[simp]
theorem renamed_append (first second : Plan) :
    (first ++ second).renamed rename = first.renamed rename ++ second.renamed rename :=
  rfl

@[simp]
theorem renamed_onlyIf (condition : Bool) (plan : Plan) :
    (onlyIf condition plan).renamed rename = onlyIf condition (plan.renamed rename) := by
  cases condition <;> rfl

theorem all_renamed (nodes : List Node) (pending : Pending) :
    all (nodes.map (Node.seen (.names rename))) pending = (all nodes pending).renamed rename := by
  induction nodes generalizing pending with
  | nil => rfl
  | cons node rest ih => simp [all, ih]

theorem items_renamed (nodes : List Node) (pending : Pending) (discard : Bool) :
    items (nodes.map (Node.seen (.names rename))) pending discard =
      (items nodes pending discard).renamed rename := by
  fun_induction items nodes pending discard with
  | case1 => cases ‹Bool› <;> rfl
  | case2 => rfl
  | case3 item next rest pending discard ih =>
    simp only [List.map_cons] at ih ⊢
    simp [items, ih]

theorem bindings_renamed (declared : List Binding) (pending : Pending) (keep : Bool) :
    bindings (declared.map (Binding.seen (.names rename))) pending keep =
      (bindings declared pending keep).renamed rename := by
  have initialized : ∀ rest : List Binding,
      (rest.map (Binding.seen (.names rename))).any isInitialized = rest.any isInitialized := by
    intro rest
    rw [← Binding.seenAll_eq, any_isInitialized_renamed]
  fun_induction bindings declared pending keep with
  | case1 => rfl
  | case2 _ _ _ _ _ _ _ ih =>
    simp [bindings, Binding.seen, ih, initialized]
  | case3 _ _ _ _ _ _ ih => simp [bindings, Binding.seen, ih]

theorem base_renamed (node : Node) (pending : Pending) (slots : List Symbol) :
    base (node.seen (.names rename)) pending (slots.map rename) =
      (base node pending slots).renamed rename := by
  fun_induction base node pending slots with
  | case1 _ _ _ _ _ ih => simpa [base, Node.seen, PathKey.seen] using ih
  | case2 expr span pending slots others =>
    cases expr with
    | path object key =>
      cases key with
      | slot name => exact (others _ _ rfl).elim
      | computed key => rfl
    | _ => rfl

theorem textCount_renamed (node : Node) :
    textCount (node.seen (.names rename)) = textCount node := by
  fun_induction textCount node with
  | case1 _ _ _ left right | case2 _ _ _ left right => simp [textCount, left, right]
  | case3 node noJoin noSpace =>
    obtain ⟨expr, span⟩ := node
    cases expr with
    | binary op lhs rhs =>
      cases op with
      | concat => exact (noJoin _ _ _ rfl).elim
      | concatSpace => exact (noSpace _ _ _ rfl).elim
      | _ => rfl
    | path object key => cases key <;> rfl
    | _ => rfl

theorem texts_renamed (node : Node) (pending : Pending) :
    texts (node.seen (.names rename)) pending = (texts node pending).renamed rename := by
  fun_induction texts node pending with
  | case1 _ _ _ _ left right =>
    simp [texts, left, right, textCount_renamed]
  | case2 _ _ _ _ left right =>
    simp [texts, left, right, textCount_renamed]
  | case3 expr span pending noJoin noSpace =>
    cases expr with
    | binary op lhs rhs =>
      cases op with
      | concat => exact (noJoin _ _ rfl).elim
      | concatSpace => exact (noSpace _ _ rfl).elim
      | _ => rfl
    | path object key => cases key <;> rfl
    | _ => rfl

theorem path_renamed (object : Node) (key : PathKey) (pending : Pending) (last : Step) :
    path (object.seen (.names rename)) (key.seen (.names rename)) pending (last.renamed rename) =
      (path object key pending last).renamed rename := by
  cases key with
  | slot name =>
    have ofBase := base_renamed rename object pending [name]
    rw [List.map_singleton] at ofBase
    simp [path, PathKey.seen, ofBase]
  | computed key => rfl

theorem target_renamed (node : Node) (pending : Pending) :
    target (node.seen (.names rename)) pending = (target node pending).renamed rename := by
  obtain ⟨expr, span⟩ := node
  cases expr with
  | path object key =>
    cases key with
    | slot name => exact base_renamed rename object pending [name]
    | computed key => rfl
  | _ => rfl

theorem receiver_renamed (node : Node) (pending : Pending) (ifDefined : Bool) :
    receiver (node.seen (.names rename)) pending ifDefined =
      (receiver node pending ifDefined).renamed rename := by
  obtain ⟨expr, span⟩ := node
  cases expr with
  | path object key =>
    simp only [Node.seen, Expr.seen_path, receiver]
    exact path_renamed rename object key pending (.op .getPath _)
  | _ => rfl

theorem existsTest_renamed (node : Node) (span : Span) (pending : Pending) :
    existsTest (node.seen (.names rename)) span pending =
      (existsTest node span pending).renamed rename := by
  obtain ⟨expr, region⟩ := node
  cases expr with
  | path object key =>
    simp only [Node.seen, Expr.seen_path, existsTest]
    exact path_renamed rename object key pending (.op .freqFunc _)
  | _ => rfl

theorem assign_renamed (unnamed : rename default = default) (target : Node) (discard : Bool) :
    assign discard (targetOf (target.seen (.names rename))) =
      (assign discard (targetOf target)).renamed rename := by
  have refused : ∀ span : Span, assign discard (.variable default span) =
      (assign discard (.variable default span)).renamed rename := by
    intro span
    rw [assign, renamed, Step.renamed, unnamed]
  obtain ⟨expr, span⟩ := target
  cases expr with
  | name | index => rfl
  | path object key => cases key <;> rfl
  | _ => exact refused span

theorem binary_renamed (op : BinaryOp) (lhs rhs : Node) (pending : Pending) :
    binary op (lhs.seen (.names rename)) (rhs.seen (.names rename)) pending =
      (binary op lhs rhs pending).renamed rename := by
  cases op with
  | concat | concatSpace =>
    simp [binary, operationOf?, texts_renamed, textCount_renamed]
  | _ => rfl

end Plan

theorem depth_targetOf_renamed (target : Node) :
    (targetOf (target.seen (.names rename))).depth = (targetOf target).depth := by
  obtain ⟨expr, span⟩ := target
  cases expr with
  | path object key => cases key <;> rfl
  | _ => rfl

theorem leaves_targetOf_renamed (target : Node) (discard : Bool) :
    (targetOf (target.seen (.names rename))).leaves discard = (targetOf target).leaves discard := by
  obtain ⟨expr, span⟩ := target
  cases expr with
  | path object key => cases key <;> rfl
  | _ => rfl

theorem leavesValue_renamed (node : Node) (discard : Bool) :
    leavesValue (node.seen (.names rename)) discard = leavesValue node discard := by
  induction node using Node.induction generalizing discard with
  | step expr span ih =>
    cases expr with
    | begin items =>
      have ofItems : leavesLast (items.map (Node.seen (.names rename))) discard =
          leavesLast items discard := by
        induction items with
        | nil => rfl
        | cons item rest ih' =>
          cases rest with
          | nil => exact ih item (.head _) discard
          | cons next rest => exact ih' fun part member => ih part (.tail _ member)
      simpa [Node.seen, Expr.seen, leavesValue] using ofItems
    | assign target => exact leaves_targetOf_renamed rename target discard
    | path object key => cases key <;> rfl
    | _ => rfl

/-- The plan of a node with its names renamed is the plan of the node, renamed. -/
theorem planOf_renamed (folded : ∀ name, (rename name).folded = name.folded)
    (unnamed : rename default = default) (node : Node) (pending : Pending) (discard : Bool) :
    planOf (node.seen (.names rename)) pending discard =
      (planOf node pending discard).renamed rename := by
  obtain ⟨expr, span⟩ := node
  cases expr with
  | begin items =>
    simp only [Node.seen, Expr.seen, Node.seenAll_eq, planOf, Plan.items_renamed]
  | unary op operand =>
    cases op with
    | negate =>
      simp only [Node.seen, Expr.seen, planOf, foldedNegation?_renamed]
      cases found : foldedNegation? operand with
      | none => rfl
      | some value =>
        have atom := isAtom_of_foldedNegation? found
        cases value <;> first | rfl | cases atom
    | complement => rfl
  | existsTest operand => exact Plan.existsTest_renamed rename operand span pending
  | path object key =>
    simp only [Node.seen, Expr.seen_path, planOf]
    exact Plan.path_renamed rename object key pending (.op .getPath 1)
  | binary op lhs rhs => exact Plan.binary_renamed rename op lhs rhs pending
  | assign target assigned =>
    simp [planOf, Plan.target_renamed, Plan.assign_renamed rename unnamed, depth_targetOf_renamed]
  | localDecl bindings =>
    have initialized := any_isInitialized_renamed rename bindings
    simp only [Binding.seenAll_eq] at initialized
    simp [planOf, Plan.bindings_renamed, initialized]
  | globalVar name value => cases value <;> rfl
  | call name args =>
    have found : Bytecode.Frequent.ofCall? (rename name).spelling args.length =
        Bytecode.Frequent.ofCall? name.spelling args.length := by
      unfold Bytecode.Frequent.ofCall?
      rw [← (rename name).folded_eq, ← name.folded_eq, folded]
    simp only [Node.seen, Expr.seen, Node.seenAll_eq, planOf, Plan.all_renamed, List.length_map,
      Plan.callNamed, found, Plan.renamed_append]
    cases Bytecode.Frequent.ofCall? name.spelling args.length <;> rfl
  | send receiver message args ifDefined =>
    cases receiver with
    | none => simp [planOf, Plan.all_renamed]
    | some receiver =>
      simp [planOf, Plan.all_renamed, Plan.receiver_renamed]
  | logical op lhs rhs => cases discard <;> cases op <;> rfl
  | ifThen cond thenBranch elseBranch => cases elseBranch <;> cases discard <;> rfl
  | forLoop var start limit step body => cases step <;> cases discard <;> rfl
  | foreachLoop key item deeply collection collect body =>
    cases key <;> cases collect <;> cases deeply <;> cases discard <;> rfl
  | tryCatch body handlers =>
    simp only [Node.seen, Expr.seen, Handler.seenAll_eq, planOf, Plan.renamed, Step.renamed]
  | breakLoop value => cases value <;> rfl
  | returnValue value => cases value <;> rfl
  | makeArray className elements =>
    cases className <;> simp [planOf, Plan.all_renamed]
  | makeFrame slots =>
    have values : (slots.map (Slot.seen (.names rename))).map Slot.value =
        (slots.map Slot.value).map (Node.seen (.names rename)) := by
      simp [Slot.seen, Function.comp_def]
    have names : (slots.map (Slot.seen (.names rename))).map Slot.name =
        (slots.map Slot.name).map rename := by
      simp [Slot.seen, Function.comp_def]
    simp only [Node.seen, Expr.seen, Slot.seenAll_eq, planOf, values, names, Plan.all_renamed]
    rfl
  | invoke | resend =>
    simp [planOf, Plan.all_renamed]
  | _ => cases discard <;> rfl

end Emission

end

end NewtonScript
