import NewtonScript.Proofs.Code.OfTree
import NewtonScript.Proofs.Machine.Evaluation
import NewtonScript.Proofs.Machine.Runs

/-!
# Structured code carries out evaluations

The structured code of a program leads from the environment in which the
program is evaluated to the one behind it, and leaves its value on the stack
when it is wanted.  What lies deeper on the stack is not touched.
-/

namespace NewtonScript.Machine

open Bytecode Emission Evaluation

section

variable {V : Type}

/-- The variables of a function hold what an environment gives to their
names. -/
def Agrees (scope : Scope) (layout : FrameLayout) (env : Environment V) (memory : Nat → V) :
    Prop :=
  ∀ name slot, scope.slotOf? name = some slot → memory (layout.varIndex slot) = env name.folded

theorem slotOf?_congr (scope : Scope) {first second : Symbol} (same : first.folded = second.folded) :
    scope.slotOf? first = scope.slotOf? second := by
  unfold Scope.slotOf?
  congr 1
  funext known
  change (known.folded == first.folded) = (known.folded == second.folded)
  rw [same]

/-- Different names have different slots. -/
theorem folded_eq_of_slotOf? {scope : Scope} {first second : Symbol} {slot : Nat}
    (foundFirst : scope.slotOf? first = some slot) (foundSecond : scope.slotOf? second = some slot) :
    first.folded = second.folded := by
  obtain ⟨_, sameFirst, -⟩ := List.findIdx?_eq_some_iff_getElem.mp foundFirst
  obtain ⟨_, sameSecond, -⟩ := List.findIdx?_eq_some_iff_getElem.mp foundSecond
  exact (Symbol.beq_iff.mp sameFirst).symm.trans (Symbol.beq_iff.mp sameSecond)

theorem Agrees.assign {scope : Scope} {layout : FrameLayout} {env : Environment V}
    {memory : Nat → V} (agrees : Agrees scope layout env memory) {name : Symbol} {slot : Nat}
    (found : scope.slotOf? name = some slot) (value : V) :
    Agrees scope layout (env.assign name value)
      (Function.update memory (layout.varIndex slot) value) := by
  intro other slot' found'
  by_cases same : other.folded = name.folded
  · rw [slotOf?_congr scope same, found] at found'
    cases found'
    simp [Environment.assign, same]
  · have different : layout.varIndex slot' ≠ layout.varIndex slot := by
      intro equal
      rw [Nat.add_left_cancel equal] at found'
      exact same (folded_eq_of_slotOf? found' found)
    rw [Function.update_of_ne different, agrees other slot' found', Environment.assign,
      Function.update_of_ne same]

/-- A value, if it is left on the stack. -/
def kept (leaves : Bool) (value : V) : List V :=
  if leaves then [value] else []

@[simp]
theorem kept_true (value : V) : kept true value = [value] := rfl

@[simp]
theorem kept_false (value : V) : kept false value = [] := rfl

variable [DecidableEq V] (interp : Interpretation V) (ctx : Context)

/-- Structured code that replaces values on top of the stack by others, and
changes the variables from one environment to another. -/
def Carries (code : Fragment Primitive) (before after : List V) (env env' : Environment V) : Prop :=
  ∀ rest memory, Agrees (ctx.scopes.get ctx.scope) ctx.layout env memory →
    ∃ memory', Agrees (ctx.scopes.get ctx.scope) ctx.layout env' memory' ∧
      code.Runs (execItem interp ctx.layout) (branches interp)
        ⟨before ++ rest, memory⟩ ⟨after ++ rest, memory'⟩

end

section

variable {V : Type} [DecidableEq V] {interp : Interpretation V} {ctx : Context}
  {globals : Table Symbol Value} {before middle after : List V} {env env' env'' env''' : Environment V}

/-! ## Rules -/

theorem carries_empty : Carries interp ctx .empty before before env env :=
  fun _ memory agrees => ⟨memory, agrees, .empty⟩

theorem Carries.append {first second : Fragment Primitive}
    (left : Carries interp ctx first before middle env env')
    (right : Carries interp ctx second middle after env' env'') :
    Carries interp ctx (first ++ second) before after env env'' := by
  intro rest memory agrees
  obtain ⟨_, agrees, earlier⟩ := left rest memory agrees
  obtain ⟨memory'', agrees, later⟩ := right rest _ agrees
  exact ⟨memory'', agrees, .append earlier later⟩

/-- Values below those that code works on stay. -/
theorem Carries.above {code : Fragment Primitive}
    (carries : Carries interp ctx code before after env env') (deeper : List V) :
    Carries interp ctx code (before ++ deeper) (after ++ deeper) env env' := by
  intro rest memory agrees
  simpa only [List.append_assoc] using carries (deeper ++ rest) memory agrees

theorem carries_value (value : Value) :
    Carries interp ctx (one (.value value)) [] [interp.literal value] env env :=
  fun _ memory agrees => ⟨memory, agrees, .plain rfl⟩

theorem carries_pop (value : V) :
    Carries interp ctx (oneSimple .pop) [value] [] env env :=
  fun _ memory agrees => ⟨memory, agrees, .plain rfl⟩

theorem carries_frequent (function : Frequent) (args : List V)
    (count : args.length = function.arity) :
    Carries interp ctx (one (.frequent function)) args.reverse
      [interp.apply function args] env env := by
  intro rest memory agrees
  refine ⟨memory, agrees, .plain ?_⟩
  have enough : function.arity ≤ (args.reverse ++ rest).length := by simp [count]
  have taken : (args.reverse ++ rest).take function.arity = args.reverse := by
    rw [← count, ← List.length_reverse, List.take_left]
  have left : (args.reverse ++ rest).drop function.arity = rest := by
    rw [← count, ← List.length_reverse, List.drop_left]
  simp only [Primitive.frequent, execItem, Frequent.ofIndex?_index, Option.bind_some, Data.call,
    if_pos enough, taken, left, List.reverse_reverse, List.singleton_append]

theorem resolvedIn_of_slotOf? {name : Symbol} {slot : Nat}
    (found : (ctx.scopes.get ctx.scope).slotOf? name = some slot) :
    resolvedIn ctx globals name = .slot slot := by
  simp only [resolvedIn, Scopes.resolve, found]

theorem carries_name {name : Symbol} (own : ((ctx.scopes.get ctx.scope).slotOf? name).isSome) :
    Carries interp ctx (nameCode ctx globals name) [] [env name.folded] env env := by
  obtain ⟨slot, found⟩ := Option.isSome_iff_exists.mp own
  intro rest memory agrees
  refine ⟨memory, agrees, ?_⟩
  simp only [nameCode, resolvedIn_of_slotOf? found]
  refine .plain ?_
  simp only [execItem, agrees name slot found, Data.push, List.nil_append, List.singleton_append]

theorem carries_store {name : Symbol} (keep : Bool) (value : V)
    (own : ((ctx.scopes.get ctx.scope).slotOf? name).isSome) :
    Carries interp ctx (storeCode ctx globals name keep) [value] (kept keep value)
      env (env.assign name value) := by
  obtain ⟨slot, found⟩ := Option.isSome_iff_exists.mp own
  intro rest memory agrees
  refine ⟨_, agrees.assign found value, ?_⟩
  simp only [storeCode, resolvedIn_of_slotOf? found]
  cases keep with
  | true => exact .append (.plain rfl) (.plain rfl)
  | false => exact .append .empty (.plain rfl)

theorem carries_effect {node : Node} {code : Bool → Fragment Primitive} {value : V}
    (carries : Carries interp ctx (code true) [] (kept (leavesValue node true) value) env env') :
    Carries interp ctx (effectCode node code) [] [] env env' := by
  unfold effectCode
  cases leaves : leavesValue node true with
  | true =>
    rw [leaves] at carries
    exact carries.append (carries_pop value)
  | false =>
    rw [leaves] at carries
    exact carries.append carries_empty

theorem carries_arm {node : Node} {pending : Pending} {value : V} (discard : Bool)
    (carries : ∀ discard, Carries interp ctx (codeOf ctx globals node pending discard)
      [] (kept (leavesValue node discard) value) env env') :
    Carries interp ctx ((Plan.arm node pending discard).code ctx globals) []
      (kept (!discard) value) env env' := by
  cases discard with
  | true => exact carries_effect (carries true)
  | false =>
    have kept := carries false
    rw [leavesValue_false] at kept
    exact kept

/-! ## Branches -/

/-- Whether a conditional branch is taken on a value. -/
def taken (interp : Interpretation V) : LogicalOp → V → Bool
  | .conjunction, value => value = interp.nil
  | .disjunction, value => value ≠ interp.nil

theorem branches_skipOf {op : LogicalOp} {value : V} {decision : Bool}
    (decided : taken interp op value = decision) (rest : List V) (memory : Nat → V) :
    branches interp (skipOf op) ⟨[value] ++ rest, memory⟩ =
      some (decision, ⟨[] ++ rest, memory⟩) := by
  subst decided
  cases op <;> simp [skipOf, branches, taken]

theorem carries_skipOver {op : LogicalOp} {body : Fragment Primitive} {value : V}
    (jumps : taken interp op value = true) :
    Carries interp ctx (.skip (skipOf op) body) [value] [] env env :=
  fun rest memory agrees => ⟨memory, agrees, .skipOver (branches_skipOf jumps rest memory)⟩

theorem carries_skipInto {op : LogicalOp} {body : Fragment Primitive} {value : V}
    (stays : taken interp op value = false) (inner : Carries interp ctx body [] [] env env') :
    Carries interp ctx (.skip (skipOf op) body) [value] [] env env' := by
  intro rest memory agrees
  obtain ⟨memory', agrees, runs⟩ := inner rest memory agrees
  exact ⟨memory', agrees, .skipInto (branches_skipOf stays rest memory) runs⟩

theorem carries_forkYes {op : LogicalOp} {yes no : Fragment Primitive} {value : V}
    (stays : taken interp op value = false) (inner : Carries interp ctx yes [] after env env') :
    Carries interp ctx (.fork (skipOf op) yes no) [value] after env env' := by
  intro rest memory agrees
  obtain ⟨memory', agrees, runs⟩ := inner rest memory agrees
  exact ⟨memory', agrees, .forkYes (branches_skipOf stays rest memory) runs⟩

theorem carries_forkNo {op : LogicalOp} {yes no : Fragment Primitive} {value : V}
    (jumps : taken interp op value = true) (inner : Carries interp ctx no [] after env env') :
    Carries interp ctx (.fork (skipOf op) yes no) [value] after env env' := by
  intro rest memory agrees
  obtain ⟨memory', agrees, runs⟩ := inner rest memory agrees
  exact ⟨memory', agrees, .forkNo (branches_skipOf jumps rest memory) runs⟩

/-- A logical operator that is decided by its first operand. -/
theorem carries_logicalShort {op : LogicalOp} {lhs rhs : Node} {span : Span} {pending : Pending}
    {value : V} (discard : Bool)
    (left : Carries interp ctx (codeOf ctx globals lhs pending false) [] [value]
      env env') (jumps : taken interp op value = true) :
    Carries interp ctx ((planOf ⟨.logical op lhs rhs, span⟩ pending discard).code ctx globals) []
      (kept (!discard) (interp.literal (shortValue op))) env env' := by
  cases discard with
  | true => exact left.append (carries_skipOver jumps)
  | false => exact left.append (carries_forkNo jumps (carries_value _))

/-- A logical operator with the value of its second operand. -/
theorem carries_logicalRest {op : LogicalOp} {lhs rhs : Node} {span : Span} {pending : Pending}
    {value result : V} (discard : Bool)
    (left : Carries interp ctx (codeOf ctx globals lhs pending false) [] [value]
      env env') (stays : taken interp op value = false)
    (right : ∀ discard, Carries interp ctx (codeOf ctx globals rhs pending discard)
      [] (kept (leavesValue rhs discard) result) env' env'') :
    Carries interp ctx ((planOf ⟨.logical op lhs rhs, span⟩ pending discard).code ctx globals) []
      (kept (!discard) result) env env'' := by
  replace right := fun discard => carries_arm discard right
  cases discard with
  | true => exact left.append (carries_skipInto stays (right true))
  | false => exact left.append (carries_forkYes stays (right false))

/-! ## Loops -/

theorem carries_guardedOut {test body : Fragment Primitive}
    (tested : Carries interp ctx test [] [interp.nil] env env') :
    Carries interp ctx (.guarded test body) [] [] env env' := by
  intro rest memory agrees
  obtain ⟨memory', agrees, runs⟩ := tested rest memory agrees
  exact ⟨memory', agrees, .guardedOut runs (by simp [branches])⟩

theorem carries_guardedAgain {test body : Fragment Primitive} {value : V}
    (tested : Carries interp ctx test [] [value] env env') (holds : value ≠ interp.nil)
    (inner : Carries interp ctx body [] [] env' env'')
    (again : Carries interp ctx (.guarded test body) [] [] env'' env''') :
    Carries interp ctx (.guarded test body) [] [] env env''' := by
  intro rest memory agrees
  obtain ⟨_, agrees, ofTest⟩ := tested rest memory agrees
  obtain ⟨_, agrees, ofBody⟩ := inner rest _ agrees
  obtain ⟨memory', agrees, others⟩ := again rest _ agrees
  exact ⟨memory', agrees, .guardedAgain ofTest (by simp [branches, holds]) ofBody others⟩

theorem carries_backOut {body : Fragment Primitive} {value : V}
    (inner : Carries interp ctx body [] [value] env env') (holds : value ≠ interp.nil) :
    Carries interp ctx (.back .branchIfFalse body) [] [] env env' := by
  intro rest memory agrees
  obtain ⟨memory', agrees, runs⟩ := inner rest memory agrees
  exact ⟨memory', agrees, .backOut runs (by simp [branches, holds])⟩

theorem carries_backAgain {body : Fragment Primitive}
    (inner : Carries interp ctx body [] [interp.nil] env env')
    (again : Carries interp ctx (.back .branchIfFalse body) [] [] env' env'') :
    Carries interp ctx (.back .branchIfFalse body) [] [] env env'' := by
  intro rest memory agrees
  obtain ⟨_, agrees, runs⟩ := inner rest memory agrees
  obtain ⟨memory', agrees, others⟩ := again rest _ agrees
  exact ⟨memory', agrees, .backAgain runs (by simp [branches]) others⟩

theorem carries_loop {loop : Fragment Primitive} (discard : Bool)
    (carries : Carries interp ctx loop [] [] env env') :
    Carries interp ctx (.scope (loop ++ nilCode) ++ (Plan.loopValue discard).code ctx globals) []
      (kept (!discard) interp.nil) env env' := by
  have inScope : Carries interp ctx (.scope (loop ++ nilCode)) [] [interp.nil]
      env env' := by
    intro rest memory agrees
    obtain ⟨memory', agrees, runs⟩ := carries.append (carries_value .nil) rest memory agrees
    exact ⟨memory', agrees, .scope runs⟩
  cases discard with
  | true => exact inScope.append (carries_pop _)
  | false => exact inScope.append carries_empty

/-- What a whole loop does for its effect, the loop itself does. -/
theorem carries_of_loop {loop : Fragment Primitive}
    (carries : Carries interp ctx (.scope (loop ++ nilCode) ++ oneSimple .pop) [] [] env env') :
    Carries interp ctx loop [] [] env env' := by
  intro rest memory agrees
  obtain ⟨memory', agrees, runs⟩ := carries rest memory agrees
  refine ⟨memory', agrees, ?_⟩
  cases runs with
  | append inScope popped =>
    cases inScope with
    | scope inner =>
      cases inner with
      | append looped pushed =>
        cases pushed with
        | plain ran =>
          cases popped with
          | plain ran' =>
            simp only [execItem, Option.some.injEq] at ran ran'
            rw [← ran] at ran'
            simp only [Data.push, Data.simple, Option.some.injEq] at ran'
            simpa only [← ran'] using looped

end

/-! ## Programs -/

section

variable {V : Type} [DecidableEq V] (interp : Interpretation V) (ctx : Context)
  (globals : Table Symbol Value)

/-- Whether a name is a variable of the function. -/
def owned (name : Symbol) : Bool :=
  ((ctx.scopes.get ctx.scope).slotOf? name).isSome

/-- The code of a phrase carries its evaluation out. -/
def Simulates : Phrase → Environment V → V → Environment V → Prop
  | .node node, env, value, env' =>
    isStructured (owned ctx) (owned ctx) node → ∀ pending discard,
      Carries interp ctx (codeOf ctx globals node pending discard) []
        (kept (leavesValue node discard) value) env env'
  | .items items, env, value, env' =>
    areStructured (owned ctx) (owned ctx) items → ∀ pending discard,
      Carries interp ctx ((Plan.items items pending discard).code ctx globals) []
        (kept (leavesLast items discard) value) env env'
  | .bindings bindings, env, value, env' =>
    haveStructuredValues (owned ctx) (owned ctx) bindings →
      (bindings.any isInitialized = false → value = interp.nil) ∧ ∀ pending keep,
      Carries interp ctx ((Plan.bindings bindings pending keep).code ctx globals) []
        (kept (keep && bindings.any isInitialized) value) env env'

theorem any_isInitialized_of_all {bindings : List Binding}
    (bare : bindings.all fun binding => binding.value.isNone) :
    bindings.any isInitialized = false := by
  rw [List.any_eq_false]
  intro binding member
  have := List.all_eq_true.mp bare binding member
  simpa [isInitialized] using this

theorem operationOf?_eq_some {op : BinaryOp} {function : Frequent}
    (known : functionOf? op = some function) :
    operationOf? op = some (.frequent function) ∧ function.arity = 2 := by
  cases op <;> simp only [functionOf?, Option.some.injEq, reduceCtorEq] at known <;>
    subst known <;> exact ⟨rfl, rfl⟩

variable {interp} {ctx globals}

theorem Simulates.value {node : Node} {env env' : Environment V} {value : V}
    (simulates : Simulates interp ctx globals (.node node) env value env')
    (structured : isStructured (owned ctx) (owned ctx) node) (pending : Pending) :
    Carries interp ctx (codeOf ctx globals node pending false) [] [value] env env' := by
  have carries := simulates structured pending false
  rwa [leavesValue_false] at carries

variable (ctx globals)

theorem simulates {phrase : Phrase} {env env' : Environment V} {value : V}
    (evaluates : Evaluates interp phrase env value env') :
    Simulates interp ctx globals phrase env value env' := by
  induction evaluates
  case ifTrue cond thenBranch elseBranch span env env' env'' test value _ holds _ tested branch =>
    intro structured pending discard
    rw [codeOf_eq]
    have stays : taken interp .conjunction test = false := by simp [taken, holds]
    cases elseBranch with
    | some elseBranch =>
      simp only [isStructured, isStructuredExpr, Bool.and_eq_true] at structured
      have ofCond := tested.value structured.1 pending
      exact ofCond.append
        (carries_forkYes stays (carries_arm discard (branch structured.2.1 pending)))
    | none =>
      simp only [isStructured, isStructuredExpr, Bool.and_eq_true] at structured
      have ofCond := tested.value structured.1 pending
      have ofBranch := carries_arm discard (branch structured.2 pending)
      cases discard with
      | true => exact ofCond.append (carries_skipInto stays ofBranch)
      | false => exact ofCond.append (carries_forkYes stays ofBranch)
  case whileAgain _ holds _ _ tested inner again =>
    intro structured pending discard
    have others := again structured pending true
    rw [codeOf_eq] at others ⊢
    replace others := carries_of_loop others
    simp only [isStructured, isStructuredExpr, Bool.and_eq_true] at structured
    have ofCond := tested.value structured.1 pending.insideLoop
    have ofBody := carries_effect (inner structured.2 pending.insideLoop true)
    exact carries_loop discard (carries_guardedAgain ofCond holds ofBody others)
  case repeatAgain _ _ _ inner tested again =>
    intro structured pending discard
    have others := again structured pending true
    rw [codeOf_eq] at others ⊢
    replace others := carries_of_loop others
    simp only [isStructured, isStructuredExpr, Bool.and_eq_true] at structured
    have ofBody := carries_effect (inner structured.1 pending.insideLoop true)
    have ofCond := tested.value structured.2 pending.insideLoop
    exact carries_loop discard (carries_backAgain (ofBody.append ofCond) others)
  case assign _ inner =>
    intro structured pending discard
    rw [codeOf_eq]
    simp only [isStructured, isStructuredExpr, Bool.and_eq_true] at structured
    have ofValue := inner.value structured.2 (pending.below 0)
    exact carries_empty.append (ofValue.append (carries_store (!discard) _ structured.1))
  case noItem =>
    intro _ pending discard
    cases discard with
    | true => exact carries_empty
    | false => exact carries_value .nil
  case lastItem _ inner =>
    intro structured pending discard
    simp only [areStructured, Bool.and_true] at structured
    exact inner structured pending discard
  case nextItem _ _ inner others =>
    intro structured pending discard
    rw [areStructured, Bool.and_eq_true] at structured
    exact (carries_effect (inner structured.1 pending true)).append
      (others structured.2 pending discard)
  case noBinding =>
    refine fun _ => ⟨fun _ => rfl, fun pending keep => ?_⟩
    rw [List.any_nil, Bool.and_false]
    exact carries_empty
  case bare _ others =>
    intro structured
    obtain ⟨none, carries⟩ := others structured
    exact ⟨none, carries⟩
  case lastBinding name type initial span rest env env' env'' value other _ last _ inner others =>
    intro structured
    simp only [haveStructuredValues, Bool.and_eq_true] at structured
    obtain ⟨-, carries⟩ := others structured.2.2
    have bare := any_isInitialized_of_all last
    refine ⟨fun none => by simp [isInitialized] at none, fun pending keep => ?_⟩
    have ofValue := inner.value structured.2.1 pending
    have ofRest := carries pending keep
    simp only [bare, Bool.and_false] at ofRest
    simp only [Plan.bindings, bare, List.any_cons, isInitialized, Option.isSome_some,
      Bool.true_or, Bool.and_true, Bool.not_false]
    exact ofValue.append ((carries_store keep value structured.1).append
      (ofRest.above (kept keep value)))
  case nextBinding name type initial span rest env env' env'' dropped value _ more _ inner others =>
    intro structured
    simp only [haveStructuredValues, Bool.and_eq_true] at structured
    obtain ⟨-, carries⟩ := others structured.2.2
    have some : rest.any isInitialized = true := more
    refine ⟨fun none => by simp [isInitialized] at none, fun pending keep => ?_⟩
    have ofValue := inner.value structured.2.1 pending
    have ofRest := carries pending keep
    simp only [some, Bool.and_true] at ofRest
    simp only [Plan.bindings, some, List.any_cons, isInitialized, Option.isSome_some,
      Bool.true_or, Bool.and_true, Bool.not_true, Bool.and_false]
    exact ofValue.append ((carries_store false dropped structured.1).append ofRest)
  all_goals
    intro structured pending discard
    simp only [isStructured, isStructuredExpr, Bool.and_eq_true] at structured
    rw [codeOf_eq]
    simp only [leavesValue]
  case literal =>
    cases discard with
    | true => exact carries_empty
    | false => exact carries_value _
  case name =>
    cases discard with
    | true => exact carries_empty
    | false => exact carries_name structured
  case complement operand span env env' value _ inner =>
    have ofOperand := inner.value structured pending
    exact ofOperand.append (carries_frequent .complement [value] rfl)
  case binary op function lhs rhs span env env' env'' first second known _ _ left right =>
    obtain ⟨operation, arity⟩ := operationOf?_eq_some known
    simp only [planOf, Plan.binary, operation]
    have ofLhs := left structured.2.1 pending false
    have ofRhs := right structured.2.2 (pending.below 1) false
    rw [leavesValue_false] at ofLhs ofRhs
    exact ofLhs.append ((ofRhs.above [first]).append
      (carries_frequent function [first, second] arity.symm))
  case andShort _ left =>
    have ofLhs := left.value structured.1 pending
    exact carries_logicalShort discard ofLhs (by simp [taken])
  case andRest _ holds _ left right =>
    have ofLhs := left.value structured.1 pending
    exact carries_logicalRest discard ofLhs (by simp [taken, holds]) (right structured.2 pending)
  case orShort _ holds left =>
    have ofLhs := left.value structured.1 pending
    exact carries_logicalShort discard ofLhs (by simp [taken, holds])
  case orRest _ _ left right =>
    have ofLhs := left.value structured.1 pending
    exact carries_logicalRest discard ofLhs (by simp [taken]) (right structured.2 pending)
  case ifFalse _ _ tested branch =>
    have jumps : taken interp .conjunction interp.nil = true := by simp [taken]
    have ofCond := tested.value structured.1 pending
    exact ofCond.append (carries_forkNo jumps (carries_arm discard (branch structured.2.2 pending)))
  case ifNeither _ tested =>
    have jumps : taken interp .conjunction interp.nil = true := by simp [taken]
    have ofCond := tested.value structured.1 pending
    cases discard with
    | true => exact ofCond.append (carries_skipOver jumps)
    | false => exact ofCond.append (carries_forkNo jumps (carries_value .nil))
  case begin _ inner =>
    exact inner structured pending discard
  case declare bindings span env env' value _ inner =>
    obtain ⟨none, carries⟩ := inner structured
    refine (carries pending (!discard)).append ?_
    change Carries interp ctx ((Plan.onlyIf _ _).code ctx globals) _ _ _ _
    cases initialized : bindings.any isInitialized with
    | true =>
      simp only [Bool.and_true, Bool.not_true, Bool.and_false]
      exact carries_empty
    | false =>
      rw [none initialized]
      cases discard with
      | true => exact carries_empty
      | false => exact carries_value .nil
  case whileDone _ tested =>
    have ofCond := tested.value structured.1 pending.insideLoop
    exact carries_loop discard (carries_guardedOut ofCond)
  case repeatDone _ _ holds inner tested =>
    have ofBody := carries_effect (inner structured.1 pending.insideLoop true)
    have ofCond := tested.value structured.2 pending.insideLoop
    exact carries_loop discard (carries_backOut (ofBody.append ofCond) holds)

end

end NewtonScript.Machine
