import NewtonScript.Proofs.Agreement
import NewtonScript.Proofs.Names.Akin
import NewtonScript.Proofs.Scope.Events

/-!
# Scopes of renamed trees

A tree and the same tree in normal spelling declare and refer to the same
variables: the walks over both do the same, step by step, and fail together
for the same reason.
-/

namespace NewtonScript

/-- Two actions do the same to states that are akin, or fail alike. -/
def Parallel {σ α β : Type} (akin : σ → σ → Prop) (action : EStateM Failure σ α)
    (action' : EStateM Failure σ β) (result : α → β → Prop) : Prop :=
  Agree ⟨True, fun failure failure' first second => failure.Akin failure' ∧ akin first second⟩
    akin action action' fun value value' first second => akin first second ∧ result value value'

namespace Parallel

variable {σ α β α' β' : Type} {akin : σ → σ → Prop} {action : EStateM Failure σ α}
  {action' : EStateM Failure σ β} {result : α → β → Prop} {final : α' → β' → Prop}

theorem bind {next : α → EStateM Failure σ α'} {next' : β → EStateM Failure σ β'}
    (parallel : Parallel akin action action' result)
    (behind : ∀ value value', result value value' →
      Parallel akin (next value) (next' value') final) :
    Parallel akin (action >>= next) (action' >>= next') final := by
  refine AgreeWhere.bind parallel fun value value' => ?_
  refine AgreeWhere.of_fact (fun _ _ holds => holds.2) fun related => ?_
  exact (behind value value' related).of_related fun _ _ holds => holds.1

theorem pure {value : α} {value' : β} (related : result value value') :
    Parallel akin (pure value) (pure value') result :=
  fun _ second holds _ => ⟨value', second, rfl, holds, related⟩

theorem throw {failure failure' : Failure} (failures : failure.Akin failure') :
    Parallel akin (throw failure) (throw failure') result :=
  fun _ second holds _ => ⟨failure', second, rfl, failures, holds⟩

theorem get : Parallel akin (get : EStateM Failure σ σ) get akin :=
  fun _ second holds _ => ⟨second, second, rfl, holds, holds⟩

theorem modify {change change' : σ → σ} {result : PUnit → PUnit → Prop}
    (changes : ∀ first second, akin first second → akin (change first) (change' second))
    (related : result ⟨⟩ ⟨⟩) :
    Parallel akin (modify change) (modify change') result :=
  fun first second holds _ => ⟨⟨⟩, change' second, rfl, changes first second holds, related⟩

theorem modifyGet {change : σ → α × σ} {change' : σ → β × σ}
    (changes : ∀ first second, akin first second →
      akin (change first).2 (change' second).2 ∧ result (change first).1 (change' second).1) :
    Parallel akin (modifyGet change) (modifyGet change') result :=
  fun first second holds _ => ⟨_, _, rfl, changes first second holds⟩

end Parallel

namespace Declaration

/-- States of a declaration that differ only in the spellings of names. -/
structure State.Akin (first second : State) : Prop where
  scopes : first.scopes.Akin second.scopes
  store : first.store.Akin second.store
  bag : first.bag.Akin second.bag

/-- Two declarations do the same. -/
abbrev Does (action action' : DeclareM Unit) : Prop :=
  Parallel State.Akin action action' fun _ _ => True

variable {name name' : Symbol}

theorem does_pure : Does (pure ()) (pure ()) := .pure trivial

theorem Does.seq {action action' next next' : DeclareM Unit} (does : Does action action')
    (behind : Does next next') : Does (action >>= fun _ => next) (action' >>= fun _ => next') :=
  Parallel.bind does fun _ _ _ => behind

/-! ## Elementary actions -/

theorem parallel_scope (id : ScopeId) :
    Parallel State.Akin (scope id) (scope id) Scope.Akin :=
  Parallel.bind .get fun _ _ akin => .pure (akin.scopes.get id)

theorem does_updateScope (id : ScopeId) {change change' : Scope → Scope}
    (changes : ∀ scope scope' : Scope, scope.Akin scope' → (change scope).Akin (change' scope')) :
    Does (updateScope id change) (updateScope id change') :=
  .modify (fun _ _ akin => { akin with scopes := akin.scopes.update id changes }) trivial

theorem parallel_withStore {α β : Type} {action : Store → α × Store} {action' : Store → β × Store}
    {result : α → β → Prop}
    (acts : ∀ store store' : Store, store.Akin store' →
      result (action store).1 (action' store').1 ∧ (action store).2.Akin (action' store').2) :
    Parallel State.Akin (withStore action) (withStore action') result :=
  .modifyGet fun _ _ akin =>
    ⟨{ akin with store := (acts _ _ akin.store).2 }, (acts _ _ akin.store).1⟩

theorem does_report {diagnostic diagnostic' : Diagnostic}
    (topic : diagnostic'.topic = diagnostic.topic) :
    Does (report diagnostic) (report diagnostic') :=
  .modify (fun _ _ akin => { akin with bag := akin.bag.report topic }) trivial

theorem does_addLocal (id : ScopeId) (same : Symbol.Same name name') (span : Span)
    (written : Bool) : Does (addLocal id name span written) (addLocal id name' span written) := by
  refine Parallel.bind (parallel_scope id) fun scope scope' akin => ?_
  rw [akin.owns same]
  split
  · split
    · exact does_report rfl
    · exact does_pure
  · exact does_updateScope id fun _ _ akin =>
      { akin with locals := akin.locals.append (same.cons .nil) }

theorem does_refuseConstant (id : ScopeId) (same : Symbol.Same name name') (span : Span) :
    Does (refuseConstant id name span) (refuseConstant id name' span) := by
  refine Parallel.bind (parallel_scope id) fun scope scope' akin => ?_
  rw [akin.constants.contains same]
  split
  · exact .throw ⟨rfl, rfl⟩
  · exact does_pure

theorem does_addHidden (id : ScopeId) (same : Symbol.Same name name') (span : Span)
    (words : List String) : Does (addHidden id name span words) (addHidden id name' span words) := by
  induction words with
  | nil => exact does_pure
  | cons word rest ih =>
    refine Parallel.bind (parallel_withStore fun _ _ akin => akin.intern ?_)
      fun hidden hidden' same => (does_addLocal id same span false).seq ih
    exact foldCase_hiddenSpelling (same.cons .nil) word

theorem does_addForVariables (id : ScopeId) (same : Symbol.Same name name') (span : Span) :
    Does (addForVariables id name span) (addForVariables id name' span) := by
  refine (does_refuseConstant id same span).seq ((does_addLocal id same span false).seq
    ((does_addHidden id same span _).seq (does_updateScope id fun _ _ akin => ?_)))
  exact { akin with loopIndices := Scope.sameAll_addName akin.loopIndices same }

theorem does_addLoopVariables (id : ScopeId) (span : Span) {names names' : List Symbol}
    (all : Symbol.SameAll names names') :
    Does (addLoopVariables id span names) (addLoopVariables id span names') := by
  induction names generalizing names' with
  | nil =>
    cases names' with
    | nil => exact does_pure
    | cons => cases all
  | cons name rest ih =>
    cases names' with
    | nil => cases all
    | cons name' rest' =>
      obtain ⟨same, others⟩ := Symbol.SameAll.cons_iff.mp all
      exact (does_refuseConstant id same span).seq
        ((does_addLocal id same span false).seq (ih others))

theorem parallel_iteratorName (key : Option Symbol) (same : Symbol.Same name name') :
    Parallel State.Akin (withStore (iteratorName name key))
      (withStore (iteratorName name' (key.map Symbol.normal))) Symbol.Same := by
  refine parallel_withStore fun _ _ akin => ?_
  cases key with
  | none => exact akin.intern (foldCase_hiddenSpelling (same.cons .nil) "iter")
  | some key =>
    exact akin.intern (foldCase_hiddenSpelling (same.cons (Symbol.Same.cons
      key.folded_normal .nil)) "iter")

theorem does_addForeachVariables (id : ScopeId) (key : Option Symbol)
    (same : Symbol.Same name name') (collect : Bool) (span : Span) :
    Does (addForeachVariables id key name collect span)
      (addForeachVariables id (key.map Symbol.normal) name' collect span) := by
  have named : Symbol.SameAll (key.toList ++ [name])
      ((key.map Symbol.normal).toList ++ [name']) := by
    refine Symbol.SameAll.append ?_ (same.cons .nil)
    cases key with
    | none => exact .nil
    | some key => exact Symbol.Same.cons key.folded_normal .nil
  refine (does_addLoopVariables id span named).seq ?_
  refine Parallel.bind (parallel_iteratorName key same) fun iterator iterator' alike => ?_
  refine (does_addLocal id alike span false).seq ?_
  split
  · exact does_addHidden id same span _
  · exact does_pure

theorem parallel_arguments (params : List Param) (known : Trie Unit) {args args' : List Symbol}
    (all : Symbol.SameAll args args') :
    Parallel State.Akin (arguments params known args)
      (arguments (params.map (Param.seen .folded)) known args') Symbol.SameAll := by
  induction params generalizing known args args' with
  | nil => exact .pure (by rw [Symbol.SameAll, List.map_reverse, List.map_reverse, all])
  | cons param rest ih =>
    have same : Symbol.Same param.name (param.seen .folded).name := param.name.folded_normal
    rw [List.map_cons, arguments, arguments, same]
    split
    · exact Parallel.bind (does_report rfl) fun _ _ _ => ih known all
    · exact ih _ (same.cons all)

theorem akin_add {first second : Scopes} (akin : first.Akin second) {scope scope' : Scope}
    (alike : scope.Akin scope') (function : FuncId) :
    (first.add scope function).2.Akin (second.add scope' function).2 where
  size := by simp [Scopes.add, akin.size]
  byFunction := by simp [Scopes.add, akin.size, akin.byFunction]
  get other := by
    rw [Scopes.get_add, Scopes.get_add, akin.size]
    split
    · exact alike
    · exact akin.get other

theorem parallel_addFunction (parent : ScopeId) (function : FuncId) (params : List Param)
    (native : Bool) (name : Option Symbol) (span : Span) :
    Parallel State.Akin (addFunction parent function params native name span)
      (addFunction parent function (params.map (Param.seen .folded)) native
        (name.map Symbol.normal) span) fun inner inner' => inner' = inner := by
  refine Parallel.bind (parallel_arguments params .empty .nil) fun args args' all => ?_
  refine .modifyGet fun first second akin => ⟨?_, akin.scopes.size⟩
  refine { akin with scopes := akin_add akin.scopes ?_ function }
  exact ⟨rfl, rfl, by simp [Function.comp_def], all, .nil, rfl, .nil, .nil, rfl⟩

/-- The value of a constant expression does not depend on spellings. -/
theorem akin_constantValue? {first second : Scopes} {store store' : Store}
    (akin : first.Akin second) (stores : store.Akin store') (id : ScopeId) (node : Node) :
    (constantValue? first store id node).map Value.folded =
      (constantValue? second store' id (node.seen .folded)).map
        Value.folded := by
  induction node using Node.induction with
  | step expr span ih =>
    cases expr with
    | literal value => simp [Node.seen, Expr.seen, constantValue?, Value.renamed_normal]
    | name name =>
      have same : Symbol.Same name name.normal := name.folded_normal
      have found := akin.constant? same id
      simp only [Node.seen, Expr.seen, constantValue?, akin.chain, akin.any_owns same]
      split
      · rfl
      · rcases both_of_map_eq found with ⟨known, known'⟩ | ⟨value, value', known, known', equal⟩
        · rw [known, known']
          exact stores.constant? same
        · rw [known, known']
          exact congrArg some equal
    | unary op operand =>
      cases op with
      | complement => rfl
      | negate =>
        have part := ih operand (.head _)
        simp only [Node.seen, Expr.seen, constantValue?]
        rcases both_of_map_eq part with ⟨known, known'⟩ | ⟨value, value', known, known', equal⟩
        · rw [known, known']
        · rw [known, known']
          exact Value.Akin.negated equal
    | path object key => cases key <;> rfl
    | _ => rfl

theorem does_refuseVariable (id : ScopeId) (same : Symbol.Same name name') (span : Span) :
    Does (refuseVariable id name span) (refuseVariable id name' span) := by
  refine Parallel.bind (parallel_scope id) fun scope scope' akin => ?_
  rw [akin.owns same]
  have global : Does
      (do if id == Scopes.root && (← get).store.hasGlobal name then
        throw ⟨.constantGlobalClash name, span⟩)
      (do if id == Scopes.root && (← get).store.hasGlobal name' then
        throw ⟨.constantGlobalClash name', span⟩) := by
    refine Parallel.bind .get fun first second akin => ?_
    rw [Store.hasGlobal, Store.hasGlobal, akin.store.globals.contains same]
    split
    · exact .throw ⟨rfl, rfl⟩
    · exact does_pure
  split
  · refine Parallel.bind (.throw ?_) fun _ _ (_ : True) => global
    exact ⟨rfl, rfl⟩
  · exact global

theorem does_bindConstant (id : ScopeId) (same : Symbol.Same name name')
    {value value' : Option Value} (values : value.map Value.folded = value'.map Value.folded)
    (span : Span) : Does (bindConstant id name value span) (bindConstant id name' value' span) := by
  rcases both_of_map_eq values with ⟨rfl, rfl⟩ | ⟨value, value', rfl, rfl, equal⟩
  · exact .throw ⟨rfl, rfl⟩
  · exact does_updateScope id fun _ _ akin =>
      { akin with constants := akin.constants.insert same equal }

theorem does_bindLocal (id : ScopeId) (same : Symbol.Same name name') (span : Span) :
    Does (bindLocal id name span) (bindLocal id name' span) := by
  refine (does_refuseConstant id same span).seq ((does_addLocal id same span true).seq
    (does_updateScope id fun _ _ akin => ?_))
  exact { akin with explicitLocals := Scope.sameAll_addName akin.explicitLocals same }

/-! ## Trees -/

/-- The walks over nodes and over the nodes in normal spelling do the same. -/
theorem Follows.does {id : ScopeId} {nodes : List Node} {action action' : DeclareM Unit}
    {trail : Trail} (follows : Follows Symbol.normal id nodes action action' trail) :
    Does action action' := by
  induction follows with
  | nothing => exact does_pure
  | @single id act span simple =>
    cases act with
    | refer => exact does_pure
    | localName name => exact does_bindLocal id name.folded_normal span
    | counting var => exact does_addForVariables id var.folded_normal span
    | iterating key value collect =>
      exact does_addForeachVariables id key value.folded_normal collect span
    | constant name value =>
      cases value with
      | none =>
        exact (does_refuseVariable id name.folded_normal span).seq
          (does_bindConstant id name.folded_normal rfl span)
      | some => cases simple
    | function => cases simple
  | @constant id name span value _ _ ih =>
    refine (does_refuseVariable id name.folded_normal span).seq (ih.seq ?_)
    refine Parallel.bind .get fun state state' akin => ?_
    exact does_bindConstant id name.folded_normal
      (akin_constantValue? akin.scopes akin.store id value) span
  | andThen _ _ first second => exact first.seq second
  | parts _ _ ih => exact ih
  | function function params native name span _ ih =>
    refine Parallel.bind (parallel_addFunction _ function params native name span)
      fun inner inner' same => ?_
    rw [same]
    exact ih inner

end Declaration

/-! ## References -/

theorem Expr.children_renamed (rename : Symbol → Symbol) (expr : Expr) :
    (expr.seen (.names rename)).children = expr.children.map (Node.seen (.names rename)) := by
  cases expr with
  | path object key => cases key <;> rfl
  | localDecl bindings | constantDecl bindings =>
    simp only [Expr.seen, Expr.children, Binding.seenAll_eq, List.filterMap_map, List.map_filterMap]
    rfl
  | globalVar _ value | breakLoop value | returnValue value =>
    cases value <;> simp [Expr.seen, Expr.children]
  | send receiver _ args _ => cases receiver <;> simp [Expr.seen, Expr.children]
  | ifThen cond thenBranch elseBranch =>
    cases elseBranch <;> simp [Expr.seen, Expr.children]
  | forLoop var start limit step body => cases step <;> simp [Expr.seen, Expr.children]
  | tryCatch body handlers =>
    simp [Expr.seen, Expr.children, Function.comp_def, Handler.seen]
  | makeFrame slots => simp [Expr.seen, Expr.children, Function.comp_def, Slot.seen]
  | _ => simp [Expr.seen, Expr.children]

theorem Expr.isFunction_renamed (rename : Symbol → Symbol) (expr : Expr) :
    (expr.seen (.names rename)).isFunction = expr.isFunction := by
  cases expr with
  | path object key => cases key <;> rfl
  | _ => rfl

namespace Capture

variable {name name' : Symbol}

/-- Two walks note the same. -/
abbrev Agrees (action action' : CaptureM Unit) : Prop :=
  Parallel Scopes.Akin action action' fun _ _ => True

theorem agrees_pure : Agrees (pure ()) (pure ()) := .pure trivial

theorem akin_markAll {first second : Scopes} (akin : first.Akin second) {change : Scope → Scope}
    (changes : ∀ scope scope' : Scope, scope.Akin scope' → (change scope).Akin (change scope'))
    (ids : List ScopeId) : (markAll first change ids).Akin (markAll second change ids) := by
  induction ids generalizing first second with
  | nil => exact akin
  | cons id rest ih => exact ih (akin.update id changes)

theorem akin_usesSelf {first second : Scope} (akin : first.Akin second) :
    ({ first with usesSelf := true } : Scope).Akin { second with usesSelf := true } := by
  refine { akin with has := funext fun trait => ?_ }
  cases trait with
  | receiver => rfl
  | shares => exact congrFun akin.has .shares
  | reaches => exact congrFun akin.has .reaches

theorem akin_hasClosedOver {first second : Scope} (akin : first.Akin second)
    (locations locations' : Table Symbol Location) :
    ({ first with locations, hasClosedOver := true } : Scope).Akin
      { second with locations := locations', hasClosedOver := true } := by
  refine { akin with has := funext fun trait => ?_ }
  cases trait with
  | receiver => exact congrFun akin.has .receiver
  | shares => rfl
  | reaches => exact congrFun akin.has .reaches

theorem akin_capturesOuter {first second : Scope} (akin : first.Akin second) :
    ({ first with capturesOuter := true } : Scope).Akin { second with capturesOuter := true } := by
  refine { akin with has := funext fun trait => ?_ }
  cases trait with
  | receiver => exact congrFun akin.has .receiver
  | shares => exact congrFun akin.has .shares
  | reaches => rfl

theorem agrees_markSelf (id : ScopeId) : Agrees (markSelf id) (markSelf id) := by
  refine .modify (fun first second akin => ?_) trivial
  rw [akin.chain]
  exact akin_markAll akin (fun _ _ => akin_usesSelf) _

theorem akin_capture {first second : Scopes} (akin : first.Akin second) (owner current : ScopeId)
    (inner : List ScopeId) :
    (capture first owner current inner name).Akin (capture second owner current inner name') := by
  refine Scopes.Akin.update (akin_markAll ?_ (fun _ _ => akin_capturesOuter) inner) current
    fun _ _ akin => { akin with }
  exact akin.update owner fun _ _ akin => akin_hasClosedOver akin _ _

theorem agrees_referenceAlong (current : ScopeId) (same : Symbol.Same name name') (span : Span)
    (ids inner : List ScopeId) :
    Agrees (referenceAlong current name span ids inner)
      (referenceAlong current name' span ids inner) := by
  induction ids generalizing inner with
  | nil =>
    exact .modify (fun _ _ akin => akin.update current fun _ _ akin => { akin with }) trivial
  | cons id rest ih =>
    refine Parallel.bind .get fun first second akin => ?_
    have scopes := akin.get id
    dsimp only
    rw [scopes.owns same, scopes.isBareLoopIndex same, scopes.constants.contains same]
    split
    · split
      · exact .modify (fun _ _ akin => akin.update id fun _ _ akin => { akin with }) trivial
      · split
        · exact .throw ⟨rfl, rfl⟩
        · exact .modify (fun _ _ akin => akin_capture akin id current inner) trivial
    · split
      · exact agrees_pure
      · exact ih _

theorem agrees_reference (current : ScopeId) (same : Symbol.Same name name') (span : Span) :
    Agrees (reference current name span) (reference current name' span) := by
  refine Parallel.bind .get fun first second akin => ?_
  rw [akin.chain]
  exact agrees_referenceAlong current same span _ _

theorem agrees_note (expr : Expr) (span : Span) (id : ScopeId) :
    Agrees (note expr span id) (note (expr.seen .folded) span id) := by
  cases expr with
  | name name => exact agrees_reference id name.folded_normal span
  | selfRef => exact agrees_markSelf id
  | resend => exact agrees_markSelf id
  | send receiver =>
    cases receiver with
    | none => exact agrees_markSelf id
    | some => exact agrees_pure
  | path object key => cases key <;> exact agrees_pure
  | _ => exact agrees_pure

theorem agrees_visitAll {nodes : List Node} {id : ScopeId}
    (each : ∀ node ∈ nodes, Agrees (visit node id) (visit (node.seen .folded) id)) :
    Agrees (visitAll nodes id) (visitAll (nodes.map (Node.seen .folded)) id) := by
  induction nodes with
  | nil => exact agrees_pure
  | cons node rest ih =>
    obtain ⟨first, others⟩ := List.forall_mem_cons.mp each
    exact Parallel.bind first fun _ _ _ => ih others

/-- A tree in normal spelling has the same references. -/
theorem agrees_visit (node : Node) (id : ScopeId) :
    Agrees (visit node id) (visit (node.seen .folded) id) := by
  induction node using Node.induction generalizing id with
  | step expr span ih =>
    rw [Node.seen, visit, visit]
    cases noFunction : expr.isFunction with
    | true =>
      obtain ⟨function, params, body, native, name, rfl⟩ := Expr.eq_func_of_isFunction noFunction
      rw [Expr.seen]
      dsimp only
      refine Parallel.bind .get fun first second akin => ?_
      rw [akin.scopeOf?]
      split
      · exact ih body (by simp [Expr.inside]) _
      · exact agrees_pure
    | false =>
      have noFunction' := (expr.isFunction_renamed Symbol.normal).trans noFunction
      rw [visitExpr_eq noFunction, visitExpr_eq noFunction', Expr.children_renamed]
      exact Parallel.bind (agrees_note expr span id) fun _ _ _ => agrees_visitAll
        fun node member => ih node (Expr.mem_inside_of_mem_children member) id

theorem akin_settle {scope scope' : Scope} (akin : scope.Akin scope') :
    (settle scope).Akin (settle scope') :=
  { akin with }

end Capture

/-- What two ways to a result have in common: results that are akin, or
failures that are. -/
inductive ExceptAkin {α : Type} (akin : α → α → Prop) :
    Except Failure α → Except Failure α → Prop where
  | ok {value value' : α} (values : akin value value') : ExceptAkin akin (.ok value) (.ok value')
  | error {failure failure' : Failure} (failures : failure.Akin failure') :
      ExceptAkin akin (.error failure) (.error failure')

/-- The references of a tree in normal spelling are noted alike. -/
theorem Scopes.akin_withReferences {first second : Scopes} (akin : first.Akin second)
    (tree : Node) :
    ExceptAkin Scopes.Akin (first.withReferences tree)
      (second.withReferences (tree.seen .folded)) := by
  have agrees := Capture.agrees_visit tree Scopes.root
  unfold Scopes.withReferences
  cases run : Capture.visit tree Scopes.root first with
  | ok result visited =>
    obtain ⟨_, visited', run', kept, -⟩ := agrees.of_ok akin run trivial
    rw [run']
    refine .ok ⟨by simpa using kept.size, kept.byFunction, fun id => ?_⟩
    have settled : ∀ scopes : Scopes,
        ({ scopes with scopes := scopes.scopes.map Capture.settle } : Scopes).get id =
          if id < scopes.scopes.size then Capture.settle (scopes.get id) else scopes.get id := by
      intro scopes
      simp only [Scopes.get, Array.getD_eq_getD_getElem?, Array.getElem?_map]
      split
      · rename_i inside
        simp [inside]
      · rename_i outside
        simp [outside]
    rw [settled, settled, kept.size]
    split
    · exact Capture.akin_settle (kept.get id)
    · exact kept.get id
  | error failure visited =>
    obtain ⟨failure', visited', run', failures, -⟩ := agrees.of_error akin run trivial
    rw [run']
    exact .error failures

/-- The declarations of a tree in normal spelling are collected alike. -/
theorem Scopes.akin_ofTree (tree : Node) {store store' : Store} {bag bag' : DiagnosticBag}
    (stores : store.Akin store') (bags : bag.Akin bag') :
    ExceptAkin Scopes.Akin (Scopes.ofTree tree store bag).1
        (Scopes.ofTree (tree.seen .folded) store' bag').1 ∧
      (Scopes.ofTree tree store bag).2.1.Akin (Scopes.ofTree (tree.seen .folded) store' bag').2.1 ∧
      (Scopes.ofTree tree store bag).2.2.Akin
        (Scopes.ofTree (tree.seen .folded) store' bag').2.2 := by
  have does := (Declaration.follows_declare Symbol.normal Scopes.root tree).does
  have akin : Declaration.State.Akin ⟨.ofSpan tree.span, store, bag⟩
      ⟨.ofSpan (tree.seen .folded).span, store', bag'⟩ := by
    obtain ⟨expr, span⟩ := tree
    exact ⟨.refl _, stores, bags⟩
  unfold Scopes.ofTree
  cases run : Declaration.declare tree Scopes.root ⟨.ofSpan tree.span, store, bag⟩ with
  | ok result state =>
    obtain ⟨_, state', run', kept, -⟩ := does.of_ok akin run trivial
    rw [run']
    exact ⟨.ok kept.scopes, kept.store, kept.bag⟩
  | error failure state =>
    obtain ⟨failure', state', run', failures, kept⟩ := does.of_error akin run trivial
    rw [run']
    exact ⟨.error failures, kept.store, kept.bag⟩

end NewtonScript
