import NewtonScript.Proofs.Scope.Events

/-!
# What events leave

An event adds variables to its scope, binds a constant, or opens a scope for a
function literal.  What every event keeps is kept by the walk over a tree:
nothing that was declared is lost, scopes are numbered behind those around
them, and the variables of a function are distinct.
-/

namespace NewtonScript.Declaration

variable {before after : State} {trail : Trail} {id : ScopeId} {nodes : List Node}
  {action other : DeclareM Unit} {rename : Symbol → Symbol}

/-! ## Carrying out events -/

theorem performAll_append (first second : List Event) :
    performAll (first ++ second) = performAll first >>= fun _ => performAll second := by
  induction first with
  | nil => rfl
  | cons event rest ih => simp [performAll, ih]

@[simp]
theorem opened_append (first second : List Event) :
    opened (first ++ second) = opened first + opened second :=
  List.countP_append

section

variable {id : ScopeId} {before after : State} {name : Symbol} {span : Span}

theorem withStore_run {α : Type} {action : Store → α × Store} {value : α}
    (run : withStore action before = .ok value after) :
    value = (action before.store).1 ∧
      after = { before with store := (action before.store).2 } := by
  cases run
  exact ⟨rfl, rfl⟩

theorem refuseConstant_run (run : refuseConstant id name span before = .ok () after) :
    before = after ∧ (before.scopes.get id).constants.contains name = false := by
  obtain ⟨_, _, read, run⟩ := run_bind_eq_ok run
  cases read
  split at run
  · cases run
  · rename_i free
    cases run
    exact ⟨rfl, Bool.eq_false_iff.mpr free⟩

theorem refuseVariable_run (run : refuseVariable id name span before = .ok () after) :
    before = after ∧ (before.scopes.get id).owns name = false := by
  obtain ⟨_, _, read, run⟩ := run_bind_eq_ok run
  cases read
  split at run
  · cases run
  · rename_i free
    obtain ⟨_, _, read, run⟩ := run_bind_eq_ok run
    cases read
    split at run
    · cases run
    · cases run
      exact ⟨rfl, Bool.eq_false_iff.mpr free⟩

/-- A constant expression declares nothing. -/
theorem declare_eq_pure {scopes : Scopes} {store : Store} (node : Node) {value : Value}
    (found : constantValue? scopes store id node = some value) :
    declare node id = pure () ∧ node.functionIds = [] := by
  induction node using Node.induction generalizing value with
  | step expr span ih =>
    rw [Node.functionIds_eq]
    cases expr with
    | literal => exact ⟨rfl, rfl⟩
    | name => exact ⟨rfl, rfl⟩
    | unary op operand =>
      cases op with
      | negate =>
        obtain ⟨inner, found, -⟩ := Option.bind_eq_some_iff.mp found
        have inner := ih operand (by simp [Expr.inside, Expr.children]) found
        exact ⟨inner.1, by simp [Expr.inside, Expr.children, Expr.functionId?, inner.2]⟩
      | _ => cases found
    | _ => cases found

/-- A constant is no variable of its function, and it is bound to the value
that its initializer has at this place. -/
theorem declareConstant_run {value : Option Node}
    (run : declareConstant id name value span before = .ok () after) :
    (before.scopes.get id).owns name = false ∧ ∃ node bound, value = some node ∧
      constantValue? before.scopes before.store id node = some bound ∧
        after = { before with
          scopes := before.scopes.update id fun scope =>
            { scope with constants := scope.constants.insert name bound } } := by
  obtain ⟨_, middle, refused, run⟩ := run_bind_eq_ok run
  obtain ⟨rfl, free⟩ := refuseVariable_run refused
  refine ⟨free, ?_⟩
  cases value with
  | none => cases run
  | some node =>
    obtain ⟨_, middle, declared, run⟩ := run_bind_eq_ok run
    obtain ⟨_, _, got, run⟩ := run_bind_eq_ok run
    cases got
    cases found : constantValue? middle.scopes middle.store id node with
    | none =>
      rw [found] at run
      cases run
    | some bound =>
      rw [(declare_eq_pure node found).1] at declared
      cases declared
      rw [found] at run
      cases run
      exact ⟨node, bound, rfl, found, rfl⟩

/-- The arguments of a function literal are the names of its parameters, each
of them once. -/
theorem arguments_eq_ok (params : List Param) {known : Trie Unit} {args : List Symbol}
    (tracks : ∀ name : Symbol, (known.get? name.folded.toList).isSome = args.contains name)
    (distinct : args.Pairwise fun first second => (second == first) = false) (state : State) :
    ∃ result bag, arguments params known args state = .ok result { state with bag } ∧
      (result.Pairwise fun first second => (first == second) = false) ∧
      ∀ name, result.contains name = (args.contains name || (params.map Param.name).contains name) := by
  induction params generalizing known args state with
  | nil =>
    refine ⟨args.reverse, state.bag, rfl, List.pairwise_reverse.mpr distinct, fun name => ?_⟩
    simp [List.contains_eq_any_beq]
  | cons param rest ih =>
    rw [arguments, tracks]
    split
    · rename_i repeated
      obtain ⟨result, bag, run, apart, members⟩ := ih tracks distinct { state with bag := _ }
      refine ⟨result, bag, run, apart, fun name => ?_⟩
      rw [members, List.map_cons]
      by_cases same : (name == param.name) = true
      · rw [← tracks name, Symbol.beq_iff.mp same, tracks, repeated]
        simp
      · simp [same]
    · rename_i fresh
      have tracks' : ∀ name : Symbol, ((known.insert () param.name.folded.toList).get?
          name.folded.toList).isSome = (param.name :: args).contains name := by
        intro name
        rw [Trie.get?_insert, List.contains_cons, ← tracks]
        by_cases same : name.folded = param.name.folded
        · simp [same, Symbol.beq_iff.mpr same]
        · simp [String.toList_inj, same, Bool.eq_false_iff.mpr (mt Symbol.beq_iff.mp same)]
      have distinct' : (param.name :: args).Pairwise fun first second => (second == first) = false := by
        refine List.pairwise_cons.mpr ⟨fun own member => Bool.eq_false_iff.mpr fun equal => ?_, distinct⟩
        exact fresh (List.contains_iff_exists_mem_beq.mpr ⟨own, member, by rwa [BEq.comm]⟩)
      obtain ⟨result, bag, run, apart, members⟩ := ih tracks' distinct' state
      refine ⟨result, bag, run, apart, fun name => ?_⟩
      rw [members, List.map_cons, List.contains_cons, List.contains_cons]
      simp only [Bool.or_assoc, Bool.or_left_comm]

/-- The scope of a function literal has its arguments and nothing else. -/
structure Fresh (parent : ScopeId) (params : List Param) (scope : Scope) : Prop where
  parent : scope.parent = some parent
  args : ∀ name, scope.args.contains name = (params.map Param.name).contains name
  constants : scope.constants = .empty
  has : ∀ trait, scope.has trait = false
  tidy : scope.Tidy

/-- Opening a scope never fails. -/
theorem addFunction_eq_ok (parent : ScopeId) (function : FuncId) (params : List Param)
    (native : Bool) (name : Option Symbol) (span : Span) (state : State) :
    ∃ scope bag, Fresh parent params scope ∧
      addFunction parent function params native name span state =
        .ok state.scopes.scopes.size
          { state with scopes := (state.scopes.add scope function).2, bag } := by
  obtain ⟨args, bag, run, distinct, members⟩ :=
    @arguments_eq_ok params .empty [] (fun name => by simp) .nil state
  let scope : Scope := { parent := some parent, span, name, native, args }
  refine ⟨scope, bag, ⟨rfl, members, rfl, fun trait => by cases trait <;> rfl, ?_⟩,
    run_bind_of_ok run _⟩
  refine ⟨?_, fun _ member => ?_, fun _ member => ?_⟩
  · simpa [Scope.names, scope] using distinct
  · cases member
  · cases member

end

/-! ## What events declare -/

/-- The variables that the text names. -/
def Act.written : Act → List Symbol
  | .localName name => [name]
  | .counting var => [var]
  | .iterating key value _ => key.toList ++ [value]
  | _ => []

/-- The hidden variables of loops. -/
def Act.hidden : Act → List Symbol
  | .counting var => ["limit", "incr"].map fun word => .ofString (hiddenSpelling [var] word)
  | .iterating key value collect =>
    .ofString (hiddenSpelling (value :: key.toList) "iter") ::
      if collect then
        ["index", "result", "item"].map fun word => .ofString (hiddenSpelling [value] word)
      else
        []
  | _ => []

/-- The constants. -/
def Act.constants : Act → List Symbol
  | .constant name _ => [name]
  | _ => []

/-- A scope got no other variables than these, and no constants. -/
structure Gains (names : List Symbol) (before after : Scope) : Prop where
  parent : after.parent = before.parent
  args : after.args = before.args
  constants : after.constants = before.constants
  has : after.has = before.has
  tidy : before.Tidy → after.Tidy
  grows : ∀ name, before.owns name = true → after.owns name = true
  owns : ∀ name, after.owns name = true →
    before.owns name = true ∨ ∃ own ∈ names, (own == name) = true

namespace Gains

variable {names others : List Symbol} {before middle after : Scope}

theorem refl (names : List Symbol) (scope : Scope) : Gains names scope scope :=
  ⟨rfl, rfl, rfl, rfl, fun tidy => tidy, fun _ owned => owned, fun _ => .inl⟩

theorem trans (earlier : Gains names before middle) (later : Gains others middle after) :
    Gains (names ++ others) before after where
  parent := later.parent.trans earlier.parent
  args := later.args.trans earlier.args
  constants := later.constants.trans earlier.constants
  has := later.has.trans earlier.has
  tidy tidy := later.tidy (earlier.tidy tidy)
  grows name owned := later.grows name (earlier.grows name owned)
  owns name owned := by
    rcases later.owns name owned with owned | ⟨own, member, same⟩
    · rcases earlier.owns name owned with owned | ⟨own, member, same⟩
      · exact .inl owned
      · exact .inr ⟨own, List.mem_append_left _ member, same⟩
    · exact .inr ⟨own, List.mem_append_right _ member, same⟩

theorem addLocal {scope : Scope} {name : Symbol} (fresh : scope.owns name = false) :
    Gains [name] scope (scope.addLocal name) where
  parent := rfl
  args := rfl
  constants := rfl
  has := rfl
  tidy tidy := tidy.addLocal fresh
  grows _ := Scope.owns_addLocal
  owns other owned := by
    obtain ⟨own, member, same⟩ := Scope.owns_iff.mp owned
    rw [Scope.names_addLocal, List.mem_append] at member
    exact member.imp (fun old => Scope.owns_iff.mpr ⟨own, old, same⟩) fun new => ⟨own, new, same⟩

end Gains

/-- Between two states, a scope got variables. -/
structure Named (id : ScopeId) (names : List Symbol) (before after : Scopes) : Prop where
  size : after.scopes.size = before.scopes.size
  byFunction : after.byFunction = before.byFunction
  elsewhere : ∀ other, other ≠ id → after.get other = before.get other
  gains : Gains names (before.get id) (after.get id)
  owned : id < before.scopes.size → ∀ name ∈ names, (after.get id).owns name = true

namespace Named

variable {id : ScopeId} {names others : List Symbol} {before middle after : Scopes}

theorem refl (id : ScopeId) (scopes : Scopes) : Named id [] scopes scopes :=
  ⟨rfl, rfl, fun _ _ => rfl, .refl _ _, by simp⟩

theorem trans (earlier : Named id names before middle) (later : Named id others middle after) :
    Named id (names ++ others) before after where
  size := later.size.trans earlier.size
  byFunction := later.byFunction.trans earlier.byFunction
  elsewhere other different :=
    (later.elsewhere other different).trans (earlier.elsewhere other different)
  gains := earlier.gains.trans later.gains
  owned inside := List.forall_mem_append.mpr
    ⟨fun name member => later.gains.grows name (earlier.owned inside name member),
      later.owned (earlier.size.symm ▸ inside)⟩

theorem gainsAt (named : Named id names before after) (other : ScopeId) :
    Gains names (before.get other) (after.get other) := by
  by_cases same : other = id
  · exact same ▸ named.gains
  · rw [named.elsewhere other same]
    exact .refl _ _

theorem of_same {name other : Symbol} (named : Named id [name] before after)
    (same : (name == other) = true) : Named id [other] before after where
  size := named.size
  byFunction := named.byFunction
  elsewhere := named.elsewhere
  gains := { named.gains with
    owns := fun found owned => (named.gains.owns found owned).imp_right fun ⟨_, member, equal⟩ =>
      ⟨other, List.mem_cons_self,
        BEq.trans (BEq.symm same) (List.mem_singleton.mp member ▸ equal)⟩ }
  owned inside := List.forall_mem_singleton.mpr
    (Scope.owns_congr (named.owned inside name List.mem_cons_self) same)

theorem update {change : Scope → Scope}
    (gains : id < before.scopes.size → Gains names (before.get id) (change (before.get id)))
    (owned : ∀ name ∈ names, (change (before.get id)).owns name = true) :
    Named id names before (before.update id change) where
  size := Scopes.size_update _ _ _
  byFunction := rfl
  elsewhere other different := by
    rw [Scopes.get_update, if_neg fun same => different same.1.symm]
  gains := by
    rw [Scopes.get_update]
    split
    · rename_i inside
      exact gains inside.2
    · exact .refl _ _
  owned inside := by
    rw [Scopes.get_update, if_pos ⟨rfl, inside⟩]
    exact owned

end Named

section

variable {id : ScopeId} {before after : State}

theorem named_addLocal {name : Symbol} {span : Span} {written : Bool}
    (run : addLocal id name span written before = .ok () after) :
    Named id [name] before.scopes after.scopes := by
  obtain ⟨_, _, read, run⟩ := run_bind_eq_ok run
  cases read
  split at run
  · rename_i owned
    have kept : after.scopes = before.scopes := by
      split at run <;> cases run <;> rfl
    rw [kept]
    exact ⟨rfl, rfl, fun _ _ => rfl, .refl _ _, fun _ => List.forall_mem_singleton.mpr owned⟩
  · rename_i fresh
    cases run
    exact .update (fun _ => .addLocal (Bool.eq_false_iff.mpr fresh))
      (List.forall_mem_singleton.mpr (Scope.owns_addLocal_self _ _))

theorem named_addHidden {var : Symbol} {span : Span} (words : List String)
    (run : addHidden id var span words before = .ok () after) :
    Named id (words.map fun word => .ofString (hiddenSpelling [var] word))
      before.scopes after.scopes := by
  induction words generalizing before with
  | nil =>
    cases run
    exact .refl id _
  | cons word rest ih =>
    obtain ⟨_, _, interned, run⟩ := run_bind_eq_ok run
    obtain ⟨rfl, rfl⟩ := withStore_run interned
    obtain ⟨_, middle, added, run⟩ := run_bind_eq_ok run
    have first : Named id [.ofString (hiddenSpelling [var] word)] before.scopes middle.scopes :=
      (named_addLocal added).of_same (Store.intern_eq _ _)
    exact first.trans (ih run)

/-- The loop variables that the text names are no constants. -/
theorem named_addLoopVariables {span : Span} (names : List Symbol)
    (run : addLoopVariables id span names before = .ok () after) :
    Named id names before.scopes after.scopes ∧
      ∀ name ∈ names, (before.scopes.get id).constants.contains name = false := by
  induction names generalizing before with
  | nil =>
    cases run
    exact ⟨.refl id _, by simp⟩
  | cons name rest ih =>
    obtain ⟨_, _, refused, run⟩ := run_bind_eq_ok run
    obtain ⟨rfl, free⟩ := refuseConstant_run refused
    obtain ⟨_, middle, added, run⟩ := run_bind_eq_ok run
    have first := named_addLocal added
    obtain ⟨others, apart⟩ := ih run
    rw [first.gains.constants] at apart
    exact ⟨first.trans others, List.forall_mem_cons.mpr ⟨free, apart⟩⟩

/-- What is noted about a variable of a scope names no others. -/
theorem named_note {change : Scope → Scope} {scopes : Scopes} {names : List Symbol}
    (named : Named id names before.scopes scopes)
    (noted : (∀ name ∈ names, (scopes.get id).owns name = true) →
      Gains [] (scopes.get id) (change (scopes.get id))) :
    Named id names before.scopes (scopes.update id change) := by
  have note : Named id [] scopes (scopes.update id change) :=
    .update (fun inside => noted (named.owned (named.size ▸ inside))) (by simp)
  have both := named.trans note
  rwa [List.append_nil] at both

end

/-- Between two states, a scope got a constant. -/
structure Binds (id : ScopeId) (name : Symbol) (bound : Value) (before after : Scopes) : Prop where
  size : after.scopes.size = before.scopes.size
  byFunction : after.byFunction = before.byFunction
  parent : ∀ other, (after.get other).parent = (before.get other).parent
  args : ∀ other, (after.get other).args = (before.get other).args
  has : ∀ other, (after.get other).has = (before.get other).has
  tidy : ∀ other, (before.get other).Tidy → (after.get other).Tidy
  owns : ∀ other found, (after.get other).owns found = (before.get other).owns found
  constants : ∀ other, (after.get other).constants =
    if id = other ∧ other < before.scopes.size then
      (before.get other).constants.insert name bound
    else
      (before.get other).constants

theorem binds_update (scopes : Scopes) (id : ScopeId) (name : Symbol) (bound : Value) :
    Binds id name bound scopes (scopes.update id fun scope =>
      { scope with constants := scope.constants.insert name bound }) := by
  refine ⟨Scopes.size_update _ _ _, rfl, fun other => ?_, fun other => ?_, fun other => ?_,
    fun other tidy => ?_, fun other found => ?_, fun other => ?_⟩ <;>
      rw [Scopes.get_update] <;> split
  case refine_4.isTrue => exact ⟨tidy.distinct, tidy.loopIndices, tidy.explicitLocals⟩
  case refine_4.isFalse => exact tidy
  all_goals rfl

/-- What an event does to the scopes.  The variables that it names were no
constants, and its constant was no variable. -/
inductive Effect (event : Event) (before after : State) : Prop where
  | nothing (act : event.act.isSimple = true) (constants : event.act.constants = [])
      (names : event.act.written ++ event.act.hidden = []) (same : after = before)
  | named (act : event.act.isSimple = true) (constants : event.act.constants = [])
      (named : Named event.scope (event.act.written ++ event.act.hidden) before.scopes after.scopes)
      (free : ∀ name ∈ event.act.written,
        (before.scopes.get event.scope).constants.contains name = false)
  | bound (name : Symbol) (node : Node) (value : Value)
      (act : event.act = .constant name (some node))
      (found : constantValue? before.scopes before.store event.scope node = some value)
      (binds : Binds event.scope name value before.scopes after.scopes)
      (free : (before.scopes.get event.scope).owns name = false)
  | opened (scope : Scope) (function : FuncId) (params : List Param) (native : Bool)
      (name : Option Symbol) (act : event.act = .function function params native name)
      (fresh : Fresh event.scope params scope)
      (added : after.scopes = (before.scopes.add scope function).2)

theorem effect_of_perform {event : Event} (run : event.perform before = .ok () after) :
    Effect event before after := by
  obtain ⟨id, act, span⟩ := event
  cases act with
  | refer name =>
    cases run
    exact .nothing rfl rfl rfl rfl
  | constant name value =>
    obtain ⟨free, node, bound, rfl, found, rfl⟩ := declareConstant_run run
    exact .bound name node bound rfl found (binds_update _ _ _ _) free
  | function function params native name =>
    obtain ⟨scope, bag, fresh, opened⟩ :=
      addFunction_eq_ok id function params native name span before
    cases (run_bind_of_ok opened _).symm.trans run
    exact .opened scope function params native name rfl fresh rfl
  | localName name =>
    obtain ⟨_, _, refused, run⟩ := run_bind_eq_ok run
    obtain ⟨rfl, free⟩ := refuseConstant_run refused
    obtain ⟨_, middle, added, run⟩ := run_bind_eq_ok run
    cases run
    refine .named rfl rfl (named_note (named_addLocal added) fun owned => ?_)
      (List.forall_mem_singleton.mpr free)
    refine ⟨rfl, rfl, rfl, rfl, fun tidy => ⟨tidy.distinct, tidy.loopIndices, ?_⟩,
      fun _ owned => owned, fun _ => .inl⟩
    intro other member
    rcases Scope.mem_addName member with before | rfl
    · exact tidy.explicitLocals other before
    · exact owned other List.mem_cons_self
  | counting var =>
    obtain ⟨_, _, refused, run⟩ := run_bind_eq_ok run
    obtain ⟨rfl, free⟩ := refuseConstant_run refused
    obtain ⟨_, middle, added, run⟩ := run_bind_eq_ok run
    obtain ⟨_, final, hidden, run⟩ := run_bind_eq_ok run
    cases run
    have both := (named_addLocal added).trans (named_addHidden _ hidden)
    refine .named rfl rfl (named_note both fun owned => ?_) (List.forall_mem_singleton.mpr free)
    refine ⟨rfl, rfl, rfl, rfl, fun tidy => ⟨tidy.distinct, ?_, tidy.explicitLocals⟩,
      fun _ owned => owned, fun _ => .inl⟩
    intro other member
    rcases Scope.mem_addName member with before | rfl
    · exact tidy.loopIndices other before
    · exact owned other List.mem_cons_self
  | iterating key value collect =>
    obtain ⟨_, first, loops, run⟩ := run_bind_eq_ok run
    obtain ⟨_, _, interned, run⟩ := run_bind_eq_ok run
    obtain ⟨rfl, rfl⟩ := withStore_run interned
    obtain ⟨_, second, added, run⟩ := run_bind_eq_ok run
    obtain ⟨written, free⟩ := named_addLoopVariables _ loops
    have same : ((iteratorName value key first.store).1 ==
        Symbol.ofString (hiddenSpelling (value :: key.toList) "iter")) = true := by
      rw [iteratorName_eq]
      exact Store.intern_eq _ _
    have own : Named id [.ofString (hiddenSpelling (value :: key.toList) "iter")]
        first.scopes second.scopes := (named_addLocal added).of_same same
    refine .named rfl rfl (written.trans (own.trans ?_)) free
    cases collect with
    | true => exact named_addHidden _ run
    | false =>
      cases run
      exact .refl id _

/-- An event adds a scope exactly when it opens one. -/
theorem size_of_perform {event : Event} (run : event.perform before = .ok () after) :
    after.scopes.scopes.size = before.scopes.scopes.size + if event.opens then 1 else 0 := by
  have simple : event.act.isSimple = true → event.opens = false := by
    obtain ⟨id, act, span⟩ := event
    intro simple
    cases act with
    | function => cases simple
    | _ => rfl
  cases effect_of_perform run with
  | nothing act _ _ same => rw [simple act, same, if_neg Bool.false_ne_true, Nat.add_zero]
  | named act _ named _ => rw [simple act, named.size, if_neg Bool.false_ne_true, Nat.add_zero]
  | bound _ _ _ act _ binds _ =>
    obtain ⟨id, _, span⟩ := event
    cases act
    exact binds.size
  | opened _ _ _ _ _ act _ added =>
    obtain ⟨id, _, span⟩ := event
    cases act
    simp [added, Scopes.add, Event.opens]

theorem size_of_performAll (events : List Event) (run : performAll events before = .ok () after) :
    after.scopes.scopes.size = before.scopes.scopes.size + opened events := by
  induction events generalizing before with
  | nil =>
    cases run
    rfl
  | cons event rest ih =>
    obtain ⟨_, middle, first, run⟩ := run_bind_eq_ok run
    rw [ih run, size_of_perform first, opened, opened, List.countP_cons]
    omega

/-- A walk comes to the same end as its events. -/
theorem Follows.run_eq (follows : Follows rename id nodes action other trail) (state : State) :
    action state = performAll (trail state.scopes.scopes.size) state := by
  induction follows generalizing state with
  | nothing => rfl
  | single act span => simp [Trail.single, performAll]
  | constant name span => simp [Trail.single, performAll]
  | andThen _ _ first second =>
    rw [Trail.andThen, performAll_append]
    cases ran : performAll _ state with
    | error failure final =>
      rw [run_bind_of_error ran, run_bind_of_error ((first state).trans ran)]
    | ok _ middle =>
      rw [run_bind_of_ok ran, run_bind_of_ok ((first state).trans ran), second,
        size_of_performAll _ ran]
  | parts _ _ ih => exact ih state
  | function function params native name span _ body =>
    obtain ⟨scope, bag, -, run⟩ := addFunction_eq_ok _ function params native name span state
    have opened : Event.perform ⟨_, .function function params native name, span⟩ state = _ :=
      run_bind_of_ok run _
    rw [run_bind_of_ok run, performAll, run_bind_of_ok opened, body]
    simp [Scopes.add]

/-- Declaring a tree is carrying out its events. -/
theorem declare_eq_performAll (node : Node) (id : ScopeId) (state : State) :
    declare node id state = performAll (eventsOf node id state.scopes.scopes.size) state :=
  (follows_declare (fun name => name) id node).run_eq state

/-! ## Known values -/

/-- What a walk over parts of a tree leaves of the store and the constants,
also when it fails. -/
theorem Follows.preserves {Known : Value → Prop} {origin : Store} {tree : Node}
    (sources : Sources Known origin tree) (follows : Follows rename id nodes action other trail)
    (occur : ∀ node ∈ nodes, tree.Occurs node) : Declares Known origin action := by
  induction follows with
  | nothing => exact ensures_pure trivial
  | @single id act span simple =>
    cases act with
    | refer name => exact ensures_pure trivial
    | localName name => exact preserves_bindLocal id name span
    | counting var => exact preserves_addForVariables id var span
    | iterating key value collect => exact preserves_addForeachVariables id key value collect span
    | constant name value =>
      cases value with
      | none => exact (preserves_refuseVariable id name span).seq fun _ => ensures_throw trivial
      | some => cases simple
    | function => cases simple
  | @constant id name span value _ _ ih =>
    refine (preserves_refuseVariable id name span).seq fun _ => (ih occur).seq fun _ => ?_
    refine ensures_get.bind fun state sound => preserves_bindConstant id name span fun _ => ?_
    exact known_constantValue? sources sound id (occur value List.mem_cons_self)
  | andThen _ _ first second =>
    obtain ⟨occurFirst, occurSecond⟩ := List.forall_mem_append.mp occur
    exact (first occurFirst).seq fun _ => second occurSecond
  | parts _ _ ih => exact ih fun _ => (occur _ List.mem_cons_self).child
  | function function params native name span _ ih =>
    refine (preserves_addFunction _ function params native name span).seq fun inner => ?_
    refine ih inner (List.forall_mem_singleton.mpr ?_)
    exact (occur _ List.mem_cons_self).inside (by simp [Expr.inside])

theorem preserves_declare {Known : Value → Prop} {origin : Store} {tree : Node}
    (sources : Sources Known origin tree) (node : Node) (id : ScopeId)
    (occurs : tree.Occurs node) : Declares Known origin (declare node id) :=
  (follows_declare (fun name => name) id node).preserves sources (List.forall_mem_singleton.mpr occurs)

/-- Declarations are refused with ordinary faults only. -/
theorem ordinary_ofTree {tree : Node} {store store' : Store} {bag bag' : DiagnosticBag}
    {failure : Failure} (failed : Scopes.ofTree tree store bag = (.error failure, store', bag')) :
    failure.fault.Ordinary := by
  have sources : Sources (fun _ => True) store tree :=
    ⟨fun _ _ => trivial, fun _ _ _ => trivial, fun _ _ _ => trivial⟩
  unfold Scopes.ofTree at failed
  split at failed
  · cases failed
  · rename_i ran
    cases failed
    refine ((preserves_declare sources tree Scopes.root .whole).of_error ?_ ran).2
    exact ⟨.refl _ _, fun _ _ _ => trivial⟩

/-! ## Events in open scopes -/

/-- Every event stands in a scope that is open, when the next one has this
number. -/
def Placed : Nat → List Event → Prop
  | _, [] => True
  | next, event :: rest =>
    event.scope < next ∧ Placed (next + if event.opens then 1 else 0) rest

theorem placed_append {next : Nat} {first second : List Event} :
    Placed next (first ++ second) ↔ Placed next first ∧ Placed (next + opened first) second := by
  induction first generalizing next with
  | nil => simp [Placed, opened]
  | cons event rest ih =>
    have count : next + opened (event :: rest) =
        next + (if event.opens then 1 else 0) + opened rest := by
      rw [opened, opened, List.countP_cons]
      omega
    rw [List.cons_append, Placed, Placed, ih, count, and_assoc]

theorem Follows.placed (follows : Follows rename id nodes action other trail) {next : ScopeId}
    (inside : id < next) : Placed next (trail next) := by
  induction follows generalizing next with
  | nothing => trivial
  | single act span => exact ⟨inside, trivial⟩
  | constant name span => exact ⟨inside, trivial⟩
  | andThen _ _ first second =>
    exact placed_append.mpr ⟨first inside, second (Nat.lt_add_right _ inside)⟩
  | parts _ _ ih => exact ih inside
  | function function params native name span _ body =>
    exact ⟨inside, body next (Nat.lt_succ_self next)⟩

/-! ## What later events keep -/

/-- Between two states, no scope lost anything. -/
structure Later (before after : Scopes) : Prop where
  size : before.scopes.size ≤ after.scopes.size
  parent : ∀ id < before.scopes.size, (after.get id).parent = (before.get id).parent
  args : ∀ id < before.scopes.size, (after.get id).args = (before.get id).args
  owns : ∀ id < before.scopes.size, ∀ name,
    (before.get id).owns name = true → (after.get id).owns name = true
  constants : ∀ id < before.scopes.size, ∀ name,
    (after.get id).constants.get? name = none → (before.get id).constants.get? name = none

theorem Later.refl (scopes : Scopes) : Later scopes scopes :=
  ⟨Nat.le_refl _, fun _ _ => rfl, fun _ _ => rfl, fun _ _ _ owned => owned, fun _ _ _ none => none⟩

theorem Later.trans {before middle after : Scopes} (first : Later before middle)
    (second : Later middle after) : Later before after where
  size := Nat.le_trans first.size second.size
  parent id inside :=
    (second.parent id (Nat.lt_of_lt_of_le inside first.size)).trans (first.parent id inside)
  args id inside :=
    (second.args id (Nat.lt_of_lt_of_le inside first.size)).trans (first.args id inside)
  owns id inside name owned :=
    second.owns id (Nat.lt_of_lt_of_le inside first.size) name (first.owns id inside name owned)
  constants id inside name none := first.constants id inside name
    (second.constants id (Nat.lt_of_lt_of_le inside first.size) name none)

section

variable {before after : State} {event : Event}

theorem later_of_perform (run : event.perform before = .ok () after) :
    Later before.scopes after.scopes := by
  have size : before.scopes.scopes.size ≤ after.scopes.scopes.size :=
    size_of_perform run ▸ Nat.le_add_right _ _
  cases effect_of_perform run with
  | nothing _ _ _ same => exact same ▸ .refl _
  | named _ _ named _ =>
    exact ⟨size, fun id _ => (named.gainsAt id).parent, fun id _ => (named.gainsAt id).args,
      fun id _ => (named.gainsAt id).grows, fun id _ _ none => (named.gainsAt id).constants ▸ none⟩
  | bound _ _ _ _ _ binds _ =>
    refine ⟨size, fun id _ => binds.parent id, fun id _ => binds.args id,
      fun id _ name owned => ?_, fun id _ name none => ?_⟩
    · rwa [binds.owns]
    · rw [binds.constants] at none
      split at none
      · rw [Table.get?_insert_eq] at none
        split at none
        · cases none
        · exact none
      · exact none
  | opened scope function _ _ _ _ _ added =>
    have kept : ∀ id < before.scopes.scopes.size, after.scopes.get id = before.scopes.get id := by
      intro id inside
      rw [added, Scopes.get_add, if_neg (Nat.ne_of_lt inside)]
    refine ⟨size, fun id inside => ?_, fun id inside => ?_, fun id inside name owned => ?_,
      fun id inside name none => ?_⟩
    · rw [kept id inside]
    · rw [kept id inside]
    · rwa [kept id inside]
    · rwa [kept id inside] at none

theorem later_of_performAll (events : List Event) (run : performAll events before = .ok () after) :
    Later before.scopes after.scopes := by
  induction events generalizing before with
  | nil =>
    cases run
    exact .refl _
  | cons event rest ih =>
    obtain ⟨_, middle, performed, run⟩ := run_bind_eq_ok run
    exact (later_of_perform performed).trans (ih run)

/-! ## Scopes as declarations leave them -/

/-- Scopes as they are before references are noted: they are numbered, nothing
is noted about them, and their variables are distinct. -/
structure Clean (scopes : Scopes) : Prop where
  numbered : scopes.Numbered
  unmarked : ∀ id trait, (scopes.get id).has trait = false
  tidy : ∀ id, (scopes.get id).Tidy

theorem clean_of_perform (clean : Clean before.scopes)
    (inside : event.scope < before.scopes.scopes.size)
    (run : event.perform before = .ok () after) : Clean after.scopes := by
  cases effect_of_perform run with
  | nothing _ _ _ same => exact same ▸ clean
  | named _ _ named _ =>
    refine ⟨fun id parent found => clean.numbered id parent ((named.gainsAt id).parent ▸ found),
      fun id trait => ?_, fun id => (named.gainsAt id).tidy (clean.tidy id)⟩
    rw [(named.gainsAt id).has, clean.unmarked]
  | bound _ _ _ _ _ binds _ =>
    refine ⟨fun id parent found => clean.numbered id parent (binds.parent id ▸ found),
      fun id trait => ?_, fun id => binds.tidy id (clean.tidy id)⟩
    rw [binds.has, clean.unmarked]
  | opened scope function _ _ _ _ fresh added =>
    refine ⟨fun id parent found => ?_, fun id trait => ?_, fun id => ?_⟩ <;>
      rw [added, Scopes.get_add] at * <;> split at *
    · rename_i last
      cases fresh.parent.symm.trans found
      exact last ▸ inside
    · exact clean.numbered id parent found
    · exact fresh.has trait
    · exact clean.unmarked id trait
    · exact fresh.tidy
    · exact clean.tidy id

theorem clean_of_performAll (events : List Event) (clean : Clean before.scopes)
    (placed : Placed before.scopes.scopes.size events)
    (run : performAll events before = .ok () after) : Clean after.scopes := by
  induction events generalizing before with
  | nil =>
    cases run
    exact clean
  | cons event rest ih =>
    obtain ⟨_, middle, performed, run⟩ := run_bind_eq_ok run
    refine ih (clean_of_perform clean placed.1 performed) ?_ run
    rw [size_of_perform performed]
    exact placed.2

end

end NewtonScript.Declaration

namespace NewtonScript

open Declaration

/-- The events of a tree. -/
def Node.events (tree : Node) : List Event :=
  eventsOf tree Scopes.root 1

theorem Node.placed_events (tree : Node) : Placed 1 tree.events :=
  (follows_declare (fun name => name) Scopes.root tree).placed Nat.zero_lt_one

namespace Scopes

variable {declared : Scopes} {tree : Node} {store store' : Store} {bag bag' : DiagnosticBag}

/-- The scopes of a tree are what its events leave. -/
theorem ofTree_eq (tree : Node) (store : Store) (bag : DiagnosticBag) :
    Scopes.ofTree tree store bag = match performAll tree.events ⟨.ofSpan tree.span, store, bag⟩ with
      | .ok _ state => (.ok state.scopes, state.store, state.bag)
      | .error failure state => (.error failure, state.store, state.bag) := by
  rw [ofTree, declare_eq_performAll]
  rfl

theorem exists_of_ofTree (run : Scopes.ofTree tree store bag = (.ok declared, store', bag')) :
    performAll tree.events ⟨.ofSpan tree.span, store, bag⟩ = .ok () ⟨declared, store', bag'⟩ := by
  rw [ofTree_eq] at run
  cases performed : performAll tree.events ⟨.ofSpan tree.span, store, bag⟩ with
  | error failure final =>
    rw [performed] at run
    cases run
  | ok _ final =>
    rw [performed] at run
    cases run
    rfl

theorem clean_ofTree (run : Scopes.ofTree tree store bag = (.ok declared, store', bag')) :
    Clean declared := by
  have start : Clean (Scopes.ofSpan tree.span) := by
    refine ⟨fun id parent found => ?_, fun id trait => ?_, fun id => ?_⟩
    · cases id <;> cases found
    · cases id <;> cases trait <;> rfl
    · cases id <;> exact .of_nil rfl rfl rfl
  exact clean_of_performAll _ (by exact start) (by exact tree.placed_events) (exists_of_ofTree run)

/-- The variables that an event names are variables of its function in the
end. -/
theorem owns_of_event (run : Scopes.ofTree tree store bag = (.ok declared, store', bag'))
    {event : Event} (listed : event ∈ tree.events) {name : Symbol}
    (among : name ∈ event.act.written ++ event.act.hidden) :
    (declared.get event.scope).owns name = true := by
  obtain ⟨earlier, later, split⟩ := List.append_of_mem listed
  have ran := exists_of_ofTree run
  have placed := tree.placed_events
  rw [split] at ran placed
  rw [performAll_append] at ran
  obtain ⟨_, first, before, ran⟩ := run_bind_eq_ok ran
  obtain ⟨_, second, performed, ran⟩ := run_bind_eq_ok ran
  have inside : event.scope < first.scopes.scopes.size := by
    rw [size_of_performAll _ before]
    exact (placed_append.mp placed).2.1
  have within := Nat.lt_of_lt_of_le inside (later_of_perform performed).size
  refine (later_of_performAll _ ran).owns _ within name ?_
  cases effect_of_perform performed with
  | nothing _ _ none _ =>
    rw [none] at among
    cases among
  | named _ _ named _ => exact named.owned inside name among
  | bound _ _ _ equal _ _ _ | opened _ _ _ _ _ equal _ _ =>
    rw [equal] at among
    cases among

end Scopes

end NewtonScript
