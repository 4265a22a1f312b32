import Mathlib.Data.List.Nodup
import NewtonScript.Proofs.Scope.Effects

/-!
# Which function has which scope

Scopes are numbered in the order in which the function literals stand in the
tree.  So the literals of a tree whose numbers are distinct and the scopes
behind the top level belong together one to one, and every part of the tree
was declared into the scope it stands in.
-/

namespace NewtonScript

variable {act : Act} {scopes : Scopes} {node part : Node} {id inner : ScopeId}

namespace Declaration

variable {outer : ScopeId}

/-! ## Scopes of function literals -/

/-- The function literal for which an event opens a scope. -/
def Event.functions : Event → List FuncId
  | ⟨_, .function function .., _⟩ => [function]
  | _ => []

/-- The function literals for which events open scopes. -/
def functions (events : List Event) : List FuncId :=
  events.flatMap Event.functions

theorem functions_append (first second : List Event) :
    functions (first ++ second) = functions first ++ functions second :=
  List.flatMap_append

theorem Event.length_functions (event : Event) :
    event.functions.length = if event.opens then 1 else 0 := by
  obtain ⟨id, act, span⟩ := event
  cases act <;> rfl

theorem length_functions (events : List Event) : (functions events).length = opened events := by
  induction events with
  | nil => rfl
  | cons event rest ih =>
    rw [functions, List.flatMap_cons, List.length_append, event.length_functions, opened,
      List.countP_cons, Nat.add_comm]
    exact congrArg (· + _) ih

section

variable {before after : State} {function : FuncId}

theorem scopeOf?_of_perform {event : Event} (run : event.perform before = .ok () after)
    (other : function ∉ event.functions) :
    after.scopes.scopeOf? function = before.scopes.scopeOf? function := by
  cases effect_of_perform run with
  | nothing _ _ _ same => rw [same]
  | named _ _ named _ => rw [Scopes.scopeOf?, named.byFunction, Scopes.scopeOf?]
  | bound _ _ _ _ _ binds _ => rw [Scopes.scopeOf?, binds.byFunction, Scopes.scopeOf?]
  | opened scope own _ _ _ act _ added =>
    obtain ⟨id, _, span⟩ := event
    cases act
    have different : (own == function) = false :=
      beq_false_of_ne fun equal => other (equal ▸ List.mem_cons_self)
    simp [added, Scopes.scopeOf?, Scopes.add, Table.get?_insert_eq, different]

theorem scopeOf?_of_performAll (events : List Event) (run : performAll events before = .ok () after)
    (others : function ∉ functions events) :
    after.scopes.scopeOf? function = before.scopes.scopeOf? function := by
  induction events generalizing before with
  | nil =>
    cases run
    rfl
  | cons event rest ih =>
    obtain ⟨_, middle, performed, run⟩ := run_bind_eq_ok run
    rw [functions, List.flatMap_cons, List.mem_append, not_or] at others
    rw [ih run others.2, scopeOf?_of_perform performed others.1]

/-- The event of a function literal opens the next scope. -/
theorem scopeOf?_of_function {params : List Param} {native : Bool} {name : Option Symbol}
    {span : Span} (run : Event.perform ⟨outer, .function function params native name, span⟩ before =
      .ok () after) :
    after.scopes.scopeOf? function = some before.scopes.scopes.size ∧
      after.scopes.scopes.size = before.scopes.scopes.size + 1 ∧
      Fresh outer params (after.scopes.get before.scopes.scopes.size) := by
  obtain ⟨scope, bag, fresh, opens⟩ :=
    addFunction_eq_ok outer function params native name span before
  cases (run_bind_of_ok opens _).symm.trans run
  refine ⟨by simp [Scopes.scopeOf?, Scopes.add, Table.get?_insert_eq], by simp [Scopes.add], ?_⟩
  rwa [Scopes.get_add, if_pos rfl]

/-- A function literal has the scope that its event opened, inside the one in
which the event stands. -/
theorem scopeOf?_of_opened {params : List Param} {native : Bool} {name : Option Symbol}
    {span : Span} {earlier later : List Event} (distinct : (functions
      (earlier ++ ⟨outer, .function function params native name, span⟩ :: later)).Nodup)
    (run : performAll (earlier ++ ⟨outer, .function function params native name, span⟩ :: later)
      before = .ok () after) :
    after.scopes.scopeOf? function = some (before.scopes.scopes.size + opened earlier) ∧
      (after.scopes.get (before.scopes.scopes.size + opened earlier)).parent = some outer ∧
      ∀ name, (after.scopes.get (before.scopes.scopes.size + opened earlier)).args.contains name =
        (params.map Param.name).contains name := by
  have fresh : function ∉ functions later := by
    rw [functions_append] at distinct
    exact (List.nodup_cons.mp (List.nodup_append.mp distinct).2.1).1
  rw [performAll_append] at run
  obtain ⟨_, first, ran, run⟩ := run_bind_eq_ok run
  obtain ⟨_, second, performed, run⟩ := run_bind_eq_ok run
  obtain ⟨own, size, opens⟩ := scopeOf?_of_function performed
  have inside : first.scopes.scopes.size < second.scopes.scopes.size := by
    rw [size]
    exact Nat.lt_succ_self _
  have later := later_of_performAll _ run
  rw [← size_of_performAll _ ran, scopeOf?_of_performAll _ run fresh, later.parent _ inside,
    later.args _ inside]
  exact ⟨own, opens.parent, opens.args⟩

/-- Scopes are numbered in the order of their events. -/
theorem map_scopeOf?_of_performAll (events : List Event) (distinct : (functions events).Nodup)
    (run : performAll events before = .ok () after) :
    (functions events).map after.scopes.scopeOf? =
      (List.range' before.scopes.scopes.size (functions events).length).map some := by
  induction events generalizing before with
  | nil => rfl
  | cons event rest ih =>
    obtain ⟨id, act, span⟩ := event
    obtain ⟨_, middle, performed, ran⟩ := run_bind_eq_ok run
    cases act with
    | function function params native name =>
      have listed : functions (⟨id, .function function params native name, span⟩ :: rest) =
        function :: functions rest := rfl
      rw [listed] at distinct ⊢
      obtain ⟨fresh, distinct⟩ := List.nodup_cons.mp distinct
      obtain ⟨own, size, -⟩ := scopeOf?_of_function performed
      have others := ih distinct ran
      rw [size] at others
      rw [List.map_cons, scopeOf?_of_performAll _ ran fresh, own, others, List.length_cons,
        List.range'_succ, List.map_cons]
    | _ =>
      have size : middle.scopes.scopes.size = before.scopes.scopes.size := size_of_perform performed
      exact size ▸ ih distinct ran

end

/-- A walk opens scopes for the function literals of its nodes. -/
theorem Follows.functions_eq {rename : Symbol → Symbol} {nodes : List Node}
    {action other : DeclareM Unit} {trail : Trail}
    (follows : Follows rename id nodes action other trail) {before after : State}
    (run : action before = .ok () after) :
    functions (trail before.scopes.scopes.size) = nodes.flatMap Node.functionIds := by
  induction follows generalizing before after with
  | nothing => rfl
  | single act span simple =>
    cases act with
    | function => cases simple
    | _ => rfl
  | constant name span =>
    have declared : declareConstant _ name (some _) span before = .ok () after := run
    obtain ⟨-, node, bound, equal, found, -⟩ := declareConstant_run declared
    cases equal
    rw [List.flatMap_singleton, (declare_eq_pure _ found).2]
    rfl
  | andThen follows _ first second =>
    obtain ⟨_, middle, ran, run⟩ := run_bind_eq_ok run
    have size := size_of_performAll _ ((follows.run_eq before).symm.trans ran)
    rw [Trail.andThen, functions_append, List.flatMap_append, first ran, ← second run, size]
  | parts noFunction _ ih =>
    rw [List.flatMap_singleton, Node.functionIds_of_noFunction noFunction]
    exact ih run
  | function function params native name span _ ih =>
    obtain ⟨scope, bag, -, opens⟩ := addFunction_eq_ok _ function params native name span before
    have inner := ih _ ((run_bind_of_ok opens _).symm.trans run)
    rw [List.flatMap_singleton] at inner ⊢
    rw [Node.functionIds_func, ← inner]
    simp [functions, Event.functions, Scopes.add]

/-! ## Parts of a tree -/

/-- What an expression declares besides its parts. -/
def ownActs : Expr → List Act
  | .forLoop var .. => [.counting var]
  | .foreachLoop key value _ _ collect _ => [.iterating key value collect]
  | .func function params _ native name => [.function function params native name]
  | _ => []

theorem mem_eventsOfExpr {expr : Expr} (own : act ∈ ownActs expr) (span : Span) (id : ScopeId)
    (next : Nat) : ⟨id, act, span⟩ ∈ eventsOfExpr expr span id next := by
  cases expr with
  | forLoop var start limit step body =>
    cases List.mem_singleton.mp own
    cases step <;> simp [eventsOfExpr, Trail.andThen, Trail.single]
  | foreachLoop key value deeply collection collect body =>
    cases List.mem_singleton.mp own
    simp [eventsOfExpr, Trail.andThen, Trail.single]
  | func function params body native name =>
    cases List.mem_singleton.mp own
    exact List.mem_cons_self
  | _ => cases own

/-- In a constant expression nothing is declared. -/
theorem ownActs_of_constant {final : Scopes} {store : Store} {value : Value}
    (found : constantValue? scopes store id node = some value)
    (site : final.Site node outer inner part) : ownActs part.expr = [] := by
  have constant : ∃ value, constantValue? scopes store id part = some value := by
    induction site with
    | whole => exact ⟨value, found⟩
    | @child _ node child _ member ih =>
      obtain ⟨value, found⟩ := ih
      obtain ⟨expr, span⟩ := node
      cases expr with
      | literal => cases member
      | name => cases member
      | unary op operand =>
        cases op with
        | negate =>
          cases List.mem_singleton.mp member
          obtain ⟨inner, found, -⟩ := Option.bind_eq_some_iff.mp found
          exact ⟨inner, found⟩
        | _ => cases found
      | _ => cases found
    | body _ _ ih =>
      obtain ⟨value, found⟩ := ih
      cases found
  obtain ⟨value, found⟩ := constant
  obtain ⟨expr, span⟩ := part
  cases expr with
  | forLoop => cases found
  | foreachLoop => cases found
  | func => cases found
  | _ => rfl

/-- What a part of a tree declares is an event in the scope where the part
stands. -/
theorem Follows.mem_of_site {start final : State} {whole : List Event}
    (ran : performAll whole start = .ok () final) (distinct : (functions whole).Nodup)
    {rename : Symbol → Symbol} {nodes : List Node} {action other : DeclareM Unit} {trail : Trail}
    (follows : Follows rename id nodes action other trail) (earlier later : List Event)
    (split : whole = earlier ++ (trail (start.scopes.scopes.size + opened earlier) ++ later))
    (among : node ∈ nodes) (site : final.scopes.Site node id inner part)
    (own : act ∈ ownActs part.expr) : ⟨inner, act, part.span⟩ ∈ whole := by
  induction follows generalizing earlier later node with
  | nothing => cases among
  | single => cases among
  | constant name span _ _ =>
    cases List.mem_singleton.mp among
    rw [split, performAll_append] at ran
    obtain ⟨_, middle, -, ran⟩ := run_bind_eq_ok ran
    obtain ⟨_, _, performed, -⟩ := run_bind_eq_ok ran
    have declared : declareConstant _ name (some _) span middle = .ok () _ := performed
    obtain ⟨-, _, bound, equal, found, -⟩ := declareConstant_run declared
    cases equal
    rw [ownActs_of_constant found site] at own
    cases own
  | @andThen _ _ _ _ _ _ _ trail trail' _ _ first second =>
    rw [Trail.andThen, List.append_assoc] at split
    rcases List.mem_append.mp among with inFirst | inSecond
    · exact first earlier _ split inFirst site
    · refine second (earlier ++ trail (start.scopes.scopes.size + opened earlier)) later ?_
        inSecond site
      rw [split, opened_append, ← Nat.add_assoc, List.append_assoc]
  | @parts id expr span _ noFunction _ ih =>
    cases List.mem_singleton.mp among
    rcases (Scopes.Site.iff_of_noFunction noFunction).mp site with ⟨rfl, rfl⟩ | ⟨child, inside, below⟩
    · rw [split]
      exact List.mem_append_right _ (List.mem_append_left _ (mem_eventsOfExpr own span _ _))
    · exact ih earlier later split inside below
  | @function id function params body native name span _ ih =>
    cases List.mem_singleton.mp among
    rcases Scopes.Site.func_iff.mp site with ⟨rfl, rfl⟩ | ⟨deeper, scope, below⟩
    · rw [split]
      cases List.mem_singleton.mp own
      exact List.mem_append_right _ List.mem_cons_self
    · rw [List.cons_append] at split
      have opens := (scopeOf?_of_opened (split ▸ distinct) (split ▸ ran)).1
      cases opens.symm.trans scope
      refine ih _ (earlier ++ [⟨id, .function function params native name, span⟩]) later ?_
        List.mem_cons_self below
      rw [split, List.append_cons, opened_append]
      rfl

/-- The scopes of the function literals of a tree are nested as the literals
are, and have their parameters. -/
def Nested (scopes : Scopes) (tree : Node) (id : ScopeId) : Prop :=
  ∀ outer function params body native name span,
    scopes.Site tree id outer ⟨.func function params body native name, span⟩ →
      ∃ inner, scopes.scopeOf? function = some inner ∧ (scopes.get inner).parent = some outer ∧
        ∀ name, (scopes.get inner).args.contains name = (params.map Param.name).contains name

end Declaration

open Declaration

/-! ## Agreement -/

namespace Scopes

/-- What occurs in a tree stands in one of its scopes. -/
theorem exists_site_of_occurs {tree : Node} (nested : Declaration.Nested scopes tree id)
    (occurs : tree.Occurs node) : ∃ inner, scopes.Site tree id inner node := by
  induction occurs with
  | whole => exact ⟨id, .whole⟩
  | child _ member ih =>
    obtain ⟨inner, site⟩ := ih
    exact ⟨inner, site.child member⟩
  | body _ ih =>
    obtain ⟨outer, site⟩ := ih
    obtain ⟨inner, scope, -⟩ := nested _ _ _ _ _ _ _ site
    exact ⟨inner, site.body scope⟩

/-- Scopes belong to a tree. -/
structure Agrees (scopes : Scopes) (tree : Node) : Prop where
  distinct : tree.functionIds.Nodup
  /-- The function literals have the scopes behind the top level, one each. -/
  scopeOf? : tree.functionIds.map scopes.scopeOf? = (List.range' 1 tree.functionIds.length).map some
  size : scopes.scopes.size = tree.functionIds.length + 1
  /-- Nothing else has a scope. -/
  others : ∀ function, function ∉ tree.functionIds → scopes.scopeOf? function = none
  /-- The scope around a function literal is that of the function it stands
  in, and has a lower number. -/
  nested : ∀ outer function params body native name span,
    scopes.Site tree root outer ⟨.func function params body native name, span⟩ →
      ∃ inner, scopes.scopeOf? function = some inner ∧
        (scopes.get inner).parent = some outer ∧ outer < inner
  /-- Every scope but the top level is that of a function literal. -/
  inner : ∀ id, 0 < id → id < scopes.scopes.size →
    ∃ outer function params body native name span,
      scopes.Site tree root outer ⟨.func function params body native name, span⟩ ∧
        scopes.scopeOf? function = some id ∧ (scopes.get id).parent = some outer
  /-- The scopes around a scope end at the top level. -/
  chain : ∀ id < scopes.scopes.size,
    (scopes.chain id).Pairwise (· > ·) ∧ (scopes.chain id).getLast? = some root
  /-- Variables are distinct, and loop indices and declared locals are
  variables. -/
  tidy : ∀ id, (scopes.get id).Tidy
  slotOf? : ∀ id, (scopes.get id).names.map (scopes.get id).slotOf? =
    (List.range (scopes.get id).names.length).map some
  /-- Loops find their variables. -/
  loops : ∀ inner part, scopes.Site tree root inner part →
    ∀ name ∈ part.expr.loopVariables, (scopes.get inner).owns name = true

theorem getLast?_chain (numbered : scopes.Numbered)
    (inner : ∀ id, 0 < id → id < scopes.scopes.size → (scopes.get id).parent ≠ none)
    (inside : id < scopes.scopes.size) : (scopes.chain id).getLast? = some root := by
  induction id using numbered.induction with
  | top id found =>
    rw [chain_of_no_parent found]
    cases id with
    | zero => rfl
    | succ id => exact absurd found (inner _ (Nat.zero_lt_succ id) inside)
  | inner id parent found ih =>
    have last := ih (Nat.lt_trans (numbered _ _ found) inside)
    rw [chain_of_parent numbered found, List.getLast?_cons, last]
    rfl

section

variable {declared : Scopes} {tree : Node} {store store' : Store} {bag bag' : DiagnosticBag}

theorem functions_events (run : Scopes.ofTree tree store bag = (.ok declared, store', bag')) :
    functions tree.events = tree.functionIds := by
  have ran := (declare_eq_performAll tree root ⟨.ofSpan tree.span, store, bag⟩).trans
    (exists_of_ofTree run)
  have same := (follows_declare (fun name => name) root tree).functions_eq ran
  rwa [List.flatMap_singleton] at same

/-- What a part of a tree declares was declared into the scope where the part
stands. -/
theorem mem_events_of_site (run : Scopes.ofTree tree store bag = (.ok declared, store', bag'))
    (distinct : tree.functionIds.Nodup) (site : declared.Site tree root inner part)
    (own : act ∈ ownActs part.expr) : ⟨inner, act, part.span⟩ ∈ tree.events := by
  refine (follows_declare (fun name => name) root tree).mem_of_site (exists_of_ofTree run)
    (functions_events run ▸ distinct) [] [] ?_ List.mem_cons_self site own
  exact (List.append_nil _).symm

/-- The scopes of distinct function literals are nested as the literals
are. -/
theorem nested_ofTree (run : Scopes.ofTree tree store bag = (.ok declared, store', bag'))
    (distinct : tree.functionIds.Nodup) : Nested declared tree root := by
  intro outer function params body native name span site
  obtain ⟨earlier, later, split⟩ :=
    List.append_of_mem (mem_events_of_site run distinct site List.mem_cons_self)
  have ran := exists_of_ofTree run
  rw [← functions_events run] at distinct
  rw [split] at ran distinct
  exact ⟨_, scopeOf?_of_opened distinct ran⟩

/-- A loop finds its variables in the function where it stands. -/
theorem owns_loopVariables (run : Scopes.ofTree tree store bag = (.ok declared, store', bag'))
    (distinct : tree.functionIds.Nodup) (site : declared.Site tree root inner part)
    {name : Symbol} (member : name ∈ part.expr.loopVariables) :
    (declared.get inner).owns name = true := by
  have owned : ∀ act ∈ ownActs part.expr, name ∈ act.written ++ act.hidden →
      (declared.get inner).owns name = true :=
    fun act own => owns_of_event run (mem_events_of_site run distinct site own)
  obtain ⟨expr, span⟩ := part
  cases expr with
  | forLoop => exact owned _ List.mem_cons_self member
  | foreachLoop key value _ _ collect =>
    refine owned _ List.mem_cons_self ?_
    simpa [Act.written, Act.hidden, Expr.loopVariables] using member
  | _ => cases member

/-- The scopes that a tree declares belong to it. -/
theorem agrees_ofTree (distinct : tree.functionIds.Nodup)
    (run : Scopes.ofTree tree store bag = (.ok declared, store', bag')) :
    declared.Agrees tree := by
  obtain ⟨numbered, -, tidy⟩ := clean_ofTree run
  have nested := nested_ofTree run distinct
  have ran := exists_of_ofTree run
  have functions := functions_events run
  have inOrder : tree.functionIds.map declared.scopeOf? =
      (List.range' 1 tree.functionIds.length).map some := by
    rw [← functions] at distinct ⊢
    exact map_scopeOf?_of_performAll _ distinct ran
  have size : declared.scopes.size = tree.functionIds.length + 1 := by
    rw [← functions, length_functions, Nat.add_comm]
    exact size_of_performAll _ ran
  have inner : ∀ id, 0 < id → id < declared.scopes.size →
      ∃ outer function params body native name span,
        declared.Site tree root outer ⟨.func function params body native name, span⟩ ∧
          declared.scopeOf? function = some id ∧ (declared.get id).parent = some outer := by
    intro id positive below
    have listed : some id ∈ tree.functionIds.map declared.scopeOf? := by
      rw [inOrder]
      refine List.mem_map_of_mem (List.mem_range'_1.mpr ⟨positive, ?_⟩)
      rw [size] at below
      exact Nat.lt_of_lt_of_eq below (Nat.add_comm _ _)
    obtain ⟨function, member, scope⟩ := List.mem_map.mp listed
    obtain ⟨params, body, native, name, span, occurs⟩ := tree.exists_of_mem_functionIds member
    obtain ⟨outer, site⟩ := exists_site_of_occurs nested occurs
    obtain ⟨own, found, parent, -⟩ := nested _ _ _ _ _ _ _ site
    cases scope.symm.trans found
    exact ⟨outer, function, params, body, native, name, span, site, scope, parent⟩
  exact {
    distinct
    scopeOf? := inOrder
    size
    others := fun function absent => scopeOf?_of_performAll _ ran (functions ▸ absent)
    nested := fun outer function params body native name span site => by
      obtain ⟨own, found, parent, -⟩ := nested _ _ _ _ _ _ _ site
      exact ⟨own, found, parent, numbered _ _ parent⟩
    inner
    chain := fun id below => by
      refine ⟨pairwise_chain numbered id, getLast?_chain numbered (fun id positive below => ?_) below⟩
      obtain ⟨outer, _, _, _, _, _, _, -, -, parent⟩ := inner id positive below
      rw [parent]
      exact Option.some_ne_none outer
    tidy
    slotOf? := fun id => (tidy id).map_slotOf?
    loops := fun _ _ site _ member => owns_loopVariables run distinct site member }

end

end Scopes

end NewtonScript
