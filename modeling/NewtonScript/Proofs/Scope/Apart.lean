import NewtonScript.Proofs.Scope.Effects

/-!
# Variables and constants of one function

Every declaration that the text names is checked against what its function
declared before, so no such name becomes both a variable and a constant.  The
hidden variables of loops are not checked: a constant that has the name of a
hidden variable and stands before the loop becomes a variable as well.
-/

namespace NewtonScript

/-! ## Clashes -/

/-- A name is a constant and a variable of one function. -/
def Scopes.Clashes (scopes : Scopes) (id : ScopeId) (name : Symbol) : Prop :=
  (scopes.get id).constants.contains name = true ∧ (scopes.get id).owns name = true

instance (scopes : Scopes) (id : ScopeId) (name : Symbol) : Decidable (scopes.Clashes id name) :=
  inferInstanceAs (Decidable (_ ∧ _))

namespace Declaration

variable {event : Event} {before after : State} {id : ScopeId} {name : Symbol}

/-- A clash comes from a hidden variable that has the name of a constant. -/
theorem clashes_of_perform (run : event.perform before = .ok () after)
    (clashes : after.scopes.Clashes id name) :
    before.scopes.Clashes id name ∨
      event.scope = id ∧ (∃ hidden ∈ event.act.hidden, (hidden == name) = true) ∧
        (before.scopes.get id).constants.contains name = true := by
  obtain ⟨isConstant, owned⟩ := clashes
  cases effect_of_perform run with
  | nothing _ _ _ same =>
    rw [same] at isConstant owned
    exact .inl ⟨isConstant, owned⟩
  | named _ _ named free =>
    by_cases same : id = event.scope
    · subst same
      rw [named.gains.constants] at isConstant
      rcases named.gains.owns name owned with owned | ⟨own, member, equal⟩
      · exact .inl ⟨isConstant, owned⟩
      · rcases List.mem_append.mp member with written | hidden
        · rw [← Table.contains_congr _ equal, free own written] at isConstant
          cases isConstant
        · exact .inr ⟨rfl, ⟨own, hidden, equal⟩, isConstant⟩
    · rw [named.elsewhere id same] at isConstant owned
      exact .inl ⟨isConstant, owned⟩
  | bound constant _ _ _ _ binds free =>
    left
    rw [binds.owns] at owned
    rw [binds.constants] at isConstant
    split at isConstant
    · rename_i same
      rw [Table.contains_insert, Bool.or_eq_true] at isConstant
      rcases isConstant with equal | old
      · rw [same.1, Scope.owns_congr owned (BEq.symm equal)] at free
        cases free
      · exact ⟨old, owned⟩
    · exact ⟨isConstant, owned⟩
  | opened scope function _ _ _ _ fresh added =>
    left
    rw [added, Scopes.get_add] at isConstant owned
    split at isConstant
    · rw [fresh.constants] at isConstant
      cases isConstant
    · rw [if_neg (by assumption)] at owned
      exact ⟨isConstant, owned⟩

/-- An event declares a constant of a function. -/
def Event.Declares (event : Event) (id : ScopeId) (name : Symbol) : Prop :=
  event.scope = id ∧ ∃ constant ∈ event.act.constants, (constant == name) = true

/-- Only its declarations change a constant. -/
theorem get?_of_perform (run : event.perform before = .ok () after)
    (other : ¬ event.Declares id name) :
    (after.scopes.get id).constants.get? name = (before.scopes.get id).constants.get? name := by
  cases effect_of_perform run with
  | nothing _ _ _ same => rw [same]
  | named _ _ named _ => rw [(named.gainsAt id).constants]
  | bound constant _ _ act _ binds _ =>
    rw [binds.constants]
    split
    · rename_i same
      rw [Table.get?_insert_eq, if_neg]
      exact fun equal => other ⟨same.1, constant, by simp [act, Act.constants], equal⟩
    · rfl
  | opened scope function _ _ _ _ isFresh added =>
    rw [added, Scopes.get_add]
    split
    · rename_i new
      have fresh : before.scopes.get id = default := by
        simp [Scopes.get, new]
      rw [isFresh.constants, fresh]
      rfl
    · rfl

theorem get?_of_performAll (events : List Event) (run : performAll events before = .ok () after)
    (others : ∀ event ∈ events, ¬ event.Declares id name) :
    (after.scopes.get id).constants.get? name = (before.scopes.get id).constants.get? name := by
  induction events generalizing before with
  | nil =>
    cases run
    rfl
  | cons event rest ih =>
    obtain ⟨first, others⟩ := List.forall_mem_cons.mp others
    obtain ⟨_, middle, performed, run⟩ := run_bind_eq_ok run
    rw [ih run others, get?_of_perform performed first]

/-- Behind a run, a name clashes as it did before, or since a loop whose hidden
variable has the name of a constant. -/
theorem clashes_of_performAll (events : List Event) (run : performAll events before = .ok () after)
    (clashes : after.scopes.Clashes id name) :
    before.scopes.Clashes id name ∨ ∃ earlier loop later middle,
      events = earlier ++ loop :: later ∧ performAll earlier before = .ok () middle ∧
        loop.scope = id ∧ (∃ hidden ∈ loop.act.hidden, (hidden == name) = true) ∧
          (middle.scopes.get id).constants.contains name = true := by
  induction events generalizing before with
  | nil =>
    cases run
    exact .inl clashes
  | cons event rest ih =>
    obtain ⟨_, first, performed, run⟩ := run_bind_eq_ok run
    rcases ih run with clashes | ⟨earlier, loop, later, middle, rfl, ran, found⟩
    · rcases clashes_of_perform performed clashes with old | ⟨scope, hidden, isConstant⟩
      · exact .inl old
      · exact .inr ⟨[], event, rest, before, rfl, rfl, scope, hidden, isConstant⟩
    · exact .inr ⟨event :: earlier, loop, later, middle, rfl,
        (run_bind_of_ok performed _).trans ran, found⟩

theorem contains_of_performAll (events : List Event) (run : performAll events before = .ok () after)
    (isConstant : (after.scopes.get id).constants.contains name = true) :
    (before.scopes.get id).constants.contains name = true ∨
      ∃ event ∈ events, event.Declares id name := by
  by_cases declared : ∃ event ∈ events, event.Declares id name
  · exact .inr declared
  · refine .inl ?_
    rwa [Table.contains_eq_isSome_get?, ← get?_of_performAll events run, ←
      Table.contains_eq_isSome_get?]
    exact fun event member declares => declared ⟨event, member, declares⟩

/-! ## Refusals -/

/-- An event would make a variable of a constant or a constant of a variable,
with a name that the text gives. -/
def Event.Clashing (event : Event) (scopes : Scopes) (name : Symbol) : Prop :=
  name ∈ event.act.written ∧ (scopes.get event.scope).constants.contains name = true ∨
    name ∈ event.act.constants ∧ (scopes.get event.scope).owns name = true

theorem refuseConstant_of_contains (span : Span)
    (isConstant : (before.scopes.get id).constants.contains name = true) :
    refuseConstant id name span before = .error ⟨.localConstantClash name, span⟩ before := by
  have read : scope id before = .ok (before.scopes.get id) before := rfl
  rw [refuseConstant, run_bind_of_ok read, if_pos isConstant]
  rfl

theorem refuseConstant_of_not_contains (span : Span)
    (free : (before.scopes.get id).constants.contains name = false) :
    refuseConstant id name span before = .ok () before := by
  have read : scope id before = .ok (before.scopes.get id) before := rfl
  rw [refuseConstant, run_bind_of_ok read, if_neg (by simp [free])]
  rfl

theorem addLocal_eq_ok (id : ScopeId) (name : Symbol) (span : Span) (written : Bool)
    (state : State) : ∃ final, addLocal id name span written state = .ok () final := by
  have read : scope id state = .ok (state.scopes.get id) state := rfl
  rw [addLocal, run_bind_of_ok read]
  split
  · split
    · exact ⟨_, rfl⟩
    · exact ⟨_, rfl⟩
  · exact ⟨_, rfl⟩

/-- Of the variables of a loop, the first one that is a constant is refused. -/
theorem addLoopVariables_of_contains (span : Span) (names : List Symbol) (member : name ∈ names)
    (isConstant : (before.scopes.get id).constants.contains name = true) :
    ∃ clashing ∈ names, ∃ final, (before.scopes.get id).constants.contains clashing = true ∧
      addLoopVariables id span names before =
        .error ⟨.localConstantClash clashing, span⟩ final := by
  induction names generalizing before with
  | nil => cases member
  | cons first rest ih =>
    cases free : (before.scopes.get id).constants.contains first with
    | true =>
      exact ⟨first, List.mem_cons_self, before, free,
        run_bind_of_error (refuseConstant_of_contains span free) _⟩
    | false =>
      have behind : name ∈ rest := by
        rcases List.mem_cons.mp member with rfl | behind
        · rw [isConstant] at free
          cases free
        · exact behind
      obtain ⟨middle, added⟩ := addLocal_eq_ok id first span false before
      have kept := (named_addLocal added).gains.constants
      obtain ⟨clashing, among, final, found, run⟩ := ih behind (kept ▸ isConstant)
      refine ⟨clashing, List.mem_cons_of_mem _ among, final, kept ▸ found, ?_⟩
      rw [addLoopVariables, run_bind_of_ok (refuseConstant_of_not_contains span free),
        run_bind_of_ok added, run]

/-- An event that would make a name both a variable and a constant is
refused. -/
theorem perform_of_clashing {state : State} (clashing : event.Clashing state.scopes name) :
    ∃ other final, event.Clashing state.scopes other ∧
      event.perform state = .error ⟨.localConstantClash other, event.span⟩ final := by
  obtain ⟨id, act, span⟩ := event
  rcases clashing with ⟨member, isConstant⟩ | ⟨member, owned⟩
  · cases act with
    | localName =>
      cases List.mem_singleton.mp member
      exact ⟨name, state, .inl ⟨member, isConstant⟩,
        run_bind_of_error (refuseConstant_of_contains span isConstant) _⟩
    | counting =>
      cases List.mem_singleton.mp member
      exact ⟨name, state, .inl ⟨member, isConstant⟩,
        run_bind_of_error (refuseConstant_of_contains span isConstant) _⟩
    | iterating key value collect =>
      obtain ⟨other, among, final, found, run⟩ :=
        addLoopVariables_of_contains span _ member isConstant
      exact ⟨other, final, .inl ⟨among, found⟩, run_bind_of_error run _⟩
    | _ => cases member
  · cases act with
    | constant =>
      cases List.mem_singleton.mp member
      have read : scope id state = .ok (state.scopes.get id) state := rfl
      have refused : refuseVariable id name span state =
          .error ⟨.localConstantClash name, span⟩ state := by
        rw [refuseVariable, run_bind_of_ok read, if_pos owned]
        rfl
      exact ⟨name, state, .inr ⟨member, owned⟩, run_bind_of_error refused _⟩
    | _ => cases member

/-- Carrying out a row of events comes to an event, in the row or in the
initializer of a constant that it comes to. -/
inductive Comes : List Event → State → Event → State → Prop
  | here {events : List Event} (earlier later : List Event) {event : Event} {start state : State}
      (split : events = earlier ++ event :: later)
      (ran : performAll earlier start = .ok () state) : Comes events start event state
  | inside {events : List Event} {id : ScopeId} {name : Symbol} {value : Node} {span : Span}
      {event : Event} {start middle state : State}
      (outer : Comes events start ⟨id, .constant name (some value), span⟩ middle)
      (free : refuseVariable id name span middle = .ok () middle)
      (inner : Comes (eventsOf value id middle.scopes.scopes.size) middle event state) :
      Comes events start event state

/-- What an event fails with, the row that comes to it fails with. -/
theorem Comes.performAll_eq_error {events : List Event} {start state final : State}
    {failure : Failure} (comes : Comes events start event state)
    (failed : event.perform state = .error failure final) :
    performAll events start = .error failure final := by
  induction comes with
  | here earlier later split ran =>
    rw [split, performAll_append, run_bind_of_ok ran, performAll, run_bind_of_error failed]
  | inside outer free inner outerFails innerFails =>
    -- The initializer fails as its row does, and the constant as its initializer.
    refine outerFails ((run_bind_of_ok free _).trans (run_bind_of_error ?_ _))
    rw [declare_eq_performAll, innerFails failed]

end Declaration

open Declaration

/-- A name is a variable and a constant of one function only when a loop has
it as a hidden variable and stands behind the constant.  Every other
declaration that would make it both is refused, also one in the initializer of
a constant. -/
theorem Scopes.clashes_ofTree (tree : Node) (store : Store) (bag : DiagnosticBag) :
    (∀ scopes store' bag', Scopes.ofTree tree store bag = (.ok scopes, store', bag') →
      ∀ id name, scopes.Clashes id name → ∃ earlier loop later,
        tree.events = earlier ++ loop :: later ∧ loop.scope = id ∧
          (∃ hidden ∈ loop.act.hidden, (hidden == name) = true) ∧
          ∃ event ∈ earlier, event.Declares id name) ∧
    ∀ event state, Comes tree.events ⟨.ofSpan tree.span, store, bag⟩ event state →
      ∀ name, event.Clashing state.scopes name → ∃ failure clashing,
        (Scopes.ofTree tree store bag).1 = .error failure ∧ failure.span = event.span ∧
          failure.fault = .localConstantClash clashing ∧ failure.fault.code.number = 3001 ∧
            event.Clashing state.scopes clashing := by
  constructor
  · intro scopes store' bag' run id name clashes
    have performed := exists_of_ofTree run
    have none : ∀ name, ((Scopes.ofSpan tree.span).get id).constants.contains name = false := by
      intro name
      cases id <;> rfl
    rcases clashes_of_performAll _ performed clashes with
      ⟨isConstant, -⟩ | ⟨earlier, loop, later, middle, split, ran, scope, hidden, isConstant⟩
    · rw [none] at isConstant
      cases isConstant
    · rcases contains_of_performAll earlier ran isConstant with old | declared
      · rw [none] at old
        cases old
      · exact ⟨earlier, loop, later, split, scope, hidden, declared⟩
  · intro event state comes name clashing
    obtain ⟨other, final, found, refused⟩ := perform_of_clashing clashing
    refine ⟨⟨.localConstantClash other, event.span⟩, other, ?_, rfl, rfl, rfl, found⟩
    rw [ofTree_eq, comes.performAll_eq_error refused]

/-- A constant, and a variable of its name in the initializer of the next. -/
def redeclaredConstant : Node :=
  let number : Node := ⟨.literal (.int 1), Span.none⟩
  let block : Node :=
    ⟨.begin [⟨.localDecl [⟨.ofString "x", none, none, Span.none⟩], Span.none⟩, number], Span.none⟩
  ⟨.constantDecl [⟨.ofString "x", none, some number, Span.none⟩,
    ⟨.ofString "y", none, some block, Span.none⟩], Span.none⟩

/-- The variable is refused. -/
theorem Scopes.clashes_ofTree_initializer :
    ∃ failure, (Scopes.ofTree redeclaredConstant .empty .empty).1 = .error failure ∧
      failure.fault.code.number = 3001 := by
  obtain ⟨failure, _, failed, _, _, number, _⟩ :=
    (Scopes.clashes_ofTree redeclaredConstant .empty .empty).2 _ _
      (.inside (.here [_] [] rfl rfl) rfl (.here [] [] rfl rfl)) (.ofString "x")
      (.inl ⟨List.mem_cons_self, by decide +kernel⟩)
  exact ⟨failure, failed, number⟩

/-- A constant with the name of a hidden variable, and the loop behind it. -/
def hiddenConstant : Node :=
  let number (value : Int) : Node := ⟨.literal (.int value), Span.none⟩
  let constant : Node :=
    ⟨.constantDecl [⟨.ofString "i|limit", none, some (number 5), Span.none⟩], Span.none⟩
  let loop : Node :=
    ⟨.forLoop (.ofString "i") (number 1) (number 3) none ⟨.name (.ofString "i"), Span.none⟩,
      Span.none⟩
  ⟨.begin [constant, loop], Span.none⟩

/-- The tree is accepted, and its constant is a variable as well. -/
theorem Scopes.clashes_hiddenConstant :
    ∃ scopes store bag, Scopes.ofTree hiddenConstant .empty .empty = (.ok scopes, store, bag) ∧
      scopes.Clashes Scopes.root (.ofString "i|limit") :=
  ⟨_, _, _, rfl, by decide +kernel⟩

end NewtonScript
