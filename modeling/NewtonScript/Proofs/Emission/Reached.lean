import Mathlib.Tactic.ByContra
import NewtonScript.Proofs.Emission.Script

/-!
# What emission comes to

Emission works its way through a tree until something is refused.  A part of
the tree is reached when all that is emitted before it was emitted.  It is
reached inside so many open loops as there are loops of its function around
it.

A refusal that is not due to what a program asks for has its place in the
tree: a break in no loop, a loop whose variables have no slots, or a function
literal without a scope.
-/

namespace NewtonScript

namespace Emission

variable {span : Span} {body : EmitM Unit}

/-- The loops around a part of a node. -/
def loopsAround (node : Node) (loops : List Node) (within : Bool) : List Node :=
  if within then node :: loops else loops

/-! ## Open loops -/

/-- So many loops are open, one more inside the loop that is emitted, and the
code has so many bytes at least. -/
def Level (base size : Nat) (within : Bool) (state : State) : Prop :=
  (state.function.loops.length = base + if within then 1 else 0) ∧ size ≤ state.size

section

variable {value : Unit} {base size : Nat} {α : Type} {ctx : Context} {state final : State}

theorem Level.kept {within : Bool} (level : Level base size within state)
    (kept : final.function.loops = state.function.loops ∧ state.size ≤ final.size) :
    Level base size within final :=
  ⟨(congrArg List.length kept.1).trans level.1, Nat.le_trans level.2 kept.2⟩

theorem level_patchBreaks (level : Level base size true state)
    (run : patchBreaks ctx state = .ok value final) : Level base size false final := by
  obtain ⟨_, _, got, run⟩ := bind_eq_ok run
  cases got
  obtain ⟨_, middle, popped, run⟩ := bind_eq_ok run
  cases popped
  obtain ⟨loops, grown⟩ := (elementary_patchAllHere _).kept _ _ _ _ run
  refine ⟨(congrArg List.length loops).trans ?_, Nat.le_trans level.2 grown⟩
  rw [List.length_tail, level.1]
  rfl

theorem level_refuseOutsideLoop (level : Level base size false state)
    (run : refuseOutsideLoop span ctx state = .ok value final) :
    Level base size false final := by
  obtain ⟨_, _, got, run⟩ := bind_eq_ok run
  cases got
  split at run
  · cases run
  · cases run
    exact level

theorem level_breakHere (level : Level base size false state)
    (run : breakHere ctx state = .ok value final) : Level base size false final := by
  obtain ⟨site, middle, reserved, run⟩ := bind_eq_ok run
  have kept := level.kept ((elementary_reserve .branch).kept _ _ _ _ reserved)
  cases run
  refine ⟨Eq.trans ?_ kept.1, Nat.le_trans kept.2 (Nat.le_of_eq ?_)⟩
  all_goals cases found : middle.function.loops <;> simp only [State.size, found, List.length_cons]

/-- An action leaves the function that is emitted alone, failed or not. -/
def Aside {α : Type} (action : EmitM α) : Prop :=
  ∀ ctx outer, Preserves (fun state : State => state.function = outer) (action ctx)

theorem Aside.bind {α β : Type} {action : EmitM α} {next : α → EmitM β} (first : Aside action)
    (second : ∀ value, Aside (next value)) : Aside (action >>= next) :=
  fun ctx outer => (first ctx outer).seq fun value => second value ctx outer

theorem aside_pure {α : Type} (value : α) : Aside (pure value : EmitM α) :=
  fun _ _ => ensures_pure trivial

theorem aside_withStore {α : Type} (action : Store → α × Store) : Aside (withStore action) :=
  fun _ _ => ensures_modifyGet fun _ same => ⟨same, trivial⟩

theorem aside_frameTemplate? (scope : Scope) : Aside (frameTemplate? scope) := by
  have interned : ∀ spellings, Aside (internAll spellings) := by
    intro spellings
    induction spellings with
    | nil => exact aside_pure _
    | cons _ _ ih => exact (aside_withStore _).bind fun _ => ih.bind fun _ => aside_pure _
  refine Aside.bind (fun _ _ => ensures_pure trivial) fun ctx => ?_
  split
  · exact ((interned _).bind fun _ => (aside_withStore _).bind fun _ => aside_withStore _).bind
      fun _ => aside_pure _
  · exact aside_pure _

theorem aside_sealCode (function : FunctionCode) : Aside (sealCode function) := by
  refine Aside.bind (fun _ _ => ensures_pure trivial) fun ctx => ?_
  dsimp only
  split
  · exact Aside.bind (fun _ _ => ensures_throw trivial) fun _ =>
      (aside_frameTemplate? _).bind fun _ => aside_pure _
  · exact (aside_frameTemplate? _).bind fun _ => aside_pure _

/-- The function around another one is left alone, also when that is
refused. -/
theorem aside_functionBlock (id : ScopeId) (body : EmitM Unit) : Aside (functionBlock id body) := by
  have alone : Aside (isolated body) := by
    intro ctx outer state same
    unfold isolated
    cases (do body; simple .ret : EmitM Unit) ctx { state with function := {} } with
    | ok => exact ⟨same, trivial⟩
    | error => exact ⟨same, trivial⟩
  exact fun ctx => (alone.bind aside_sealCode) (.ofScope ctx.scopes ctx.options id)

/-- A function literal that is emitted has a scope and a block. -/
theorem functionLiteral_eq_ok {function : FuncId} {discard left : Bool}
    (run : functionLiteral function span body discard ctx state = .ok left final) :
    (final.function.loops = state.function.loops ∧ state.size ≤ final.size) ∧
      ∃ inner block middle, ctx.scopes.scopeOf? function = some inner ∧
        functionBlock inner body ctx state = .ok block middle := by
  obtain ⟨_, _, got, run⟩ := bind_eq_ok run
  cases got
  cases found : ctx.scopes.scopeOf? function with
  | none =>
    simp only [found] at run
    cases run
  | some inner =>
    simp only [found] at run
    obtain ⟨block, middle, made, run⟩ := bind_eq_ok run
    refine ⟨?_, inner, block, middle, rfl, made⟩
    have restored := ((aside_functionBlock inner body ctx _).of_ok rfl made).1
    rw [State.size, ← restored]
    cases discard with
    | true =>
      cases run
      exact ⟨rfl, Nat.le_refl _⟩
    | false => exact (elementary_pushBlock block).kept _ _ _ _ run

/-- What the emission of a node is made of opens and closes the loop that the
node is, and no other. -/
theorem Script.level {node : Node} {emitted : List Node} {before after : Bool}
    {action : EmitM α} (script : Script node emitted before after action)
    (parts : ∀ part : Node, sizeOf part < sizeOf node → ∀ discard base size state value final,
      Level base size false state → Emission.emit part discard ctx state = .ok value final →
        Level base size false final)
    {value : α} (level : Level base size before state)
    (run : action ctx state = .ok value final) : Level base size after final := by
  induction script generalizing state final with
  | bind _ _ first rest =>
    obtain ⟨found, middle, early, late⟩ := bind_eq_ok run
    exact rest found (first level early) late
  | step elementary => exact level.kept (elementary.kept _ _ _ _ run)
  | find => exact level.kept ((elementary_find _ _).kept _ _ _ _ run)
  | openLoop =>
    cases run
    exact ⟨congrArg (· + 1) level.1, level.2⟩
  | patchBreaks => exact level_patchBreaks level run
  | refuseOutsideLoop => exact level_refuseOutsideLoop level run
  | breakHere => exact level_breakHere level run
  | emit isPart discard => exact parts _ isPart.sizeOf_lt discard _ _ _ _ _ level run
  | functionLiteral => exact level.kept (functionLiteral_eq_ok run).1

theorem level_emit (node : Node) (discard : Bool) (base size : Nat) (state : State) (left : Bool)
    (final : State) (level : Level base size false state)
    (run : emit node discard ctx state = .ok left final) : Level base size false final :=
  (script_emit node discard).level (fun part _ => level_emit part) level run
termination_by sizeOf node

end

/-! ## Actions inside actions -/

/-- Running a part of the emission of a node comes to another part of it.  The
flags tell whether the two begin inside the loop that the node is. -/
inductive Starts (node : Node) (ctx : Context) {β : Type} (target : EmitM β) (within : Bool)
    (reached : State) : {α : Type} → Bool → EmitM α → State → Prop where
  | here : Starts node ctx target within reached within target reached
  | first {α γ : Type} {parts others : List Node} {before between after : Bool}
      {action : EmitM α} {next : α → EmitM γ} {state : State}
      (starts : Starts node ctx target within reached before action state)
      (script : Script node parts before between action)
      (rest : ∀ value, Script node others between after (next value)) :
      Starts node ctx target within reached before (action >>= next) state
  | second {α γ : Type} {parts : List Node} {before between : Bool} {action : EmitM α}
      {next : α → EmitM γ} {state middle : State} {value : α}
      (script : Script node parts before between action) (run : action ctx state = .ok value middle)
      (starts : Starts node ctx target within reached between (next value) middle) :
      Starts node ctx target within reached before (action >>= next) state

section

variable {node : Node} {ctx : Context} {α β : Type} {target : EmitM β} {within before : Bool}
  {reached state : State} {action : EmitM α}

theorem Starts.level {base size : Nat}
    (starts : Starts node ctx target within reached before action state)
    (level : Level base size before state) : Level base size within reached := by
  induction starts with
  | here => exact level
  | first _ _ _ ih => exact ih level
  | second script run _ ih =>
    exact ih (script.level (fun part _ => level_emit part) level run)

/-- What an action comes to that succeeds succeeds too, with no more code. -/
theorem Starts.succeeds (starts : Starts node ctx target within reached before action state)
    {base : Nat} (level : Level base 0 before state) {value : α} {final : State}
    (run : action ctx state = .ok value final) :
    ∃ found last, target ctx reached = .ok found last ∧ last.size ≤ final.size := by
  induction starts generalizing final with
  | here => exact ⟨value, final, run, Nat.le_refl _⟩
  | first _ script rest ih =>
    obtain ⟨given, middle, early, late⟩ := bind_eq_ok run
    obtain ⟨found, last, ran, small⟩ := ih level early
    have between := (script.level (fun part _ => level_emit part) level early).1
    have grown := (rest given).level (fun part _ => level_emit part) ⟨between, Nat.le_refl _⟩ late
    exact ⟨found, last, ran, Nat.le_trans small grown.2⟩
  | second script ran _ ih =>
    obtain ⟨_, middle, early, late⟩ := bind_eq_ok run
    cases ran.symm.trans early
    exact ih (script.level (fun part _ => level_emit part) level ran) late

/-- The emission of a node that succeeds comes to all that it emits. -/
theorem Script.starts {parts : List Node} {after : Bool} {part : Node}
    (script : Script node parts before after action) {value : α} {final : State}
    (run : action ctx state = .ok value final) (member : part ∈ parts) :
    ∃ pending around within discard reached, Part node pending within around part ∧
      Starts node ctx (Emission.emit part discard) within reached before action state := by
  induction script generalizing state final with
  | bind script behind first rest =>
    obtain ⟨found, middle, early, late⟩ := bind_eq_ok run
    rcases List.mem_append.mp member with member | member
    · obtain ⟨pending, around, within, discard, reached, isPart, starts⟩ := first early member
      exact ⟨pending, around, within, discard, reached, isPart, starts.first script behind⟩
    · obtain ⟨pending, around, within, discard, reached, isPart, starts⟩ := rest found late member
      exact ⟨pending, around, within, discard, reached, isPart, starts.second script early⟩
  | emit isPart discard =>
    cases List.mem_singleton.mp member
    exact ⟨_, _, _, discard, state, isPart, .here⟩
  | _ => cases member

end

/-! ## Parts of trees -/

/-- The parts of a tree that its emission comes to: the scope of the function
that is emitted then, the loops of that function around the part, and the
state. -/
inductive Reaches (scopes : Scopes) (options : Options) (tree : Node) (start : State) :
    ScopeId → List Node → State → Node → Bool → Prop where
  | whole : Reaches scopes options tree start Scopes.root [] start tree false
  | part {id : ScopeId} {loops : List Node} {state reached : State} {node part : Node}
      {discard discard' within : Bool} {pending around : Pending}
      (outer : Reaches scopes options tree start id loops state node discard)
      (isPart : Part node pending within around part)
      (starts : Starts node (.ofScope scopes options id) (emit part discard') within reached false
        (emit node discard) state) :
      Reaches scopes options tree start id (loopsAround node loops within) reached part discard'
  | body {id inner : ScopeId} {loops : List Node} {state reached : State} {function : FuncId}
      {params : List Param} {body : Node} {native discard discard' : Bool} {name : Option Symbol}
      {span : Span}
      (outer : Reaches scopes options tree start id loops state
        ⟨.func function params body native name, span⟩ discard)
      (scope : scopes.scopeOf? function = some inner)
      (starts : Starts ⟨.func function params body native name, span⟩ (.ofScope scopes options id)
        (functionLiteral function span (value (emit body)) discard') false reached false
        (emit ⟨.func function params body native name, span⟩ discard) state) :
      Reaches scopes options tree start inner [] { reached with function := {} } body false

section

variable {last state start : State} {failure : Failure} {scopes : Scopes} {options : Options}
  {id : ScopeId} {discard : Bool} {tree node : Node} {loops : List Node}

theorem Part.site {part : Node} {pending around : Pending} {within : Bool}
    (isPart : Part node pending within around part)
    (outer : scopes.Site tree Scopes.root id node) : scopes.Site tree Scopes.root id part :=
  isPart.closed (fun _ => scopes.Site tree Scopes.root id)
    (fun outer member => outer.child (mem_children_of_partsOf member)) outer

/-- A part is emitted into the scope in which it stands. -/
theorem Reaches.site (reaches : Reaches scopes options tree start id loops state node discard) :
    scopes.Site tree Scopes.root id node := by
  induction reaches with
  | whole => exact .whole
  | part _ isPart _ ih => exact isPart.site ih
  | body _ scope _ ih => exact ih.body scope

/-- As many loops are open as there are loops around. -/
theorem Reaches.level (fresh : start.function.loops = [])
    (reaches : Reaches scopes options tree start id loops state node discard) :
    Level loops.length 0 false state := by
  induction reaches with
  | whole => exact ⟨congrArg List.length fresh, Nat.zero_le _⟩
  | @part _ _ _ _ _ _ _ _ within _ _ _ _ starts ih =>
    have level := starts.level ih
    cases within with
    | true => exact level
    | false => exact level
  | body => exact ⟨rfl, Nat.zero_le _⟩

/-! ## Where emission gets stuck -/

/-- A reason to refuse a node that does not depend on what was emitted before
it. -/
inductive Stuck (scopes : Scopes) (id : ScopeId) : List Node → Node → Failure → Prop where
  | outsideLoop {value : Option Node} {span : Span} :
      Stuck scopes id [] ⟨.breakLoop value, span⟩ ⟨.breakOutsideLoop, span⟩
  | slotless {loops : List Node} {node : Node} {failure : Failure} {name missing : Symbol}
      (member : name ∈ node.expr.loopVariables) (unknown : (scopes.get id).owns name = false)
      (isFault : failure.fault = .notLocal missing) : Stuck scopes id loops node failure
  | scopeless {loops : List Node} {function : FuncId} {params : List Param} {body : Node}
      {native : Bool} {name : Option Symbol} {span : Span}
      (unknown : scopes.scopeOf? function = none) :
      Stuck scopes id loops ⟨.func function params body native name, span⟩
        ⟨.undeclaredFunction, span⟩

/-- A failure is an ordinary one, or emission got stuck with it at a node that
was reached. -/
def Blamed (scopes : Scopes) (options : Options) (tree : Node) (start : State)
    (failure : Failure) : Prop :=
  failure.fault.Ordinary ∨ ∃ id loops state node discard,
    Reaches scopes options tree start id loops state node discard ∧ Stuck scopes id loops node failure

end

section

/-- An action succeeds from every state with a result that has a property. -/
def Gives {α : Type} (ctx : Context) (action : EmitM α) (good : α → Prop) : Prop :=
  ∀ state, ∃ value final, action ctx state = .ok value final ∧ good value

variable {α β : Type} {ctx : Context}

theorem Gives.bind {action : EmitM α} {next : α → EmitM β} {good : α → Prop} {fine : β → Prop}
    (first : Gives ctx action good) (rest : ∀ value, good value → Gives ctx (next value) fine) :
    Gives ctx (action >>= next) fine := by
  intro state
  obtain ⟨value, middle, run, isGood⟩ := first state
  obtain ⟨result, final, ran, isFine⟩ := rest value isGood middle
  exact ⟨result, final, (bind_of_ok run next).trans ran, isFine⟩

theorem Gives.not_error {action : EmitM α} {good : α → Prop} (gives : Gives ctx action good)
    {state final : State} {failure : Failure} :
    action ctx state ≠ .error failure final := by
  obtain ⟨value, last, run, -⟩ := gives state
  rw [run]
  exact fun equal => by cases equal

theorem gives_pure (value : α) : Gives ctx (pure value : EmitM α) fun _ => True :=
  fun state => ⟨value, state, rfl, trivial⟩

/-- The scope of the function that is emitted owns a name. -/
def Context.Owns (ctx : Context) (name : Symbol) : Prop :=
  (ctx.scopes.get ctx.scope).owns name = true

theorem gives_localSlot {name : Symbol} (owned : ctx.Owns name) (span : Span) :
    Gives ctx (localSlot name span) fun _ => True := by
  obtain ⟨slot, found⟩ := Option.isSome_iff_exists.mp (Scope.isSome_slotOf? owned)
  intro state
  refine ⟨slot, state, ?_, trivial⟩
  refine Eq.trans (bind_of_ok rfl _) ?_
  simp only [found]
  rfl

theorem gives_hiddenName {parts : List Symbol} {word : String}
    (owned : ctx.Owns (.ofString (hiddenSpelling parts word))) :
    Gives ctx (withStore (hiddenName parts word)) ctx.Owns := by
  intro state
  refine ⟨_, _, rfl, Scope.owns_congr owned ?_⟩
  rw [BEq.comm]
  exact Store.intern_eq _ _

theorem gives_findSlots (span : Span) {names : List Symbol}
    (owned : ∀ name ∈ names, ctx.Owns name) :
    Gives ctx (findSlots span names) fun _ => True := by
  induction names with
  | nil => exact gives_pure ()
  | cons name rest ih =>
    obtain ⟨ofName, others⟩ := List.forall_mem_cons.mp owned
    exact (gives_localSlot ofName span).bind fun _ _ => ih others

theorem gives_withNames {vars : List Variable} (owned : ∀ var ∈ vars, ctx.Owns var.name)
    {next : List Symbol → EmitM Unit}
    (gives : ∀ names, (∀ name ∈ names, ctx.Owns name) →
      Gives ctx (next names) fun _ => True) :
    Gives ctx (withNames vars next) fun _ => True := by
  induction vars generalizing next with
  | nil => exact gives [] (by simp)
  | cons var rest ih =>
    obtain ⟨ofVar, others⟩ := List.forall_mem_cons.mp owned
    cases var with
    | named name =>
      exact ih others fun names all => gives (name :: names) (List.forall_mem_cons.mpr ⟨ofVar, all⟩)
    | hidden parts word =>
      refine (gives_hiddenName ofVar).bind fun name ofName => ih others fun names all => ?_
      exact gives (name :: names) (List.forall_mem_cons.mpr ⟨ofName, all⟩)

end

section

variable {state last start : State} {failure : Failure} {ctx : Context} {scopes : Scopes}
  {options : Options} {tree node : Node} {id : ScopeId} {loops : List Node} {discard : Bool}

/-- A loop that does not find its slots is stuck. -/
theorem blamed_of_find {origin : State} {vars : List Variable}
    (outer : Reaches scopes options tree start id loops origin node discard)
    (ofNode : ∀ var ∈ vars, var.name ∈ node.expr.loopVariables)
    (failed : withNames vars (findSlots span) (.ofScope scopes options id) state =
      .error failure last) : Blamed scopes options tree start failure := by
  rcases (elementary_find vars span).fault _ _ _ _ failed with ordinary | ⟨missing, isFault⟩
  · exact .inl ordinary
  · refine .inr ⟨id, loops, origin, node, discard, outer, ?_⟩
    by_contra free
    refine (gives_withNames (fun var member => ?_) fun _ => gives_findSlots span).not_error failed
    by_contra unknown
    exact free (.slotless (ofNode var member) (Bool.eq_false_iff.mpr unknown) isFault)

theorem blamed_of_patchBreaks (failed : patchBreaks ctx state = .error failure last) :
    Blamed scopes options tree start failure := by
  rcases bind_eq_error failed with early | ⟨_, _, -, late⟩
  · cases early
  · rcases bind_eq_error late with early | ⟨_, _, -, late⟩
    · cases early
    · exact .inl ((elementary_patchAllHere _).fault _ _ _ _ late)

theorem blamed_of_breakHere (failed : breakHere ctx state = .error failure last) :
    Blamed scopes options tree start failure := by
  rcases bind_eq_error failed with early | ⟨_, _, -, late⟩
  · exact .inl ((elementary_reserve .branch).fault _ _ _ _ early)
  · cases late

theorem refuseOutsideLoop_error (failed : refuseOutsideLoop span ctx state = .error failure last) :
    state.function.loops = [] ∧ failure = ⟨.breakOutsideLoop, span⟩ := by
  rcases bind_eq_error failed with early | ⟨_, _, got, late⟩
  · cases early
  · cases got
    split at late
    · rename_i empty
      cases late
      exact ⟨List.isEmpty_iff.mp empty, rfl⟩
    · cases late

/-- The block of a function is refused if its body is, or if it does not
fit. -/
theorem functionBlock_error_cases {inner : ScopeId}
    (failed : functionBlock inner body ctx state = .error failure last) :
    failure.fault.Ordinary ∨ ∃ final,
      body (.ofScope ctx.scopes ctx.options inner) { state with function := {} } =
        .error failure final := by
  rcases bind_eq_error failed with alone | ⟨function, _, -, sealed⟩
  · unfold isolated at alone
    split at alone
    · cases alone
    · rename_i inner ran
      cases alone
      rcases bind_eq_error ran with early | ⟨_, _, -, late⟩
      · exact .inr ⟨_, early⟩
      · exact .inl ((elementary_simple .ret).fault _ _ _ _ late)
  · exact .inl ((elementary_sealCode function).fault _ _ _ _ sealed)

/-- A function literal is refused if it has no scope, if its body is, or if it
does not fit. -/
theorem functionLiteral_error_cases {function : FuncId}
    (failed : functionLiteral function span body discard (.ofScope scopes options id) state =
      .error failure last) :
    failure.fault.Ordinary ∨
      (scopes.scopeOf? function = none ∧ failure = ⟨.undeclaredFunction, span⟩) ∨
        ∃ inner final, scopes.scopeOf? function = some inner ∧
          body (.ofScope scopes options inner) { state with function := {} } =
            .error failure final := by
  rcases bind_eq_error failed with early | ⟨_, _, got, late⟩
  · cases early
  cases got
  dsimp only [Context.ofScope] at late
  cases found : scopes.scopeOf? function with
  | none =>
    rw [found] at late
    cases late
    exact .inr (.inl ⟨rfl, rfl⟩)
  | some inner =>
    rw [found] at late
    rcases bind_eq_error late with block | ⟨block, _, -, pushed⟩
    · rcases functionBlock_error_cases block with ordinary | ⟨final, ran⟩
      · exact .inl ordinary
      · exact .inr (.inr ⟨_, final, rfl, ran⟩)
    · cases discard with
      | true => cases pushed
      | false => exact .inl ((elementary_pushBlock block).fault _ _ _ _ pushed)

variable {β : Type} {emitted : List Node} {before after : Bool} {action : EmitM β}

/-- Where an action fails that the emission of a node came to, something is to
blame, if something is where the emission of a part fails. -/
theorem Script.blamed (script : Script node emitted before after action)
    (fresh : start.function.loops = [])
    (parts : ∀ part : Node, sizeOf part < sizeOf node → ∀ id loops state discard failure last,
      Reaches scopes options tree start id loops state part discard →
        Emission.emit part discard (.ofScope scopes options id) state = .error failure last →
          Blamed scopes options tree start failure) {origin : State}
    (outer : Reaches scopes options tree start id loops origin node discard)
    (into : ∀ {γ : Type} {target : EmitM γ} {within : Bool} {reached : State},
      Starts node (.ofScope scopes options id) target within reached before action state →
        Starts node (.ofScope scopes options id) target within reached false
          (Emission.emit node discard) origin)
    (failed : action (.ofScope scopes options id) state = .error failure last) :
    Blamed scopes options tree start failure := by
  induction script generalizing state last with
  | bind script behind first rest =>
    rcases bind_eq_error failed with early | ⟨value, middle, run, late⟩
    · exact first (fun starts => into (starts.first script behind)) early
    · exact rest value (fun starts => into (starts.second script run)) late
  | step elementary => exact .inl (elementary.fault _ _ _ _ failed)
  | find ofNode => exact blamed_of_find outer ofNode failed
  | openLoop => cases failed
  | patchBreaks => exact blamed_of_patchBreaks failed
  | refuseOutsideLoop isNode =>
    subst isNode
    obtain ⟨none, rfl⟩ := refuseOutsideLoop_error failed
    have level := (into .here).level (outer.level fresh)
    rw [Level, none] at level
    obtain rfl : loops = [] := List.eq_nil_of_length_eq_zero level.1.symm
    exact .inr ⟨id, [], origin, _, discard, outer, .outsideLoop⟩
  | breakHere => exact blamed_of_breakHere failed
  | emit isPart discard =>
    exact parts _ isPart.sizeOf_lt _ _ _ _ _ _ (outer.part isPart (into .here)) failed
  | functionLiteral isNode =>
    subst isNode
    rcases functionLiteral_error_cases failed with ordinary | ⟨unknown, rfl⟩ | ⟨inner, last, scope, ran⟩
    · exact .inl ordinary
    · exact .inr ⟨id, loops, origin, _, _, outer, .scopeless unknown⟩
    · rcases bind_eq_error ran with early | ⟨_, _, -, late⟩
      · refine parts _ ?_ _ _ _ _ _ _ (outer.body scope (into .here)) early
        simp only [Node.mk.sizeOf_spec, Expr.func.sizeOf_spec]
        omega
      · cases late

/-- Where the emission of a part fails, something is to blame. -/
theorem blamed_of_reaches (fresh : start.function.loops = []) (node : Node) (id : ScopeId)
    (loops : List Node) (state : State) (discard : Bool) (failure : Failure) (last : State)
    (reaches : Reaches scopes options tree start id loops state node discard)
    (failed : emit node discard (.ofScope scopes options id) state = .error failure last) :
    Blamed scopes options tree start failure :=
  (script_emit node discard).blamed fresh (fun part _ => blamed_of_reaches fresh part) reaches
    (fun starts => starts) failed
termination_by sizeOf node

end

end Emission

end NewtonScript
