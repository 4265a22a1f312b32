import NewtonScript.Proofs.Emission.Adequacy
import NewtonScript.Proofs.Emission.Sealed
import NewtonScript.Proofs.Machine.Simulation
import NewtonScript.Proofs.Scope.Effects

/-!
# Compiled programs compute what they are evaluated to

The block of a structured program, decoded and run from its first instruction
on an empty stack, comes to a return with the value of the program alone on
the stack and with the variables of the environment behind the evaluation.
-/

namespace NewtonScript

open Bytecode Evaluation

/-! ## Declared names are variables of the function -/

namespace Declaration

/-- The variables that events declare in a scope are among some names. -/
def Admits (declared : Symbol → Bool) (id : ScopeId) (events : List Event) : Prop :=
  ∀ name span, ⟨id, .localName name, span⟩ ∈ events → declared name

variable {own declared : Symbol → Bool} {id : ScopeId}

theorem admits_append {first second : List Event} : Admits declared id (first ++ second) ↔
    Admits declared id first ∧ Admits declared id second := by
  simp only [Admits, List.mem_append, or_imp, forall_and]

mutual

/-- What a structured program declares may be among fewer names than all. -/
theorem isStructured_of_admits : (node : Node) → {next : ScopeId} →
    isStructured own (fun _ => true) node → Admits declared id (eventsOf node id next) →
      isStructured own declared node
  | ⟨expr, span⟩, _, structured, admits => by
    simp only [eventsOf, isStructured] at structured admits ⊢
    exact isStructuredExpr_of_admits expr structured admits

theorem isStructuredExpr_of_admits (expr : Expr) {span : Span} {next : ScopeId}
    (structured : isStructuredExpr own (fun _ => true) expr)
    (admits : Admits declared id (eventsOfExpr expr span id next)) :
    isStructuredExpr own declared expr := by
  cases expr with
  | literal => rw [isStructuredExpr]
  | name => rwa [isStructuredExpr] at structured ⊢
  | unary op operand =>
    cases op with
    | complement =>
      simp only [eventsOfExpr, isStructuredExpr] at structured admits ⊢
      exact isStructured_of_admits operand structured admits
    | negate => simp [isStructuredExpr] at structured
  | binary op lhs rhs =>
    simp only [eventsOfExpr, Trail.andThen, admits_append, isStructuredExpr, Bool.and_eq_true]
      at structured admits ⊢
    exact ⟨structured.1, isStructured_of_admits lhs structured.2.1 admits.1,
      isStructured_of_admits rhs structured.2.2 admits.2⟩
  | logical _ first second | whileLoop first second | repeatLoop first second =>
    simp only [eventsOfExpr, Trail.andThen, admits_append, isStructuredExpr, Bool.and_eq_true]
      at structured admits ⊢
    exact ⟨isStructured_of_admits first structured.1 admits.1,
      isStructured_of_admits second structured.2 admits.2⟩
  | ifThen cond thenBranch elseBranch =>
    cases elseBranch with
    | none =>
      simp only [eventsOfExpr, Trail.andThen, admits_append, isStructuredExpr, Bool.and_eq_true]
        at structured admits ⊢
      exact ⟨isStructured_of_admits cond structured.1 admits.1,
        isStructured_of_admits thenBranch structured.2 admits.2⟩
    | some elseBranch =>
      simp only [eventsOfExpr, Trail.andThen, admits_append, isStructuredExpr, Bool.and_eq_true]
        at structured admits ⊢
      exact ⟨isStructured_of_admits cond structured.1 admits.1,
        isStructured_of_admits thenBranch structured.2.1 admits.2.1,
        isStructured_of_admits elseBranch structured.2.2 admits.2.2⟩
  | begin items =>
    simp only [eventsOfExpr, isStructuredExpr] at structured admits ⊢
    exact areStructured_of_admits items structured admits
  | assign target value =>
    obtain ⟨target, place⟩ := target
    cases target with
    | name =>
      simp only [eventsOfExpr, Trail.andThen, admits_append, isStructuredExpr, Bool.and_eq_true]
        at structured admits ⊢
      exact ⟨structured.1, isStructured_of_admits value structured.2 admits.2⟩
    | _ => simp [isStructuredExpr] at structured
  | localDecl bindings =>
    simp only [eventsOfExpr, isStructuredExpr] at structured admits ⊢
    exact haveStructuredValues_of_admits bindings structured admits
  | _ => simp [isStructuredExpr] at structured

theorem areStructured_of_admits : (nodes : List Node) → {next : ScopeId} →
    areStructured own (fun _ => true) nodes → Admits declared id (eventsOfAll nodes id next) →
      areStructured own declared nodes
  | [], _, _, _ => by rw [areStructured]
  | node :: rest, _, structured, admits => by
    simp only [eventsOfAll, Trail.andThen, admits_append, areStructured, Bool.and_eq_true]
      at structured admits ⊢
    exact ⟨isStructured_of_admits node structured.1 admits.1,
      areStructured_of_admits rest structured.2 admits.2⟩

theorem haveStructuredValues_of_admits : (bindings : List Binding) → {next : ScopeId} →
    haveStructuredValues own (fun _ => true) bindings →
      Admits declared id (eventsOfLocals bindings id next) →
        haveStructuredValues own declared bindings
  | [], _, _, _ => by rw [haveStructuredValues]
  | ⟨name, _, some value, span⟩ :: rest, _, structured, admits => by
    simp only [eventsOfLocals, Trail.andThen, Trail.single, admits_append, haveStructuredValues,
      Bool.and_eq_true] at structured admits ⊢
    exact ⟨admits.2.1 name span List.mem_cons_self,
      isStructured_of_admits value structured.2.1 admits.1,
      haveStructuredValues_of_admits rest structured.2.2 admits.2.2⟩
  | ⟨name, _, none, span⟩ :: rest, _, structured, admits => by
    simp only [eventsOfLocals, Trail.andThen, Trail.single, admits_append, haveStructuredValues]
      at structured admits ⊢
    exact haveStructuredValues_of_admits rest structured admits.2

end

end Declaration

namespace Machine

open Emission

variable {V : Type} [DecidableEq V]

/-- The code of a function whose body carries an evaluation out returns with
the value alone on the stack. -/
theorem returns_of_carries {interp : Interpretation V} {setting : Setting} {id : ScopeId}
    {body : Node} {block : CodeBlock} {pool : LiteralPool} {store : Store}
    {code : Fragment Instruction} (sealed : Sealed setting id body block pool store code)
    {env env' : Environment V} {value : V}
    (carries : Carries interp (setting.ctx id)
      (codeOf (setting.ctx id) setting.globals body {} false) [] [value] env env')
    {memory : Nat → V}
    (agrees : Agrees (setting.scopes.get id) (setting.ctx id).layout env memory) :
    ∃ memory', Agrees (setting.scopes.get id) (setting.ctx id).layout env' memory' ∧
      Returns interp block.literal? (locate ((code.cells 0).map Cell.instr) 0)
        ⟨0, [], memory⟩ ⟨[value], memory'⟩ := by
  obtain ⟨memory', agrees', runs⟩ := carries [] memory agrees
  refine ⟨memory', agrees', ?_⟩
  have related := sealed.related
  have small := sealed.small
  rw [literal?_of_sealed sealed]
  -- The code of a function is that of its body and a return behind it.
  cases related with
  | @append _ _ inner ending ofBody ofReturn =>
    cases ofReturn
    have runs' := runs.rel (fun _ _ _ _ => exec_of_realized) ofBody
    have embedded := embedded_locate ((inner.append (.finish 0)).cells 0) 0 []
    simp only [Fragment.cells, embedded_append, List.nil_append, bytesOf_append, bytesOf_cons,
      Cell.size_finish, bytesOf_nil, Nat.zero_add] at embedded small ⊢
    have steps := steps_of_runs runs' embedded.1 (by unfold maxCodeSize at small; omega)
    rw [Nat.zero_add] at steps
    exact ⟨_, steps, embedded.2.1 rfl⟩

/-- A structured program that is compiled computes what it is evaluated to. -/
theorem returns_of_evaluates (interp : Interpretation V) {tree : Node}
    {declared scopes : Scopes} {options : Options} {block : CodeBlock}
    {store store' origin store'' : Store} {bag bag' bag₀ bag'' : DiagnosticBag}
    (declares : Scopes.ofTree tree store bag = (.ok declared, store', bag'))
    (refers : declared.withReferences tree = .ok scopes)
    (emits : CodeBlock.ofTree tree scopes options origin bag₀ = (.ok block, store'', bag''))
    (structured : isStructured (fun name => ((scopes.get Scopes.root).slotOf? name).isSome)
      (fun _ => true) tree)
    {env env' : Environment V} {value : V}
    (evaluates : Evaluates interp (.node tree) env value env') {memory : Nat → V}
    (agrees : Agrees (scopes.get Scopes.root) (.ofScope (scopes.get Scopes.root) options.compat)
      env memory) :
    ∃ code memory', decodeAll block.code = .ok code ∧
      Agrees (scopes.get Scopes.root) (.ofScope (scopes.get Scopes.root) options.compat)
        env' memory' ∧
      Returns interp block.literal? code ⟨0, [], memory⟩ ⟨[value], memory'⟩ := by
  let setting : Setting :=
    { scopes, options, origin, Known := fun _ => True, Literal := fun _ _ => True,
      known_own := fun _ _ => trivial, known_local := fun _ _ _ _ => trivial
      known_global := fun _ _ _ => trivial }
  have covers : setting.Covers tree := ⟨fun _ _ _ => trivial, fun _ _ _ _ _ _ _ => trivial⟩
  obtain ⟨-, pool, final, code, sealed, -⟩ := ofTree_eq_ok covers emits
  have owned : isStructured (owned (setting.ctx Scopes.root))
      (owned (setting.ctx Scopes.root)) tree := by
    suffices admits : Declaration.Admits (owned (setting.ctx Scopes.root)) Scopes.root
        tree.events from Declaration.isStructured_of_admits tree structured admits
    intro name span listed
    change ((scopes.get Scopes.root).slotOf? name).isSome
    rw [(Scopes.sameNames_withReferences refers).slotOf?]
    exact Scope.isSome_slotOf? (Scopes.owns_of_event declares listed List.mem_cons_self)
  have carries := simulates (setting.ctx Scopes.root) setting.globals evaluates owned {} false
  rw [leavesValue_false] at carries
  obtain ⟨memory', agrees', returns⟩ := returns_of_carries sealed carries agrees
  exact ⟨_, memory', decodeAll_of_sealed sealed, agrees', returns⟩

/-! ## A program with a loop -/

/-- Two values: `nil`, and all that counts as true. -/
def twoValues : Interpretation Bool where
  literal
    | .nil => false
    | _ => true
  literal_eq {first second} same := by
    cases first <;> cases second <;> simp_all [Value.sameLiteral]
  apply _ args := args.all not

/-- `begin local x := true; while x do x := nil; not x end`. -/
def switchOff : Node :=
  let name : Node := ⟨.name (.ofString "x"), Span.none⟩
  let off : Node := ⟨.assign name ⟨.literal .nil, Span.none⟩, Span.none⟩
  let on : Node := ⟨.literal .truth, Span.none⟩
  ⟨.begin [⟨.localDecl [⟨.ofString "x", none, some on, Span.none⟩], Span.none⟩,
    ⟨.whileLoop name off, Span.none⟩, ⟨.unary .complement name, Span.none⟩], Span.none⟩

/-- The scope of a function whose one local is `x`. -/
def switchScopes (locations : Table Symbol Location) (references : Table Symbol Nat) : Scopes :=
  ⟨#[{ parent := none
       span := Span.none
       locals := [.ofString "x"]
       explicitLocals := [.ofString "x"]
       locations
       references }], .empty⟩

theorem evaluates_switchOff (env : Environment Bool) :
    Evaluates twoValues (.node switchOff) env true
      ((env.assign (.ofString "x") true).assign (.ofString "x") false) := by
  have read : ∀ (env : Environment Bool) (value : Bool),
      Evaluates twoValues (.node ⟨.name (.ofString "x"), Span.none⟩)
        (env.assign (.ofString "x") value) value (env.assign (.ofString "x") value) := by
    intro env value
    have found : env.assign (.ofString "x") value (Symbol.ofString "x").folded = value :=
      Function.update_self ..
    exact .name
  have turned : Evaluates twoValues
      (.node ⟨.assign ⟨.name (.ofString "x"), Span.none⟩ ⟨.literal .nil, Span.none⟩, Span.none⟩)
      (env.assign (.ofString "x") true) false
      ((env.assign (.ofString "x") true).assign (.ofString "x") false) := .assign .literal
  exact .begin (.nextItem (.declare (.lastBinding .literal rfl .noBinding))
    (.nextItem (.whileAgain (read env true) (by decide) turned (.whileDone (read _ false)))
      (.lastItem (.complement (read _ false)))))

theorem withReferences_switchOff :
    (switchScopes .empty .empty).withReferences switchOff =
      .ok (switchScopes ⟨[(.ofString "x", .slot)]⟩ ⟨[(.ofString "x", 3)]⟩) := by
  have visited : Capture.visit switchOff Scopes.root (switchScopes .empty .empty) =
      .ok () (switchScopes .empty ⟨[(.ofString "x", 3)]⟩) := by rfl
  simp only [Scopes.withReferences, visited]
  simp only [switchScopes, List.map_toArray]
  rfl

/-- The block of the program. -/
def switchBlock : CodeBlock where
  code := [39, 0, 26, 160, 120, 111, 0, 11, 34, 160, 92, 34, 0, 120, 197, 2]
  literals := none
  numArgs := 0x10000
  argFrame := none
  debug := none
  compat := .native

theorem ofTree_switchOff :
    CodeBlock.ofTree switchOff (switchScopes ⟨[(.ofString "x", .slot)]⟩ ⟨[(.ofString "x", 3)]⟩)
      {} .empty .empty = (.ok switchBlock, .empty, .empty) := by
  rfl

/-- The loop is left, and the program returns true with its variable off. -/
theorem returns_switchOff :
    ∃ code memory, decodeAll switchBlock.code = .ok code ∧ memory 0 = false ∧
      Returns twoValues switchBlock.literal? code ⟨0, [], fun _ => false⟩ ⟨[true], memory⟩ := by
  have declares : Scopes.ofTree switchOff .empty .empty =
      (.ok (switchScopes .empty .empty), .empty, .empty) := by rfl
  have agrees : Agrees
      ((switchScopes ⟨[(.ofString "x", .slot)]⟩ ⟨[(.ofString "x", 3)]⟩).get Scopes.root)
      (.ofScope ((switchScopes ⟨[(.ofString "x", .slot)]⟩ ⟨[(.ofString "x", 3)]⟩).get Scopes.root)
        .native) (fun _ => false) fun _ => false := fun _ _ _ => rfl
  obtain ⟨code, memory, decoded, agrees', returns⟩ := returns_of_evaluates twoValues declares
    withReferences_switchOff ofTree_switchOff (by decide +kernel)
    (evaluates_switchOff fun _ => false) agrees
  exact ⟨code, memory, decoded, agrees' (.ofString "x") 0 (by decide +kernel), returns⟩

end Machine

end NewtonScript
