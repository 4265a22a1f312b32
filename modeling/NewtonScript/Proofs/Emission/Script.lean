import NewtonScript.Proofs.Emission.Following

/-!
# What the emission of a node is made of

The emission of a node is a row of elementary steps and of emissions of parts
of the node.  What else it does depends on the kind of the node: a loop opens
and closes itself once, a break leaves a loop, a counting loop asks for its
slots, and a function literal has its body emitted on its own.

Everything that is said about emission as a whole is said once about these
few ways to put it together: it changes the store harmlessly, whether it
succeeds or fails.  What was interned and shared before a failure stays, and
compiling goes on with it.
-/

namespace NewtonScript.Emission

open Bytecode (Label)

theorem elementary_find (vars : List Variable) (span : Span) :
    Elementary Fault.Slotless (withNames vars (findSlots span)) := by
  refine withNames_findSlots span (fun names => ?_) (fun _ _ _ => (elementary_intern _).bind) vars
  induction names with
  | nil => exact elementary_pure ()
  | cons name rest ih => exact (elementary_localSlot name span).bind fun _ => ih

/-- An action that is part of the emission of a node, and the parts of the node
that it emits.  The two flags tell whether it begins and ends inside the loop
that the node is. -/
inductive Script (node : Node) : {α : Type} → List Node → Bool → Bool → EmitM α → Prop where
  | bind {α β : Type} {parts others : List Node} {before between after : Bool} {action : EmitM α}
      {next : α → EmitM β} (first : Script node parts before between action)
      (rest : ∀ value, Script node others between after (next value)) :
      Script node (parts ++ others) before after (action >>= next)
  | step {α : Type} {within : Bool} {action : EmitM α}
      (elementary : Routine action) : Script node [] within within action
  | find {within : Bool} {vars : List Variable} {span : Span}
      (ofNode : ∀ var ∈ vars, var.name ∈ node.expr.loopVariables) :
      Script node [] within within (withNames vars (findSlots span))
  | openLoop (isLoop : node.expr.isLoop = true) : Script node [] false true openLoop
  | patchBreaks (isLoop : node.expr.isLoop = true) : Script node [] true false patchBreaks
  | refuseOutsideLoop {value : Option Node} {span : Span}
      (isNode : node = ⟨.breakLoop value, span⟩) :
      Script node [] false false (refuseOutsideLoop span)
  | breakHere {value : Option Node} {span : Span} (isNode : node = ⟨.breakLoop value, span⟩) :
      Script node [] false false breakHere
  | emit {within : Bool} {pending around : Pending} {part : Node}
      (isPart : Part node pending within around part) (discard : Bool) :
      Script node [part] within within (emit part discard)
  | functionLiteral {id : FuncId} {params : List Param} {body : Node} {native : Bool}
      {name : Option Symbol} {span : Span} (isNode : node = ⟨.func id params body native name, span⟩)
      (discard : Bool) :
      Script node [] false false (functionLiteral id span (value (Emission.emit body)) discard)

namespace Script

variable {emitted : Bool → EmitM Bool} {node : Node} {parts : List Node} {pending around : Pending}
  {within : Bool} {α β : Type}

theorem pure (value : α) : Script node [] within within (pure value : EmitM α) :=
  .step (elementary_pure value)

/-- What follows emits nothing. -/
theorem andThen {before between after : Bool} {action : EmitM α} {next : α → EmitM β}
    (first : Script node parts before between action)
    (rest : ∀ value, Script node [] between after (next value)) :
    Script node parts before after (action >>= next) :=
  List.append_nil parts ▸ first.bind rest

theorem bind_pure {before after : Bool} {action : EmitM α}
    (first : Script node parts before after action) (result : α → β) :
    Script node parts before after (action >>= fun value => Pure.pure (result value)) :=
  first.andThen fun value => .pure (result value)

/-! ## Branching -/

theorem value (script : Script node parts within within (emitted false)) :
    Script node parts within within (value emitted) :=
  script.bind_pure fun _ => ()

theorem effect (item : Node) (script : Script node parts within within (emitted true)) :
    Script node parts within within (effect item emitted) := by
  have popped : Script node parts within within (do if ← emitted true then simple .pop) := by
    refine script.andThen fun left => ?_
    cases left with
    | true => exact .step (elementary_simple .pop)
    | false => exact .pure ()
  unfold Emission.effect
  cases unusedWarning? item with
  | some warning => exact (Script.step (elementary_report warning)).bind fun _ => popped
  | none => exact popped

theorem arm (item : Node) (discard : Bool)
    (script : ∀ discard, Script node parts within within (emitted discard)) :
    Script node parts within within (arm item discard emitted) := by
  cases discard with
  | true => exact .effect item (script true)
  | false => exact .value (script false)

theorem tryCatch (handlers : List Handler) {others : List Node} {body : EmitM Unit}
    {emitted : List Label → EmitM (List Label)} (ofBody : Script node parts within within body)
    (ofHandlers : ∀ addresses, Script node others within within (emitted addresses)) :
    Script node (parts ++ others) within within (tryCatch handlers body emitted) := by
  refine (Script.step (elementary_handlerTable handlers)).bind fun addresses => ?_
  refine (Script.step (elementary_op _ _)).bind fun _ => ofBody.bind fun _ => ?_
  refine (Script.step (elementary_simple _)).bind fun _ => ?_
  refine (Script.step (elementary_reserve .branch)).bind fun toContinuation => ?_
  refine (ofHandlers addresses).andThen fun ends => .step ?_
  exact (elementary_patchAllHere ends).bind fun _ => (elementary_simple _).bind fun _ =>
    elementary_patchHere toContinuation

theorem emitHandlers {handlers : List Handler}
    (parts : ∀ part ∈ handlers.map Handler.body, Part node pending within around part)
    (addresses : List Label) (discard : Bool) :
    Script node (handlers.map Handler.body) within within
      (emitHandlers handlers addresses discard) := by
  induction handlers generalizing addresses with
  | nil => exact .pure []
  | cons handler rest ih =>
    obtain ⟨exception, body⟩ := handler
    obtain ⟨first, others⟩ := List.forall_mem_cons.mp parts
    have ofRest := ih others addresses.tail
    have emitted : Script node (body :: rest.map Handler.body) within within (do
        Emission.arm body discard (Emission.emit body)
        if rest.isEmpty then
          return []
        else
          let toEnd ← reserve .branch
          return toEnd :: (← Emission.emitHandlers rest addresses.tail discard)) := by
      refine (Script.arm body discard (.emit first)).bind fun _ => ?_
      cases rest with
      | nil => exact .pure []
      | cons => exact (Script.step (elementary_reserve .branch)).bind fun _ => ofRest.bind_pure _
    rw [Emission.emitHandlers]
    cases addresses.head? with
    | some address => exact (Script.step (elementary_patchAddressHere address)).bind fun _ => emitted
    | none => exact emitted

end Script

/-! ## Plans -/

/-- A step of the plan of a node is part of its emission. -/
theorem script_perform {node : Node} {pending : Pending} {within : Bool} {step : Step}
    {depth depth' : Nat} (made : step.Of node pending within depth depth') (space : Value) :
    Script node step.parts within within (step.perform space) := by
  cases step with
  | part inner around discard => exact (Script.emit made.1.isPart discard).bind_pure _
  | effect inner around => exact .effect inner (.emit made.1.isPart true)
  | push value => exact .step (elementary_pushValue value)
  | spelled spelling => exact .step (elementary_pushSpelling spelling)
  | space => exact .step (elementary_pushLiteral space)
  | path slots => exact .step (elementary_pushPath slots)
  | frame slots =>
    exact .step (((elementary_withStore fun known => Store.harmless_sharedMap known slots).bind
      fun map => elementary_pushLiteral _).bind fun _ => elementary_op .makeFrame slots.length)
  | lookup name => exact .step (elementary_pushVariable name)
  | store name keep span => exact .step (elementary_storeVariable name keep span)
  | nameExists name => exact .step (elementary_pushExists name)
  | access kind var =>
    refine .step (elementary_read.bind fun ctx => ?_)
    cases kind with
    | get => exact elementary_getVar _
    | set => exact elementary_setVar _
    | incr => exact elementary_incrVar _
  | op opcode operand => exact .step (elementary_op opcode operand)
  | simple opcode => exact .step (elementary_simple opcode)
  | ret operands => exact .step (elementary_simple .ret)
  | refuseConstant name span => exact .step (elementary_refuseConstant name span)
  | find vars span => exact .find made.1
  | fail failure => exact .step (elementary_throw made.1)
  | leave result span around =>
    obtain ⟨rfl, rfl, rfl, -⟩ := made
    cases result with
    | some result =>
      have isPart : Part ⟨.breakLoop (some result), span⟩ around false around result :=
        .outside (.head _) (.head _)
      exact (Script.refuseOutsideLoop rfl).bind fun _ =>
        (Script.value (.emit isPart false)).andThen fun _ => .breakHere rfl
    | none =>
      exact (Script.refuseOutsideLoop rfl).bind fun _ =>
        (Script.step elementary_pushNil).bind fun _ => .breakHere rfl
  | guard body handlers around discard =>
    obtain ⟨rfl, ⟨span, rfl⟩, rfl, -⟩ := made
    have ofBody : Part ⟨.tryCatch body handlers, span⟩ pending false pending.guarded body :=
      .outside (.head _) (.head _)
    exact .tryCatch handlers (.arm body discard (.emit ofBody)) fun addresses =>
      .emitHandlers (fun _ => .of_handler pending span) addresses discard
  | function id span body discard =>
    obtain ⟨rfl, ⟨params, native, name, isNode⟩, -⟩ := made
    exact (Script.functionLiteral isNode discard).bind_pure _

/-- What follows the plan of a node is part of its emission. -/
theorem script_run {node : Node} {pending : Pending} {within : Bool} {plan : Plan}
    {depth depth' : Nat} (made : plan.Made node pending within depth depth') (space : Value) :
    Script node plan.parts within within (plan.run space) := by
  induction plan generalizing within depth depth' space with
  | empty => exact .pure ()
  | step step => exact script_perform made space
  | append first second ofFirst ofSecond =>
    obtain ⟨_, first, second⟩ := made
    exact (ofFirst first space).bind fun _ => ofSecond second space
  | collecting value rest ofRest =>
    obtain ⟨-, _, -, set, made⟩ := made
    exact (Script.step (elementary_op _ _)).bind fun _ =>
      (script_perform set space).bind fun _ => ofRest made space
  | after check rest ofRest =>
    obtain ⟨silent, made, rest⟩ := made
    have nothing : check.parts = [] := by
      cases check with
      | part | effect | leave | guard => cases silent
      | _ => rfl
    have checked := script_perform made space
    rw [nothing] at checked
    exact checked.bind fun _ => ofRest rest space
  | spaced body ofBody =>
    exact (Script.step (elementary_withStore fun known =>
      Store.harmless_makeString known " ")).bind fun space => ofBody made space
  | skip opcode body ofBody =>
    exact (Script.step (elementary_reserve opcode)).bind fun label =>
      (ofBody made.2.2 space).andThen fun _ => .step (elementary_patchHere label)
  | fork opcode yes no ofYes ofNo =>
    obtain ⟨-, _, -, left, right⟩ := made
    refine (Script.step (elementary_reserve opcode)).bind fun label =>
      (ofYes left space).bind fun _ => ?_
    exact (Script.step (elementary_reserve .branch)).bind fun label' =>
      (Script.step (elementary_patchHere label)).bind fun _ =>
        (ofNo right space).andThen fun _ => .step (elementary_patchHere label')
  | back opcode body ofBody =>
    obtain ⟨_, -, inner⟩ := made
    exact (Script.step elementary_here).bind fun top =>
      (ofBody inner space).andThen fun _ => .step (elementary_op opcode top)
  | guarded test body ofTest ofBody =>
    refine (Script.step elementary_here).bind fun top => (ofTest made.1 space).bind fun _ => ?_
    exact (Script.step (elementary_reserve .branchIfFalse)).bind fun exit =>
      (ofBody made.2 space).andThen fun _ => (Script.step (elementary_op .branch top)).bind fun _ =>
        .step (elementary_patchHere exit)
  | entered opcode body test ofBody ofTest =>
    obtain ⟨_, -, -, inner, last⟩ := made
    refine (Script.step (elementary_reserve .branch)).bind fun label =>
      (Script.step elementary_here).bind fun top => (ofBody inner space).bind fun _ => ?_
    exact (Script.step (elementary_patchHere label)).bind fun _ =>
      (ofTest last space).andThen fun _ => .step (elementary_op opcode top)
  | scope body ofBody =>
    obtain ⟨rfl, isLoop, -, -, inner⟩ := made
    exact (Script.openLoop isLoop).bind fun _ =>
      (ofBody inner space).andThen fun _ => .patchBreaks isLoop

/-- The emission of a node is made of elementary steps and of the emission of
its parts. -/
theorem script_emit (node : Node) (discard : Bool) :
    Script node (planOf node {} discard).parts false false (emit node discard) := by
  rw [emit_eq node {} discard .nil]
  exact (script_run (made_planOf node _ discard) .nil).bind_pure _

/-! ## Emission is safe for the store -/

section

variable {body : EmitM Unit} {known : Value → Prop} {α : Type}

theorem safe_read : Safe known (read : EmitM Context) :=
  fun _ _ => ensures_pure trivial

theorem safe_get : Safe known (get : EmitM State) :=
  fun _ _ => ensures_get.preserves

theorem safe_modifyFunction (change : FunctionCode → FunctionCode) :
    Safe known (modifyFunction change) :=
  fun _ _ => preserves_modify fun _ holds => holds

theorem safe_patchBreaks : Safe known patchBreaks :=
  safe_get.bind fun _ => (safe_modifyFunction _).bind fun _ =>
    (elementary_patchAllHere _).safe known

theorem safe_refuseOutsideLoop (span : Span) : Safe known (refuseOutsideLoop span) := by
  refine safe_get.bind fun state => ?_
  cases state.function.loops.isEmpty with
  | true => exact fun _ _ => ensures_throw trivial
  | false => exact safe_pure ()

theorem safe_breakHere : Safe known breakHere :=
  ((elementary_reserve .branch).safe known).bind fun _ => safe_modifyFunction _

theorem safe_isolated (safe : Safe known body) : Safe known (isolated body) := by
  intro origin ctx state holds
  have kept := (safe.bind fun _ => (elementary_simple .ret).safe known) origin ctx
    { state with function := {} } holds
  unfold isolated
  cases run : (do body; simple .ret : EmitM Unit) ctx { state with function := {} } with
  | ok result inner =>
    rw [run] at kept
    exact kept
  | error failure inner =>
    rw [run] at kept
    exact kept

theorem safe_functionBlock (id : ScopeId) (safe : Safe known body) :
    Safe known (functionBlock id body) :=
  fun origin ctx => ((safe_isolated safe).bind fun function =>
    (elementary_sealCode function).safe known) origin (Context.ofScope ctx.scopes ctx.options id)

theorem safe_functionLiteral (id : FuncId) (span : Span) (discard : Bool) (safe : Safe known body) :
    Safe known (functionLiteral id span body discard) := by
  refine safe_read.bind fun ctx => ?_
  cases ctx.scopes.scopeOf? id with
  | none => exact fun _ _ => ensures_throw trivial
  | some inner =>
    refine (safe_functionBlock inner safe).bind fun block => ?_
    cases discard with
    | true => exact safe_pure false
    | false => exact (elementary_pushBlock block).safe known

/-- Whatever the emission of a node is made of is safe when the emission of
its parts is. -/
theorem Script.safe {node : Node} {emitted : List Node} {before after : Bool} {action : EmitM α}
    (script : Script node emitted before after action)
    (parts : ∀ part : Node, sizeOf part < sizeOf node →
      ∀ discard, Safe known (Emission.emit part discard)) :
    Safe known action := by
  induction script with
  | bind _ _ first rest => exact first.bind rest
  | step elementary => exact elementary.safe known
  | find => exact (elementary_find _ _).safe known
  | openLoop => exact safe_modifyFunction _
  | patchBreaks => exact safe_patchBreaks
  | refuseOutsideLoop => exact safe_refuseOutsideLoop _
  | breakHere => exact safe_breakHere
  | emit isPart discard => exact parts _ isPart.sizeOf_lt discard
  | functionLiteral isNode discard =>
    subst isNode
    refine safe_functionLiteral _ _ discard ((parts _ ?_ false).bind fun _ => safe_pure ())
    simp only [Node.mk.sizeOf_spec, Expr.func.sizeOf_spec]
    omega

theorem safe_emit (node : Node) (discard : Bool) : Safe known (emit node discard) :=
  (script_emit node discard).safe fun part _ => safe_emit part
termination_by sizeOf node

/-- Making the block of a tree changes the store harmlessly, failed or not. -/
theorem harmless_ofTree (known : Value → Prop) (tree : Node) (scopes : Scopes) (options : Options)
    (store : Store) (bag : DiagnosticBag) :
    Store.Harmless known store (CodeBlock.ofTree tree scopes options store bag).2.1 := by
  have safe : Safe known (functionBlock Scopes.root (value (emit tree))) :=
    safe_functionBlock Scopes.root ((safe_emit tree false).bind fun _ => safe_pure ())
  have kept := safe store (Context.ofScope scopes options Scopes.root) { store, bag } (.refl _ _)
  unfold CodeBlock.ofTree
  cases run : functionBlock Scopes.root (value (emit tree))
      (Context.ofScope scopes options Scopes.root) { store, bag } with
  | ok block state =>
    rw [run] at kept
    simp only [run]
    exact kept.1
  | error failure state =>
    rw [run] at kept
    simp only [run]
    exact kept.1

end

end NewtonScript.Emission
