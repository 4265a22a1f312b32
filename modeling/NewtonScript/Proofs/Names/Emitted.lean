import NewtonScript.Proofs.Names.Plans
import NewtonScript.Proofs.Names.Scopes

/-!
# The code of renamed trees

The code of a tree and of the same tree in normal spelling is emitted in
lockstep: the same bytes, literals that are akin, and the same failures.
-/

namespace NewtonScript

open Bytecode

namespace Emission

/-- Functions with the same code, and with literals that are akin. -/
structure FunctionCode.Akin (first second : FunctionCode) : Prop where
  code : second.code = first.code
  literals : Value.AkinAll first.literals.values.toList second.literals.values.toList
  loops : second.loops = first.loops

/-- States of an emission that differ only in the spellings of names. -/
structure State.Akin (first second : State) : Prop where
  function : first.function.Akin second.function
  store : first.store.Akin second.store
  bag : first.bag.Akin second.bag

/-- Contexts of one function that differ only in the spellings of names. -/
structure Context.Akin (first second : Context) : Prop where
  scopes : first.scopes.Akin second.scopes
  options : second.options = first.options
  scope : second.scope = first.scope
  span : second.span = first.span
  layout : second.layout = first.layout

theorem Context.akin_ofScope {scopes scopes' : Scopes} (akin : scopes.Akin scopes')
    (options : Options) (id : ScopeId) :
    (Context.ofScope scopes options id).Akin (Context.ofScope scopes' options id) :=
  ⟨akin, rfl, rfl, (akin.get id).span, (akin.get id).layout options.compat⟩

namespace Lockstep

variable {scope scope' : Scope} {name name' : Symbol} {body body' : EmitM Unit} {α β α' β' : Type}

/-- Two actions take the same steps in functions that are akin, with results
that go together. -/
def Steps (action : EmitM α) (action' : EmitM β) (result : α → β → Prop) : Prop :=
  ∀ ctx ctx', ctx.Akin ctx' →
    Parallel State.Akin (action ctx) (action' ctx') result

/-- Two actions without a result take the same steps. -/
abbrev Runs (action action' : EmitM Unit) : Prop :=
  Steps action action' fun _ _ => True

/-- Two actions take the same steps and have the same result. -/
abbrev Returns (action action' : EmitM α) : Prop :=
  Steps action action' fun value value' => value' = value

/-! ## Rules -/

section

variable {action : EmitM α} {action' : EmitM β} {result : α → β → Prop}

theorem steps_pure {value : α} {value' : β} (given : result value value') :
    Steps (pure value) (pure value') result :=
  fun _ _ _ => Parallel.pure given

theorem runs_pure : Runs (pure ()) (pure ()) :=
  steps_pure trivial

theorem returns_pure (value : α) : Returns (pure value) (pure value) :=
  steps_pure rfl

/-- Behind actions that take the same steps, others that do. -/
theorem Steps.bind {next : α → EmitM α'} {next' : β → EmitM β'} {final : α' → β' → Prop}
    (steps : Steps action action' result) (behind : ∀ value value', result value value' →
      Steps (next value) (next' value') final) :
    Steps (action >>= next) (action' >>= next') final :=
  fun ctx ctx' contexts => Parallel.bind (steps ctx ctx' contexts)
    fun value value' given => behind value value' given ctx ctx' contexts

/-- One action behind another. -/
theorem Runs.seq {action action' : EmitM Unit} {next : EmitM α} {next' : EmitM β}
    (runs : Runs action action') (behind : Steps next next' result) :
    Steps (action >>= fun _ => next) (action' >>= fun _ => next') result :=
  runs.bind fun _ _ _ => behind

/-- An action that depends on the result of another. -/
theorem Returns.bind {action action' : EmitM α} {next : α → EmitM α'} {next' : α → EmitM β'}
    {final : α' → β' → Prop} (returns : Returns action action')
    (behind : ∀ value, Steps (next value) (next' value) final) :
    Steps (action >>= next) (action' >>= next') final := by
  refine Steps.bind returns fun value value' same => ?_
  rw [same]
  exact behind value

/-- An action with a fixed result behind it. -/
theorem Runs.giving {action action' : EmitM Unit} (runs : Runs action action') (value : α) :
    Returns (action >>= fun _ => pure value) (action' >>= fun _ => pure value) :=
  runs.seq (returns_pure value)

/-- The result of an action can be forgotten. -/
theorem Returns.runs {action action' : EmitM α} (returns : Returns action action') :
    Runs (do let _ ← action) (do let _ ← action') :=
  returns.bind fun _ => runs_pure

end

/-! ## Elementary actions -/

theorem runs_modifyFunction {change change' : FunctionCode → FunctionCode}
    (changes : ∀ first second : FunctionCode, first.Akin second →
      (change first).Akin (change' second)) :
    Runs (modifyFunction change) (modifyFunction change') :=
  fun _ _ _ =>
    Parallel.modify (fun _ _ akin => { akin with function := changes _ _ akin.function }) trivial

theorem steps_get : Steps (get : EmitM State) get fun first second => first.Akin second :=
  fun _ _ _ => Parallel.get

theorem steps_read : Steps (read : EmitM Context) read fun first second => first.Akin second :=
  fun _ _ contexts => Parallel.pure contexts

theorem steps_withStore {action : Store → α × Store} {action' : Store → β × Store}
    {result : α → β → Prop} (acts : ∀ store store' : Store, store.Akin store' →
      result (action store).1 (action' store').1 ∧ (action store).2.Akin (action' store').2) :
    Steps (withStore action) (withStore action') fun value value' => result value value' :=
  fun _ _ _ => Parallel.modifyGet fun _ _ akin =>
    ⟨{ akin with store := (acts _ _ akin.store).2 }, (acts _ _ akin.store).1⟩

theorem steps_throw {failure failure' : Failure} (failures : failure.Akin failure')
    {result : α → β → Prop} : Steps (throw failure : EmitM α) (throw failure' : EmitM β) result :=
  fun _ _ _ => Parallel.throw failures

theorem runs_push (instr : Instruction) : Runs (push instr) (push instr) :=
  runs_modifyFunction fun _ _ akin => { akin with code := by rw [akin.code] }

theorem returns_operand16 (opcode : Opcode) (operand : Nat) :
    Returns (operand16 opcode operand) (operand16 opcode operand) := by
  unfold operand16
  cases Buffer.operand16 opcode operand with
  | ok operand => exact returns_pure operand
  | error problem =>
    refine steps_read.bind fun first second akin => ?_
    refine steps_throw ?_
    exact ⟨rfl, akin.span⟩

theorem runs_op (opcode : Opcode) (operand : Nat) : Runs (op opcode operand) (op opcode operand) :=
  (returns_operand16 opcode operand).bind fun _ => runs_push _

theorem runs_variable (opcode : Opcode) (slot : Nat) :
    Runs (do op opcode ((← read).layout.varIndex slot))
      (do op opcode ((← read).layout.varIndex slot)) := by
  refine steps_read.bind fun first second akin => ?_
  rw [akin.layout]
  exact runs_op opcode _

theorem returns_here : Returns here here := by
  refine steps_get.bind fun first second akin => ?_
  rw [akin.function.code]
  exact returns_pure _

theorem returns_reserve (opcode : Opcode) : Returns (reserve opcode) (reserve opcode) := by
  refine steps_get.bind fun first second akin => ?_
  rw [akin.function.code]
  exact (runs_push _).giving _

theorem runs_patch (label : Label) (operand : Nat) :
    Runs (patch label operand) (patch label operand) := by
  refine steps_get.bind fun first second akin => ?_
  rw [akin.function.code]
  refine (returns_operand16 _ operand).bind (fun operand => ?_)
  exact runs_modifyFunction fun _ _ akin => { akin with code := by rw [akin.code] }

theorem runs_patchHere (label : Label) : Runs (patchHere label) (patchHere label) :=
  returns_here.bind fun position => runs_patch label position

theorem runs_patchAllHere (labels : List Label) :
    Runs (patchAllHere labels) (patchAllHere labels) := by
  induction labels with
  | nil => exact runs_pure
  | cons label rest ih =>
    exact (runs_patchHere label).seq ih

theorem runs_patchAddressHere (label : Label) :
    Runs (patchAddressHere label) (patchAddressHere label) := by
  refine returns_here.bind fun address => ?_
  split
  · exact runs_patch label _
  · refine steps_read.bind fun first second akin => ?_
    refine steps_throw ?_
    exact ⟨rfl, akin.span⟩

/-! ## Literals -/

/-- The number of a literal does not depend on spellings. -/
theorem akin_add {pool pool' : LiteralPool} {value value' : Value}
    (pools : Value.AkinAll pool.values.toList pool'.values.toList) (values : value.Akin value') :
    (pool'.add value').1 = (pool.add value).1 ∧
      Value.AkinAll (pool.add value).2.values.toList (pool'.add value').2.values.toList := by
  have found : ∀ (pool : LiteralPool) (value : Value), pool.indexOf? value =
      (pool.values.toList.map Value.folded).findIdx? fun known =>
        known.sameLiteral (value.renamed Symbol.normal) := by
    intro pool value
    rw [LiteralPool.indexOf?, List.findIdx?_map, ← List.findIdx?_toArray, Array.toArray_toList]
    exact congrArg (Array.findIdx? · pool.values)
      (funext fun known => (Value.sameLiteral_normal known value).symm)
  have pools : pool.values.toList.map _ = pool'.values.toList.map _ := pools
  have sizes : pool'.size = pool.size := by
    simpa [LiteralPool.size] using (congrArg List.length pools).symm
  have same : pool'.indexOf? value' = pool.indexOf? value := by
    rw [found, found, pools, values]
  unfold LiteralPool.add
  rw [same]
  split
  · exact ⟨rfl, pools⟩
  · refine ⟨sizes, ?_⟩
    simp only [Value.AkinAll, Array.toList_push, List.map_append, List.map_cons, List.map_nil,
      pools]
    rw [show value.folded = value'.folded from values]

theorem returns_literalIndex {value value' : Value} (values : value.Akin value') :
    Returns (literalIndex value) (literalIndex value') :=
  fun _ _ _ => Parallel.modifyGet fun _ _ akin => ⟨
    { akin with function :=
        { akin.function with literals := (akin_add akin.function.literals values).2 } },
    (akin_add akin.function.literals values).1⟩

theorem runs_pushLiteral {value value' : Value} (values : value.Akin value') :
    Runs (pushLiteral value) (pushLiteral value') :=
  (returns_literalIndex values).bind fun index => runs_op .push index

theorem runs_nameOp (same : Symbol.Same name name') (opcode : Opcode) :
    Runs (do op opcode (← literalIndex (.symbol name)))
      (do op opcode (← literalIndex (.symbol name'))) := by
  have values : (Value.symbol name).Akin (.symbol name') :=
    congrArg Value.symbol (Symbol.same_iff.mp same)
  exact (returns_literalIndex values).bind fun index => runs_op opcode index

theorem runs_pushSymbol (same : Symbol.Same name name') :
    Runs (pushSymbol name) (pushSymbol name') :=
  runs_nameOp same .push

theorem returns_handlerTable {handlers handlers' : List Handler}
    (named : Symbol.SameAll (handlers.map Handler.exception) (handlers'.map Handler.exception)) :
    Returns (handlerTable handlers) (handlerTable handlers') := by
  induction handlers generalizing handlers' with
  | nil =>
    cases handlers' with
    | nil => exact returns_pure []
    | cons => cases named
  | cons handler rest ih =>
    cases handlers' with
    | nil => cases named
    | cons handler' rest' =>
      obtain ⟨same, others⟩ := Symbol.SameAll.cons_iff.mp named
      refine (runs_pushSymbol same).seq ?_
      refine (returns_reserve .pushConstant).bind fun address => ?_
      exact (ih others).bind fun addresses => returns_pure _

/-! ## Loops -/

theorem runs_patchBreaks : Runs patchBreaks patchBreaks := by
  refine steps_get.bind fun first second akin => ?_
  rw [akin.function.loops]
  refine Runs.seq ?_ (runs_patchAllHere _)
  exact runs_modifyFunction fun _ _ akin => { akin with loops := by rw [akin.loops] }

theorem runs_breakHere : Runs breakHere breakHere := by
  refine (returns_reserve .branch).bind fun site => ?_
  refine runs_modifyFunction fun first second akin => ?_
  rw [akin.loops]
  split
  · exact { akin with loops := rfl }
  · exact akin

theorem runs_refuseOutsideLoop (span : Span) :
    Runs (refuseOutsideLoop span) (refuseOutsideLoop span) := by
  refine steps_get.bind fun first second akin => ?_
  rw [akin.function.loops]
  split
  · exact steps_throw ⟨rfl, rfl⟩
  · exact runs_pure

/-! ## Variables -/

theorem steps_resolve (same : Symbol.Same name name') :
    Steps (resolve name) (resolve name') fun found found' => found.Like Value.Akin found' := by
  refine steps_read.bind fun first second akin => ?_
  rw [akin.scope]
  have like := akin.scopes.resolve same first.scope
  generalize first.scopes.resolve first.scope name = found at like ⊢
  generalize second.scopes.resolve first.scope name' = found' at like ⊢
  cases like with
  | slot index => exact steps_pure (.slot index)
  | constant values => exact steps_pure (.constant values)
  | outer => exact steps_pure .outer
  | environment =>
    refine steps_get.bind fun first second akin => ?_
    rcases both_of_map_eq (akin.store.constant? same) with
      ⟨known, known'⟩ | ⟨value, value', known, known', equal⟩
    · rw [known, known']
      exact steps_pure .environment
    · rw [known, known']
      exact steps_pure (.constant equal)

theorem returns_localSlot (same : Symbol.Same name name') (span : Span) :
    Returns (localSlot name span) (localSlot name' span) := by
  refine steps_read.bind fun first second akin => ?_
  rw [akin.scope, (akin.scopes.get first.scope).slotOf? same]
  split
  · exact returns_pure _
  · refine steps_throw ?_
    exact ⟨rfl, rfl⟩

/-! ## Functions -/

theorem steps_internAll (spellings : List String) :
    Steps (internAll spellings) (internAll spellings)
      fun names names' => Symbol.SameAll names names' := by
  induction spellings with
  | nil => exact steps_pure .nil
  | cons word rest ih =>
    refine (steps_withStore (fun _ _ akin => akin.intern rfl)).bind fun name name' same => ?_
    refine ih.bind fun names names' all => ?_
    exact steps_pure (same.cons all)

theorem steps_sharedMap {slots slots' : List Symbol} (same : Symbol.SameAll slots slots') :
    Steps (withStore (Store.sharedMap slots))
      (withStore (Store.sharedMap slots')) fun shape shape' =>
        shape.renamed Symbol.normal = shape'.renamed Symbol.normal :=
  steps_withStore fun _ _ akin => akin.sharedMap same

theorem steps_frameTemplate (scopes : scope.Akin scope') :
    Steps (frameTemplate scope) (frameTemplate scope') Value.Akin := by
  refine (steps_internAll frameHeader).bind fun header header' all => ?_
  have slots := all.append scopes.names
  refine (steps_sharedMap slots).bind fun shape shape' shapes => ?_
  refine steps_withStore (fun _ _ akin => akin.makeFrameOver shapes ?_)
  simp only [Value.AkinAll, List.map_const', slots.length_eq]

/-- Frame templates that are akin, if there are any. -/
def AkinFrames (first second : Option Value) : Prop :=
  first.map Value.folded = second.map Value.folded

theorem steps_frameTemplate? (scopes : scope.Akin scope') :
    Steps (frameTemplate? scope) (frameTemplate? scope') AkinFrames := by
  refine steps_read.bind fun first second akin => ?_
  rw [akin.layout]
  split
  · refine (steps_frameTemplate scopes).bind fun frame frame' frames => ?_
    exact steps_pure (congrArg some frames)
  · exact steps_pure rfl

theorem akin_toLiterals? {pool pool' : LiteralPool}
    (pools : Value.AkinAll pool.values.toList pool'.values.toList) :
    CodeBlock.renamedLiterals Symbol.normal pool.toLiterals? =
      CodeBlock.renamedLiterals Symbol.normal pool'.toLiterals? := by
  have pools : pool.values.toList.map _ = pool'.values.toList.map _ := pools
  have empty : pool'.isEmpty = pool.isEmpty := by
    have sizes := congrArg List.isEmpty pools
    simpa [LiteralPool.isEmpty] using sizes.symm
  unfold LiteralPool.toLiterals?
  rw [empty]
  split
  · rfl
  · simp [pools]

theorem akin_debug (scopes : scope.Akin scope') :
    DebugNames.renamed Symbol.normal ⟨scope.name, scope.args, scope.locals⟩ =
      DebugNames.renamed Symbol.normal ⟨scope'.name, scope'.args, scope'.locals⟩ := by
  simp only [DebugNames.renamed, scopes.name, Symbol.sameAll_iff.mp scopes.args,
    Symbol.sameAll_iff.mp scopes.locals]

theorem steps_sealCode {function function' : FunctionCode} (functions : function.Akin function') :
    Steps (sealCode function) (sealCode function') CodeBlock.Akin := by
  refine steps_read.bind fun first second akin => ?_
  have scopes := akin.scopes.get first.scope
  dsimp only
  rw [akin.scope, functions.code, akin.options, akin.layout]
  split
  · exact fun _ _ _ _ second states _ => ⟨_, second, rfl, ⟨rfl, akin.span⟩, states⟩
  · refine (steps_frameTemplate? scopes).bind fun frame frame' frames => steps_pure ?_
    have literals := akin_toLiterals? functions.literals
    rw [CodeBlock.Akin, CodeBlock.renamed, CodeBlock.renamed, literals, Value.renamedIn_eq,
      Value.renamedIn_eq, frames]
    split
    · rw [Option.map_some, Option.map_some, akin_debug scopes]
    · rfl

/-- A function of its own starts without code, and ends with `return`. -/
theorem steps_isolated (runs : Runs body body') : Steps (isolated body) (isolated body')
      FunctionCode.Akin := by
  intro ctx ctx' contexts state state' states
  have inner : State.Akin { state with function := {} } { state' with function := {} } :=
    { states with function := ⟨rfl, rfl, rfl⟩ }
  have whole := runs.seq (runs_push (.ofSimple .ret)) ctx ctx' contexts
  unfold isolated
  cases run : (do body; simple .ret : EmitM Unit) ctx { state with function := {} } with
  | ok _ after =>
    obtain ⟨_, after', run', akin, -⟩ := AgreeWhere.of_ok whole inner run trivial
    intro _
    refine ⟨after'.function, { after' with function := state'.function }, ?_,
      { akin with function := states.function }, akin.function⟩
    dsimp only
    rw [show (do body'; simple .ret : EmitM Unit) ctx' { state' with function := {} } = _
      from run']
  | error failure after =>
    obtain ⟨failure', after', run', failures, akin⟩ := AgreeWhere.of_error whole inner run trivial
    intro _
    refine ⟨failure', { after' with function := state'.function }, ?_, failures,
      { akin with function := states.function }⟩
    dsimp only
    rw [show (do body'; simple .ret : EmitM Unit) ctx' { state' with function := {} } = _
      from run']

theorem steps_functionBlock (id : ScopeId) (runs : Runs body body') :
    Steps (functionBlock id body) (functionBlock id body') CodeBlock.Akin := by
  intro ctx ctx' contexts
  have inner : (Context.ofScope ctx.scopes ctx.options id).Akin
      (Context.ofScope ctx'.scopes ctx'.options id) := by
    rw [contexts.options]
    exact Context.akin_ofScope contexts.scopes ctx.options id
  exact Parallel.bind (steps_isolated runs _ _ inner) fun function function' functions =>
    steps_sealCode functions _ _ inner

theorem returns_functionLiteral (id : FuncId) (span : Span) (discard : Bool)
    (runs : Runs body body') : Returns (functionLiteral id span body discard)
      (functionLiteral id span body' discard) := by
  refine steps_read.bind fun first second akin => ?_
  rw [akin.scopes.scopeOf?]
  split
  · exact steps_throw ⟨rfl, rfl⟩
  · rename_i inner found
    refine (steps_functionBlock inner runs).bind fun block block' blocks => ?_
    split
    · exact returns_pure false
    · refine (steps_withStore (fun _ _ akin => akin.makeBlock blocks)).bind
        fun value value' values => ?_
      have frames : block'.argFrame.isSome = block.argFrame.isSome := by
        have parts := congrArg CodeBlock.argFrame blocks
        obtain ⟨code, literals, numArgs, argFrame, debug, compat⟩ := block
        obtain ⟨code', literals', numArgs', argFrame', debug', compat'⟩ := block'
        simp only [CodeBlock.renamed, Value.renamedIn_eq] at parts
        simpa using (congrArg Option.isSome parts).symm
      rw [frames]
      refine (runs_pushLiteral values).bind fun _ _ _ => ?_
      split
      · exact (runs_push _).giving true
      · exact returns_pure true

/-! ## Steps of plans -/

theorem runs_report (diagnostic : Diagnostic) : Runs (report diagnostic) (report diagnostic) :=
  fun _ _ _ => Parallel.modify (fun _ _ akin => { akin with bag := akin.bag.report rfl }) trivial

theorem runs_pushValue {value value' : Value} (values : value.Akin value') :
    Runs (pushValue value) (pushValue value') := by
  unfold pushValue
  rw [Value.akin_atom values]
  split
  · exact runs_op .pushConstant _
  · exact runs_pushLiteral values

theorem runs_pushSpelling (spelling : String) :
    Runs (pushSpelling spelling) (pushSpelling spelling) :=
  (steps_withStore fun _ _ akin => akin.intern rfl).bind fun _ _ same =>
    runs_pushSymbol same

theorem runs_pushVariable (same : Symbol.Same name name') :
    Runs (pushVariable name) (pushVariable name') := by
  refine (steps_resolve same).bind fun found found' like => ?_
  cases like with
  | slot slot => exact runs_variable .getVar slot
  | constant values => exact runs_pushValue values
  | outer | environment => exact runs_nameOp same .findVar

theorem runs_refuseConstant (same : Symbol.Same name name') (span : Span) :
    Runs (refuseConstant name span) (refuseConstant name' span) := by
  refine (steps_resolve same).bind fun found found' like => ?_
  cases like with
  | constant =>
    refine steps_throw ?_
    exact ⟨rfl, rfl⟩
  | _ => exact runs_pure

theorem runs_storeVariable (same : Symbol.Same name name') (keep : Bool) (span : Span) :
    Runs (storeVariable name keep span) (storeVariable name' keep span) := by
  have duplicated : Runs (duplicateIf keep) (duplicateIf keep) := by
    cases keep with
    | true => exact runs_push _
    | false => exact runs_pure
  refine (steps_resolve same).bind fun found found' like => ?_
  cases like with
  | constant =>
    refine steps_throw ?_
    exact ⟨rfl, rfl⟩
  | slot slot => exact duplicated.seq (runs_variable .setVar slot)
  | outer | environment => exact duplicated.seq (runs_nameOp same .findAndSetVar)

theorem runs_pushExists (same : Symbol.Same name name') :
    Runs (pushExists name) (pushExists name') := by
  refine (steps_resolve same).bind fun found found' like => ?_
  cases like with
  | environment =>
    exact (runs_pushSymbol same).seq ((runs_pushSpelling "HasVar").seq (runs_op .call 1))
  | _ => exact runs_pushValue rfl

theorem runs_pushPath {slots slots' : List Symbol} (same : Symbol.SameAll slots slots') :
    Runs (pushPath slots) (pushPath slots') := by
  have several : Runs (do
        let className ← withStore (Store.intern "pathExpr")
        pushLiteral (← withStore (Store.makeArray className (slots.map Value.symbol))))
      (do
        let className ← withStore (Store.intern "pathExpr")
        pushLiteral (← withStore (Store.makeArray className (slots'.map Value.symbol)))) := by
    refine (steps_withStore fun _ _ akin => akin.intern rfl).bind fun _ _ named => ?_
    refine (steps_withStore fun _ _ akin => akin.makeArray named ?_).bind fun _ _ values =>
      runs_pushLiteral values
    simpa [Value.AkinAll, Function.comp_def, Value.renamed] using
      congrArg (List.map Value.symbol) (Symbol.sameAll_iff.mp same)
  have lengths := same.length_eq
  cases slots with
  | nil => cases slots' with
    | nil => exact several
    | cons => cases lengths
  | cons slot rest => cases rest with
    | nil => cases slots' with
      | nil => cases lengths
      | cons slot' rest' => cases rest' with
        | nil => exact runs_pushSymbol (Symbol.SameAll.cons_iff.mp same).1
        | cons => cases lengths
    | cons => cases slots' with
      | nil => cases lengths
      | cons slot' rest' => cases rest' with
        | nil => cases lengths
        | cons => exact several

theorem runs_findSlots (span : Span) {names names' : List Symbol}
    (all : Symbol.SameAll names names') : Runs (findSlots span names) (findSlots span names') := by
  induction names generalizing names' with
  | nil => cases names' with
    | nil => exact runs_pure
    | cons => cases all
  | cons name rest ih => cases names' with
    | nil => cases all
    | cons name' rest' =>
      obtain ⟨same, others⟩ := Symbol.SameAll.cons_iff.mp all
      exact (returns_localSlot same span).bind fun _ => ih others

theorem runs_withNames (vars : List Variable) {next next' : List Symbol → EmitM Unit}
    (runs : ∀ names names', Symbol.SameAll names names' → Runs (next names) (next' names')) :
    Runs (withNames vars next) (withNames (vars.map (Variable.renamed Symbol.normal)) next') := by
  induction vars generalizing next next' with
  | nil => exact runs [] [] .nil
  | cons var rest ih =>
    cases var with
    | named name => exact ih fun _ _ all => runs _ _ (Symbol.Same.cons name.folded_normal all)
    | hidden parts word =>
      have same : Symbol.SameAll parts (parts.map Symbol.normal) := by
        simp [Symbol.SameAll, Function.comp_def]
      refine (steps_withStore fun _ _ akin =>
        akin.intern (foldCase_hiddenSpelling same word)).bind fun _ _ named => ?_
      exact ih fun _ _ all => runs _ _ (Symbol.Same.cons named all)

/-- The emissions of a node and of the same node in normal spelling take the
same steps. -/
def Emits (node : Node) : Prop :=
  ∀ discard, Returns (emit node discard) (emit (node.seen .folded) discard)

variable {node : Node}

theorem Emits.effect (emits : Emits node) : Runs (effect node (emit node))
      (Emission.effect (node.seen .folded) (emit (node.seen .folded))) := by
  have popped : Runs (do if ← emit node true then simple .pop)
      (do if ← emit (node.seen .folded) true then simple .pop) := by
    refine Returns.bind (emits true) fun left => ?_
    cases left with
    | true => exact runs_push _
    | false => exact runs_pure
  unfold Emission.effect
  rw [unusedWarning?_renamed]
  cases unusedWarning? node with
  | some warning => exact (runs_report warning).seq popped
  | none => exact popped

theorem Emits.arm (emits : Emits node) (discard : Bool) : Runs (arm node discard (emit node))
      (Emission.arm (node.seen .folded) discard (emit (node.seen .folded))) := by
  cases discard with
  | true => exact emits.effect
  | false => exact (emits false).runs

theorem returns_emitHandlers (discard : Bool) (handlers : List Handler) (addresses : List Label)
    (emits : ∀ handler ∈ handlers, Emits handler.body) :
    Returns (emitHandlers handlers addresses discard)
      (emitHandlers (handlers.map (Handler.seen .folded)) addresses discard) := by
  induction handlers generalizing addresses with
  | nil =>
    exact returns_pure []
  | cons handler rest ih =>
    obtain ⟨exception, body⟩ := handler
    obtain ⟨ofBody, others⟩ := List.forall_mem_cons.mp emits
    have behind : Returns (do
          Emission.arm body discard (emit body)
          if rest.isEmpty then
            return []
          else
            let toEnd ← reserve .branch
            return toEnd :: (← emitHandlers rest addresses.tail discard))
        (do
          Emission.arm (body.seen .folded) discard (emit (body.seen .folded))
          if rest.isEmpty then
            return []
          else
            let toEnd ← reserve .branch
            return toEnd :: (← emitHandlers (rest.map (Handler.seen .folded))
              addresses.tail discard)) := by
      refine Runs.seq (Emits.arm ofBody discard) ?_
      cases rest.isEmpty with
      | true => exact returns_pure []
      | false =>
        exact (returns_reserve .branch).bind fun _ =>
          (ih addresses.tail others).bind fun _ => returns_pure _
    rw [List.map_cons, Handler.seen, emitHandlers, emitHandlers, List.isEmpty_map]
    cases addresses.head? with
    | some address => exact (runs_patchAddressHere address).seq behind
    | none => exact behind

theorem runs_tryCatch (discard : Bool) (handlers : List Handler) (ofBody : Emits node)
    (emits : ∀ handler ∈ handlers, Emits handler.body) :
    Runs (tryCatch handlers (arm node discard (emit node)) fun addresses =>
        emitHandlers handlers addresses discard) (tryCatch (handlers.map (Handler.seen .folded))
        (arm (node.seen .folded) discard (emit (node.seen .folded))) fun addresses =>
          emitHandlers (handlers.map (Handler.seen .folded)) addresses discard) := by
  have named : Symbol.SameAll (handlers.map Handler.exception)
      ((handlers.map (Handler.seen .folded)).map Handler.exception) := by
    simp [Symbol.SameAll, Handler.seen, Function.comp_def]
  unfold tryCatch
  rw [List.length_map]
  refine (returns_handlerTable named).bind fun addresses => ?_
  refine (runs_op .newHandlers _).seq ((Emits.arm ofBody discard).seq ?_)
  refine Runs.seq (runs_push _) ((returns_reserve .branch).bind fun toContinuation => ?_)
  refine (returns_emitHandlers discard handlers addresses emits).bind fun ends => ?_
  exact (runs_patchAllHere ends).seq ((runs_push _).seq (runs_patchHere toContinuation))

theorem folded_name (var : Variable) : Symbol.Same var.name (var.renamed Symbol.normal).name := by
  cases var with
  | named name => exact name.folded_normal
  | hidden parts word =>
    have same : Symbol.SameAll parts (parts.map Symbol.normal) := by
      simp [Symbol.SameAll, Function.comp_def]
    exact foldCase_hiddenSpelling same word

variable {pending : Pending} {within : Bool}
  (smaller : ∀ inner : Node, sizeOf inner < sizeOf node → Emits inner)
include smaller

/-- A step and the same step in normal spelling. -/
theorem runs_perform {step : Step} {depth depth' : Nat}
    (made : step.Of node pending within depth depth') {space space' : Value}
    (spaces : space.Akin space') :
    Runs (step.perform space) ((step.renamed Symbol.normal).perform space') := by
  have sameAll : ∀ slots : List Symbol, Symbol.SameAll slots (slots.map Symbol.normal) := by
    simp [Symbol.SameAll, Function.comp_def]
  cases step with
  | part inner _ discard => exact (smaller inner made.1.isPart.sizeOf_lt discard).runs
  | effect inner => exact Emits.effect (smaller inner made.1.isPart.sizeOf_lt)
  | push value => exact runs_pushValue value.renamed_normal.symm
  | spelled spelling => exact runs_pushSpelling spelling
  | space => exact runs_pushLiteral spaces
  | path slots => exact runs_pushPath (sameAll slots)
  | frame slots =>
    have pushed : Runs (pushMap slots) (pushMap (slots.map Symbol.normal)) :=
      (steps_sharedMap (sameAll slots)).bind fun _ _ shapes =>
        runs_pushLiteral (congrArg Value.map shapes)
    simp only [Step.renamed, Step.perform, List.length_map]
    exact pushed.seq (runs_op .makeFrame slots.length)
  | lookup name => exact runs_pushVariable name.folded_normal
  | store name keep span => exact runs_storeVariable name.folded_normal keep span
  | nameExists name => exact runs_pushExists name.folded_normal
  | access use var =>
    refine steps_read.bind fun first second akin => ?_
    have slots : slotIn second (var.renamed Symbol.normal).name = slotIn first var.name := by
      rw [slotIn, slotIn, akin.scope, (akin.scopes.get first.scope).slotOf? (folded_name var)]
    rw [slots]
    cases use <;> exact runs_variable _ _
  | op opcode operand => exact runs_op opcode operand
  | simple opcode => exact runs_push _
  | ret operands => exact runs_push _
  | refuseConstant name span => exact runs_refuseConstant name.folded_normal span
  | find vars span =>
    exact runs_withNames vars fun _ _ all => runs_findSlots span all
  | fail failure =>
    exact steps_throw ⟨rfl, rfl⟩
  | leave result span around =>
    obtain ⟨-, rfl, -⟩ := made
    cases result with
    | none =>
      exact (runs_refuseOutsideLoop span).seq ((runs_pushValue rfl).seq runs_breakHere)
    | some result =>
      have ofResult := smaller result (by simp only [Node.mk.sizeOf_spec,
        Expr.breakLoop.sizeOf_spec, Option.some.sizeOf_spec]; omega) false
      exact (runs_refuseOutsideLoop span).seq (ofResult.runs.seq runs_breakHere)
  | guard body handlers around discard =>
    obtain ⟨-, ⟨span, rfl⟩, -⟩ := made
    have ofBody : Part ⟨.tryCatch body handlers, span⟩ {} false _ body := .outside (.head _) (.head _)
    refine runs_tryCatch discard handlers (smaller body ofBody.sizeOf_lt) fun handler member => ?_
    exact smaller _ (Part.of_handler {} span (List.mem_map_of_mem member)).sizeOf_lt
  | function id span body discard =>
    obtain ⟨-, ⟨params, native, name, rfl⟩, -⟩ := made
    have ofBody : Emits body := smaller body <| by
      simp only [Node.mk.sizeOf_spec, Expr.func.sizeOf_spec]
      omega
    exact (returns_functionLiteral id span discard (ofBody false).runs).runs

/-- A plan and the same plan in normal spelling. -/
theorem runs_run {plan : Plan} {depth depth' : Nat}
    (made : plan.Made node pending within depth depth') {space space' : Value}
    (spaces : space.Akin space') :
    Runs (plan.run space) ((plan.renamed Symbol.normal).run space') := by
  induction plan generalizing within depth depth' space space' with
  | empty => exact runs_pure
  | step taken => exact runs_perform smaller made spaces
  | append first second ofFirst ofSecond =>
    obtain ⟨_, first, second⟩ := made
    exact (ofFirst first spaces).seq (ofSecond second spaces)
  | collecting value rest ofRest =>
    obtain ⟨-, _, -, set, made⟩ := made
    exact (runs_op _ _).seq ((runs_perform smaller set spaces).seq (ofRest made spaces))
  | after check rest ofRest =>
    exact (runs_perform smaller made.2.1 spaces).seq (ofRest made.2.2 spaces)
  | spaced body ofBody =>
    exact (steps_withStore fun _ _ akin => akin.makeString " ").bind fun _ _ spaces =>
      ofBody made spaces
  | skip opcode body ofBody =>
    exact (returns_reserve opcode).bind fun label =>
      (ofBody made.2.2 spaces).seq (runs_patchHere label)
  | fork opcode yes no ofYes ofNo =>
    obtain ⟨-, _, -, left, right⟩ := made
    exact (returns_reserve opcode).bind fun label => (ofYes left spaces).seq
      ((returns_reserve .branch).bind fun label' => (runs_patchHere label).seq
        ((ofNo right spaces).seq (runs_patchHere label')))
  | back opcode body ofBody =>
    obtain ⟨_, -, inner⟩ := made
    exact returns_here.bind fun top => (ofBody inner spaces).seq (runs_op opcode top)
  | guarded test body ofTest ofBody =>
    exact returns_here.bind fun top => (ofTest made.1 spaces).seq
      ((returns_reserve .branchIfFalse).bind fun exit => (ofBody made.2 spaces).seq
        ((runs_op .branch top).seq (runs_patchHere exit)))
  | entered opcode body test ofBody ofTest =>
    obtain ⟨_, -, -, inner, last⟩ := made
    exact (returns_reserve .branch).bind fun label => returns_here.bind fun top =>
      (ofBody inner spaces).seq ((runs_patchHere label).seq
        ((ofTest last spaces).seq (runs_op opcode top)))
  | scope body ofBody =>
    have opened : Runs openLoop openLoop :=
      runs_modifyFunction fun _ _ akin => { akin with loops := by rw [akin.loops] }
    exact opened.seq ((ofBody made.2.2.2.2 spaces).seq (runs_patchBreaks))

omit smaller in
/-- Whatever is emitted does not depend on spellings. -/
theorem emits (node : Node) : Emits node := by
  intro discard
  have smaller : ∀ inner : Node, sizeOf inner < sizeOf node → Emits inner := fun inner _ => emits inner
  rw [emit_eq node {} discard .nil, emit_eq (node.seen _) {} discard .nil,
    planOf_renamed _ Symbol.folded_normal rfl, leavesValue_renamed]
  exact (runs_run smaller (made_planOf node {} discard) rfl).giving _
termination_by sizeOf node

end Lockstep

end Emission

/-- The code of a tree in normal spelling is the same. -/
theorem CodeBlock.akin_ofTree (tree : Node) {scopes scopes' : Scopes} (akin : scopes.Akin scopes')
    (options : Options) {store store' : Store} {bag bag' : DiagnosticBag}
    (stores : store.Akin store') (bags : bag.Akin bag') :
    ExceptAkin CodeBlock.Akin (CodeBlock.ofTree tree scopes options store bag).1
        (CodeBlock.ofTree (tree.seen .folded) scopes' options store' bag').1 ∧
      (CodeBlock.ofTree tree scopes options store bag).2.1.Akin
        (CodeBlock.ofTree (tree.seen .folded) scopes' options store' bag').2.1 ∧
      (CodeBlock.ofTree tree scopes options store bag).2.2.Akin
        (CodeBlock.ofTree (tree.seen .folded) scopes' options store' bag').2.2 := by
  have states : Emission.State.Akin { store, bag } { store := store', bag := bag' } :=
    ⟨⟨rfl, rfl, rfl⟩, stores, bags⟩
  have emitted : Emission.Lockstep.Runs (Emission.value (Emission.emit tree))
      (Emission.value (Emission.emit (tree.seen .folded))) :=
    (Emission.Lockstep.emits tree false).runs
  have steps := Emission.Lockstep.steps_functionBlock Scopes.root emitted _ _
    (Emission.Context.akin_ofScope akin options Scopes.root)
  unfold CodeBlock.ofTree
  dsimp only
  cases run : Emission.functionBlock Scopes.root (Emission.value (Emission.emit tree))
      (Emission.Context.ofScope scopes options Scopes.root) { store, bag } with
  | ok block state =>
    obtain ⟨block', state', run', akin, blocks⟩ := AgreeWhere.of_ok steps states run trivial
    rw [run']
    exact ⟨.ok blocks, akin.store, akin.bag⟩
  | error failure state =>
    obtain ⟨failure', state', run', failures, akin⟩ := AgreeWhere.of_error steps states run trivial
    rw [run']
    exact ⟨.error failures, akin.store, akin.bag⟩

end NewtonScript
