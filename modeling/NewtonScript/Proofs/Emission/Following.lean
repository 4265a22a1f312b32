import NewtonScript.Proofs.Code.OfTree

namespace NewtonScript.Emission

open Bytecode Plan

/-! ## The slots of loops -/

/-- An action that, if it succeeds, gives a value and changes nothing but the
store. -/
def Asks (known : Value → Prop) (ctx : Context) {α : Type} (action : EmitM α) (value : α) :
    Prop :=
  ∀ ⦃state final result⦄, action ctx state = .ok result final →
    result = value ∧ final.function = state.function ∧
      Store.Harmless known state.store final.store

section

variable {known : Value → Prop} {ctx : Context} {α β : Type}

theorem asks_pure (value : α) : Asks known ctx (pure value : EmitM α) value := by
  rintro state _ _ ⟨⟩
  exact ⟨rfl, rfl, .refl _ _⟩

theorem Asks.bind {action : EmitM α} {next : α → EmitM β} {value : α} {result : β}
    (first : Asks known ctx action value) (second : Asks known ctx (next value) result) :
    Asks known ctx (action >>= next) result := by
  intro state final found run
  obtain ⟨_, middle, early, late⟩ := bind_eq_ok run
  obtain ⟨rfl, function, store⟩ := first early
  obtain ⟨rfl, function', store'⟩ := second late
  exact ⟨rfl, function'.trans function, store.trans store'⟩

theorem asks_localSlot (name : Symbol) (span : Span) :
    Asks known ctx (localSlot name span) (slotIn ctx name) := by
  intro state final slot run
  obtain ⟨_, _, read, run⟩ := bind_eq_ok run
  cases read
  simp only [slotIn]
  cases found : (ctx.scopes.get ctx.scope).slotOf? name with
  | some slot =>
    rw [found] at run
    exact asks_pure slot run
  | none =>
    rw [found] at run
    exact absurd run throw_ne_ok

theorem slotIn_congr {name name' : Symbol} (equal : name == name') :
    slotIn ctx name = slotIn ctx name' := by
  have same : (fun own : Symbol => own == name) = fun own => own == name' := by
    funext own
    exact BEq.congr_right equal
  simp only [slotIn, Scope.slotOf?, same]

/-- The name of a hidden variable is interned before its slot is looked up. -/
theorem asks_hiddenName {parts : List Symbol} {word : String} {next : Symbol → EmitM β} {result : β}
    (later : ∀ name, slotIn ctx name = hiddenSlot ctx parts word →
      Asks known ctx (next name) result) :
    Asks known ctx (withStore (hiddenName parts word) >>= next) result := by
  intro state final found run
  obtain ⟨name, middle, interned, run⟩ := bind_eq_ok run
  cases interned
  obtain ⟨rfl, function, store⟩ := later _ (slotIn_congr (Store.intern_eq _ _)) run
  exact ⟨rfl, function, (Store.harmless_intern known _ _).trans store⟩

theorem asks_hiddenSlot {name : Symbol} {parts : List Symbol} {word : String} (span : Span)
    (slot : slotIn ctx name = hiddenSlot ctx parts word) :
    Asks known ctx (localSlot name span) (hiddenSlot ctx parts word) :=
  slot ▸ asks_localSlot name span

/-- The slots of a counting loop over a variable. -/
def forSlotsIn (ctx : Context) (var : Symbol) : ForSlots :=
  { index := slotIn ctx var
    limit := hiddenSlot ctx [var] "limit"
    increment := hiddenSlot ctx [var] "incr" }

/-- The slots in which a loop over a variable collects. -/
def collectSlotsIn (ctx : Context) (value : Symbol) : CollectSlots :=
  { index := hiddenSlot ctx [value] "index"
    result := hiddenSlot ctx [value] "result"
    item := hiddenSlot ctx [value] "item" }

/-- The slots of a loop over a collection. -/
def foreachSlotsIn (ctx : Context) (key : Option Symbol) (value : Symbol) (collect : Bool) :
    ForeachSlots :=
  { value := slotIn ctx value
    key := key.map (slotIn ctx)
    iterator := hiddenSlot ctx (value :: key.toList) "iter"
    collect := if collect then some (collectSlotsIn ctx value) else none }

theorem asks_forSlots (var : Symbol) (span : Span) :
    Asks known ctx (forSlots var span) (forSlotsIn ctx var) := by
  refine (asks_localSlot var span).bind ?_
  refine asks_hiddenName fun limit limitSlot => asks_hiddenName fun increment incrementSlot => ?_
  refine (asks_hiddenSlot span limitSlot).bind ?_
  exact (asks_hiddenSlot span incrementSlot).bind (asks_pure _)

theorem asks_collectSlots (value : Symbol) (span : Span) :
    Asks known ctx (collectSlots value span) (collectSlotsIn ctx value) := by
  refine asks_hiddenName fun index indexSlot => asks_hiddenName fun result resultSlot => ?_
  refine asks_hiddenName fun item itemSlot => ?_
  refine (asks_hiddenSlot span indexSlot).bind ?_
  refine (asks_hiddenSlot span resultSlot).bind ?_
  exact (asks_hiddenSlot span itemSlot).bind (asks_pure _)

theorem asks_keySlot (key : Option Symbol) (span : Span) :
    Asks known ctx (keySlot span key) (key.map (slotIn ctx)) := by
  cases key with
  | none => exact asks_pure none
  | some key => exact (asks_localSlot key span).bind (asks_pure _)

theorem asks_foreachSlots (key : Option Symbol) (value : Symbol) (collect : Bool) (span : Span) :
    Asks known ctx (foreachSlots key value collect span)
      (foreachSlotsIn ctx key value collect) := by
  refine (asks_localSlot value span).bind ((asks_keySlot key span).bind ?_)
  have named : iteratorName value key = hiddenName (value :: key.toList) "iter" := by
    cases key <;> rfl
  rw [named]
  refine asks_hiddenName fun iterator iteratorSlot => (asks_hiddenSlot span iteratorSlot).bind ?_
  cases collect with
  | true => exact (asks_collectSlots value span).bind (asks_pure _)
  | false => exact asks_pure _

theorem asks_find (vars : List Variable) (span : Span) :
    Asks known ctx (withNames vars (findSlots span)) () := by
  refine withNames_findSlots (motive := (Asks known ctx · ())) span (fun names => ?_)
    (fun _ _ _ later => asks_hiddenName fun name _ => later name) vars
  induction names with
  | nil => exact asks_pure ()
  | cons name rest ih => exact (asks_localSlot name span).bind ih

end

/-! ## Emission follows plans -/

variable {pending : Pending} {space : Value}

/-- What is asked for is known from the context. -/
theorem bind_of_asks {α β : Type} {action : EmitM α} {value : Context → α}
    (asks : ∀ ctx, Asks (fun _ => True) ctx action (value ctx)) (next : α → EmitM β) :
    (action >>= next) = (do let _ ← action) >>= fun _ => read >>= fun ctx => next (value ctx) := by
  funext ctx state
  cases run : action ctx state with
  | ok result final =>
    obtain ⟨rfl, -⟩ := asks ctx run
    rw [bind_of_ok run, bind_of_ok (bind_of_ok run _)]
    rfl
  | error failure final => rw [bind_of_error run, bind_of_error (bind_of_error run _)]

theorem bind_apply {α β : Type} (action : EmitM α) (next : α → EmitM β) (ctx : Context) :
    (action >>= next) ctx = action ctx >>= fun value => next value ctx :=
  rfl

theorem read_apply (ctx : Context) : (read : EmitM Context) ctx = pure ctx :=
  rfl

theorem pushSymbol_eq (name : Symbol) : pushSymbol name = pushValue (.symbol name) :=
  rfl

-- Following a plan is unfolding it.
attribute [local simp] Plan.run Step.perform VariableUse.emit Variable.name hiddenSlot
  Emission.value frequent pushInt pushNil callGlobal Plan.callGlobal pushSymbol_eq bind_apply
  read_apply

@[simp]
theorem Plan.run_append (first second : Plan) :
    (first ++ second).run space = first.run space >>= fun _ => second.run space :=
  rfl

@[simp]
theorem Plan.run_all (nodes : List Node) : (all nodes pending).run space = emitAll nodes := by
  induction nodes generalizing pending with
  | nil => simp [emitAll, all]
  | cons node rest ih => simp [emitAll, all, ih]

theorem emitSlots_eq (slots : List Slot) : emitSlots slots = emitAll (slots.map Slot.value) := by
  induction slots with
  | nil => simp only [emitSlots, emitAll, List.map_nil]
  | cons slot rest ih =>
    obtain ⟨name, initial⟩ := slot
    simp only [emitSlots, emitAll, List.map_cons, ih]

@[simp]
theorem Plan.run_bindings (declared : List Binding) (keep : Bool) :
    (bindings declared pending keep).run space = emitBindings declared keep := by
  fun_induction bindings declared pending keep with
  | case1 => simp [emitBindings]
  | case2 _ _ _ _ _ _ _ ih => simp [emitBindings, ih]
  | case3 _ _ _ _ _ _ ih => simp [emitBindings, ih]

@[simp]
theorem Plan.run_base (node : Node) (slots : List Symbol) :
    (base node pending slots).run space = emitBase node slots := by
  fun_induction base node pending slots with
  | case1 _ _ _ _ _ ih => simp [emitBase, ih]
  | case2 expr span pending slots others =>
    rw [emitBase]
    · simp [emit]
    · exact others

theorem textCount_of_noText {expr : Expr} (noJoin : ∀ lhs rhs, expr ≠ .binary .concat lhs rhs)
    (noSpace : ∀ lhs rhs, expr ≠ .binary .concatSpace lhs rhs) (span : Span) :
    textCount ⟨expr, span⟩ = 1 := by
  rw [textCount]
  · rintro _ _ _ ⟨⟩
    exact noJoin _ _ rfl
  · rintro _ _ _ ⟨⟩
    exact noSpace _ _ rfl

theorem emitTexts_eq (node : Node) (pending : Pending) :
    emitTexts node space =
      (texts node pending).run space >>= fun _ => pure (textCount node) := by
  fun_induction texts node pending with
  | case1 _ _ _ _ left right => simp [emitTexts, textCount, left, right]
  | case2 _ _ _ _ left right => simp [emitTexts, textCount, left, right]
  | case3 expr span pending noJoin noSpace =>
    rw [emitTexts, textCount_of_noText noJoin noSpace]
    · simp [emit]
    · exact noJoin
    · exact noSpace

theorem emitTarget_eq (target : Node) (pending : Pending) (space : Value) :
    emitTarget target =
      (Plan.target target pending).run space >>= fun _ => pure (targetOf target) := by
  obtain ⟨expr, span⟩ := target
  cases expr with
  | path object key =>
    cases key with
    | slot name => simp [emitTarget, Plan.target, targetOf]
    | computed key => simp [emitTarget, Plan.target, pair, targetOf]
  | index object position => simp [emitTarget, Plan.target, pair, targetOf]
  | _ => rfl

@[simp]
theorem Plan.run_existsTest (operand : Node) (span : Span) :
    (existsTest operand span pending).run space = emitExists operand span := by
  obtain ⟨expr, region⟩ := operand
  cases expr with
  | path object key =>
    cases key with
    | slot name => simp [existsTest, path, emitExists]
    | computed key => rfl
  | _ => rfl

@[simp]
theorem Plan.run_receiver (node : Node) (ifDefined : Bool) :
    (receiver node pending ifDefined).run space = emitReceiver node ifDefined := by
  obtain ⟨expr, region⟩ := node
  cases expr with
  | path object key =>
    cases key with
    | slot name => simp [receiver, path, emitReceiver]
    | computed key => rfl
  | _ => rfl

theorem emitItems_eq {items : List Node} {discard : Bool} (pending : Pending) (space : Value)
    (gives : ∀ item ∈ items,
      emit item discard = emit item discard >>= fun _ => pure (leavesValue item discard)) :
    emitItems items discard =
      (Plan.items items pending discard).run space >>= fun _ => pure (leavesLast items discard) := by
  fun_induction Plan.items items pending discard with
  | case1 pending discard => cases discard <;> rfl
  | case2 last =>
    rw [emitItems, gives last (.head _), leavesLast]
    simp
  | case3 item next rest pending discard ih =>
    rw [emitItems, ih fun other member => gives other (.tail _ member), leavesLast]
    simp

theorem loopValue_eq (discard : Bool) (space : Value) :
    loopValue discard = (Plan.loopValue discard).run space >>= fun _ => pure (!discard) := by
  cases discard <;> rfl

/-! ### Loops -/

section

variable {ctx : Context}

theorem startCollecting_eq (item : Symbol) (space : Value) :
    startCollecting (collectSlotsIn ctx item) ctx =
      (Plan.startCollecting item).run space ctx := by
  simp [startCollecting, Plan.startCollecting, collectSlotsIn]

theorem collectItem_eq (item : Symbol) (space : Value) :
    collectItem (collectSlotsIn ctx item) ctx =
      (Plan.collectItem item).run space ctx := by
  simp [collectItem, Plan.collectItem, collectSlotsIn]

theorem fetchPart_eq (iterator var : Variable) (part : Int) (space : Value) :
    fetchPart (slotIn ctx iterator.name) part (slotIn ctx var.name) ctx =
      (Plan.fetchPart iterator part var).run space ctx := by
  simp [fetchPart, Plan.fetchPart]

end

theorem forLoop_eq (var : Symbol) (start limit step body : Plan) (discard : Bool) (space : Value) :
    (read >>= fun ctx => forLoop (forSlotsIn ctx var) (start.run space) (limit.run space)
      (step.run space) (body.run space) discard) =
      (Plan.forLoop var start limit step body discard).run space >>= fun _ => pure (!discard) := by
  funext ctx
  simp [forLoop, Plan.forLoop, closeLoop, loopValue_eq discard space, forSlotsIn, -bind_pure_comp]

theorem foreachLoop_eq (key : Option Symbol) (item : Symbol) (deeply collect : Bool)
    (collection : Plan) (body : Bool → Plan) (discard : Bool) (space : Value) :
    (read >>= fun ctx => foreachLoop (foreachSlotsIn ctx key item collect) deeply
      (collection.run space) (fun discard => (body discard).run space) discard) =
      (Plan.foreachLoop key item deeply collect collection body discard).run space >>=
        fun _ => pure (!discard) := by
  funext ctx
  cases key <;> cases collect <;>
    simp [foreachLoop, Plan.foreachLoop, loopValue_eq discard space, foreachSlotsIn,
      Plan.onlyIf, fetchKey, ← fetchPart_eq, ← startCollecting_eq, ← collectItem_eq,
      collectSlotsIn, -bind_pure_comp]

theorem Plan.run_arm (node : Node) (discard : Bool) :
    (arm node pending discard).run space = Emission.arm node discard (emit node) := by
  cases discard <;> rfl

theorem functionLiteral_eq (id : FuncId) (span : Span) (body : EmitM Unit) (discard : Bool) :
    functionLiteral id span body discard =
      (do let _ ← functionLiteral id span body discard) >>= fun _ => pure (!discard) := by
  unfold functionLiteral
  simp only [bind_assoc, pure_bind]
  refine congrArg (read >>= ·) (funext fun ctx => ?_)
  cases ctx.scopes.scopeOf? id with
  | none => rfl
  | some inner =>
    cases discard with
    | true => simp only [if_true, bind_assoc, pure_bind, Bool.not_true]
    | false =>
      simp only [Bool.false_eq_true, if_false, bind_assoc, Bool.not_false]
      refine congrArg (functionBlock inner body >>= ·) (funext fun block => ?_)
      cases block.argFrame.isSome <;> rfl

theorem bind_forSlots {α : Type} (var : Symbol) (span : Span) (next : ForSlots → EmitM α) :
    (forSlots var span >>= next) = (Step.find [.named var] span).perform space >>= fun _ =>
      (Step.find [.hidden [var] "limit", .hidden [var] "incr"] span).perform space >>= fun _ =>
        read >>= fun ctx => next (forSlotsIn ctx var) := by
  rw [bind_of_asks (fun _ => asks_forSlots var span)]
  simp only [forSlots, Step.perform, withNames, findSlots, bind_assoc, pure_bind]

theorem bind_foreachSlots {α : Type} (key : Option Symbol) (item : Symbol) (collect : Bool)
    (span : Span) (next : ForeachSlots → EmitM α) :
    (foreachSlots key item collect span >>= next) =
      (Step.find [.named item] span).perform space >>= fun _ =>
        (Step.find (key.toList.map .named) span).perform space >>= fun _ =>
          (Step.find [.hidden (item :: key.toList) "iter"] span).perform space >>= fun _ =>
            (Step.find (if collect then ["index", "result", "item"].map (.hidden [item]) else [])
              span).perform space >>= fun _ =>
                read >>= fun ctx => next (foreachSlotsIn ctx key item collect) := by
  rw [bind_of_asks (fun _ => asks_foreachSlots key item collect span)]
  cases key <;> cases collect <;>
    simp only [foreachSlots, keySlot, collectSlots, Step.perform, withNames, findSlots, bind_assoc,
      pure_bind, Option.toList, List.map, if_true, if_false, Bool.false_eq_true] <;>
    rfl

attribute [local simp] emitExpr planOf leavesValue

/-- Emission follows the plan. -/
theorem emit_eq (node : Node) (pending : Pending) (discard : Bool) (space : Value) :
    emit node discard =
      (planOf node pending discard).run space >>= fun _ => pure (leavesValue node discard) := by
  induction node using Node.induction generalizing pending discard with
  | step expr span ih =>
    rw [emit]
    cases expr with
    | begin items =>
      refine emitItems_eq pending space fun item member => ?_
      rw [ih item member {} discard]
      simp
    | unary op operand =>
      cases op with
      | negate => cases found : foldedNegation? operand <;> simp [found]
      | complement => simp
    | binary op lhs rhs =>
      cases op with
      | concat =>
        simp [binary, operationOf?, separator, separatorCount, emitTexts_eq lhs pending,
          emitTexts_eq rhs (pending.below (textCount lhs)), joinTexts]
      | concatSpace =>
        simp [binary, operationOf?, separator, separatorCount, emitTexts_eq lhs pending,
          emitTexts_eq rhs (pending.below (textCount lhs + 1)), joinTexts]
      | _ => simp [binary, operationOf?, Operation.emit]
    | logical op lhs rhs => cases discard <;> simp [run_arm, logical]
    | path object key => cases key <;> simp [path]
    | assign target assigned =>
      simp only [emitExpr, planOf, emitTarget_eq target pending space, leavesValue, bind_assoc,
        pure_bind, run_append, run, Step.perform, value]
      cases targetOf target <;> rfl
    | localDecl bindings =>
      simp only [emitExpr, planOf, leavesValue, run_append, run_bindings, bind_assoc]
      cases !discard && !bindings.any isInitialized <;> rfl
    | call name args =>
      cases found : Frequent.ofCall? name.spelling args.length <;>
        simp [callNamed, Plan.callNamed, found]
    | send receiver message args ifDefined => cases receiver <;> simp
    | ifThen cond thenBranch elseBranch =>
      cases elseBranch <;> cases discard <;> simp [run_arm, ifThenElse, ifThen]
    | forLoop var start limit step body =>
      have whole := fun step => forLoop_eq var (.value start pending) (.value limit pending) step
        (.step (.effect body pending.insideLoop)) discard space
      cases step with
      | none =>
        rw [emitExpr, planOf, leavesValue, run, run, bind_assoc, bind_assoc, ← whole, bind_forSlots]
        rfl
      | some step =>
        rw [emitExpr, planOf, leavesValue, run, run, bind_assoc, bind_assoc, ← whole, bind_forSlots]
        rfl
    | foreachLoop key item deeply collection collect body =>
      rw [emitExpr, planOf, leavesValue, bind_foreachSlots]
      simp only [run, bind_assoc, ← foreachLoop_eq, run_arm]
      rfl
    | globalVar _ value | breakLoop value | returnValue value | makeArray value =>
      cases value <;> simp
    | index | globalFunc | invoke | resend | existsTest | loop | whileLoop | repeatLoop | makeFrame =>
      simp [emitSlots_eq, endless, whileLoop, repeatLoop, closeLoop, loopValue_eq discard space,
        pushMap]
    | func id params body native name => exact functionLiteral_eq id span _ discard
    | _ => cases discard <;> rfl

end NewtonScript.Emission
