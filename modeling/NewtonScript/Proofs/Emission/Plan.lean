import NewtonScript.Proofs.Code.Pending
import NewtonScript.Proofs.Emission.Run

/-!
# Plans

The emission of a node follows a plan: a row of steps, some of which emit
parts of the node, with branches between them.  The plan of a node is known
before anything is emitted, and so is the code that it stands for.

What is said about emission as a whole is said about the few ways in which
plans are made and about the steps.
-/

namespace NewtonScript.Emission

open Bytecode

/-- A variable of the function that is emitted: one of the program, or a
hidden one of a loop. -/
inductive Variable where
  | named (name : Symbol)
  | hidden (parts : List Symbol) (word : String)

/-- The name of a variable. -/
def Variable.name : Variable → Symbol
  | named name => name
  | hidden parts word => .ofString (hiddenSpelling parts word)

/-- What is done with a variable of the function. -/
inductive VariableUse where
  | get
  | set
  | incr

/-- The action on the variable in a slot. -/
def VariableUse.emit : VariableUse → Nat → EmitM Unit
  | get => getVar
  | set => setVar
  | incr => incrVar

/-- The primitive for the variable in a slot. -/
def VariableUse.primitive : VariableUse → Nat → Primitive
  | get => .getVar
  | set => .setVar
  | incr => .incrVar

/-- A step of a plan. -/
inductive Step where
  /-- Emit a part of the node. -/
  | part (node : Node) (pending : Pending) (discard : Bool)
  /-- Emit a part of the node and drop what it leaves. -/
  | effect (node : Node) (pending : Pending)
  | push (value : Value)
  | spelled (spelling : String)
  /-- Push the text between others. -/
  | space
  | path (slots : List Symbol)
  /-- Make a frame with given slots. -/
  | frame (slots : List Symbol)
  | lookup (name : Symbol)
  | store (name : Symbol) (keep : Bool) (span : Span)
  | nameExists (name : Symbol)
  | access (access : VariableUse) (var : Variable)
  | op (op : Opcode) (operand : Nat)
  | simple (op : SimpleOp)
  | ret (operands : Nat)
  /-- Refuse what is not to be assigned to. -/
  | refuseConstant (name : Symbol) (span : Span)
  /-- Refuse a loop whose variables have no slots. -/
  | find (vars : List Variable) (span : Span)
  | fail (failure : Failure)
  | leave (result : Option Node) (span : Span) (pending : Pending)
  | guard (body : Node) (handlers : List Handler) (pending : Pending) (discard : Bool)
  | function (id : FuncId) (span : Span) (body : Node) (discard : Bool)

/-- Steps with branches between them. -/
inductive Plan where
  | empty
  | step (step : Step)
  | append (first second : Plan)
  /-- Make the array for the results of a loop, and go on. -/
  | collecting (value : Symbol) (rest : Plan)
  /-- A step that emits nothing, and what is done if it succeeds. -/
  | after (check : Step) (rest : Plan)
  /-- Steps that put one text between others. -/
  | spaced (body : Plan)
  | skip (op : Opcode) (body : Plan)
  | fork (op : Opcode) (yes no : Plan)
  | back (op : Opcode) (body : Plan)
  | guarded (test body : Plan)
  | entered (op : Opcode) (body test : Plan)
  | scope (body : Plan)

/-- Push the map of a frame. -/
def pushMap (slots : List Symbol) : EmitM Unit := do
  pushLiteral (.map (← withStore (Store.sharedMap slots)))

/-- Find the slots of names. -/
def findSlots (span : Span) : List Symbol → EmitM Unit
  | [] => return
  | name :: rest => do
    let _ ← localSlot name span
    findSlots span rest

/-- Go on with the names of variables, where those of hidden ones are interned. -/
def withNames : List Variable → (List Symbol → EmitM Unit) → EmitM Unit
  | [], next => next []
  | .named name :: rest, next => withNames rest fun names => next (name :: names)
  | .hidden parts word :: rest, next => do
    let name ← withStore (hiddenName parts word)
    withNames rest fun names => next (name :: names)

/-- Slots are found by finding those of names behind the names that are interned. -/
theorem withNames_findSlots {motive : EmitM Unit → Prop} (span : Span)
    (found : ∀ names, motive (findSlots span names))
    (interned : ∀ parts word next, (∀ name, motive (next name)) →
      motive (withStore (hiddenName parts word) >>= next))
    (vars : List Variable) : motive (withNames vars (findSlots span)) := by
  generalize findSlots span = next at found
  induction vars generalizing next with
  | nil => exact found []
  | cons var rest ih =>
    cases var with
    | named name => exact ih _ fun names => found (name :: names)
    | hidden parts word =>
      exact interned parts word _ fun name => ih _ fun names => found (name :: names)

/-- Take a step.  The text between others is given. -/
def Step.perform (space : Value) : Step → EmitM Unit
  | part node _ discard => do let _ ← emit node discard
  | effect node _ => Emission.effect node (emit node)
  | push value => pushValue value
  | spelled spelling => pushSpelling spelling
  | Step.space => pushLiteral space
  | path slots => pushPath slots
  | frame slots => do
    pushMap slots
    Emission.op .makeFrame slots.length
  | lookup name => pushVariable name
  | store name keep span => storeVariable name keep span
  | nameExists name => pushExists name
  | access kind var => do kind.emit (slotIn (← read) var.name)
  | op opcode operand => Emission.op opcode operand
  | simple opcode => Emission.simple opcode
  | ret _ => Emission.simple .ret
  | refuseConstant name span => Emission.refuseConstant name span
  | find vars span => withNames vars (findSlots span)
  | fail failure => throw failure
  | leave (some result) span _ => do
    refuseOutsideLoop span
    value (emit result)
    breakHere
  | leave none span _ => do
    refuseOutsideLoop span
    pushNil
    breakHere
  | guard body handlers _ discard =>
    tryCatch handlers (arm body discard (emit body)) fun addresses =>
      emitHandlers handlers addresses discard
  | function id span body discard => do
    let _ ← functionLiteral id span (value (emit body)) discard

/-- Follow a plan. -/
def Plan.run : Plan → Value → EmitM Unit
  | empty, _ => return
  | step taken, space => taken.perform space
  | append first second, space => do
    first.run space
    second.run space
  | collecting value rest, space => do
    Emission.op .makeArray growableArray
    (Step.access .set (.hidden [value] "result")).perform space
    rest.run space
  | after check rest, space => do
    check.perform space
    rest.run space
  | spaced body, _ => do body.run (← withStore (Store.makeString " "))
  | skip opcode body, space => do
    let label ← reserve opcode
    body.run space
    patchHere label
  | fork opcode yes no, space => do
    let label ← reserve opcode
    yes.run space
    let label' ← reserve .branch
    patchHere label
    no.run space
    patchHere label'
  | back opcode body, space => do
    let top ← here
    body.run space
    op opcode top
  | guarded test body, space => do
    let top ← here
    test.run space
    let exit ← reserve .branchIfFalse
    body.run space
    op .branch top
    patchHere exit
  | entered opcode body test, space => do
    let label ← reserve .branch
    let top ← here
    body.run space
    patchHere label
    test.run space
    op opcode top
  | scope body, space => do
    openLoop
    body.run space
    patchBreaks

/-! ## The plan of a node -/

instance : Append Plan := ⟨.append⟩

namespace Plan

/-- A plan that is followed only under a condition. -/
def onlyIf (condition : Bool) (plan : Plan) : Plan :=
  if condition then plan else .empty

/-- Emit a node for its value. -/
abbrev value (node : Node) (pending : Pending) : Plan :=
  .step (.part node pending false)

/-- Emit a node for its effect or for its value. -/
def arm (node : Node) (pending : Pending) (discard : Bool) : Plan :=
  .step (if discard then .effect node pending else .part node pending false)

abbrev push (value : Value) : Plan :=
  .step (.push value)

abbrev op (opcode : Opcode) (operand : Nat) : Plan :=
  .step (.op opcode operand)

abbrev simple (op : SimpleOp) : Plan :=
  .step (.simple op)

abbrev frequent (function : Frequent) : Plan :=
  .step (.op .freqFunc function.index)

abbrev get (var : Variable) : Plan :=
  .step (.access .get var)

abbrev set (var : Variable) : Plan :=
  .step (.access .set var)

/-- Call a global function by its name. -/
def callGlobal (spelling : String) (count : Nat) : Plan :=
  .step (.spelled spelling) ++ op .call count

/-- Call a function by its name, with its arguments on the stack. -/
def callNamed (name : Symbol) (count : Nat) : Plan :=
  match Frequent.ofCall? name.spelling count with
  | some function => frequent function
  | none => push (.symbol name) ++ op .call count

/-- Keep or drop the value of a loop. -/
def loopValue (discard : Bool) : Plan :=
  onlyIf discard (simple .pop)

/-- A counting loop whose increment is given. -/
def forLoop (var : Symbol) (start limit step body : Plan) (discard : Bool) : Plan :=
  let limitSlot : Variable := .hidden [var] "limit"
  let increment : Variable := .hidden [var] "incr"
  start ++ (set (.named var) ++ (limit ++ (set limitSlot ++ (step ++ (set increment ++
    (.scope (get increment ++ (get (.named var) ++
      (.entered .branchIfLoopNotDone
          (body ++ (get increment ++ .step (.access .incr (.named var)))) (get limitSlot) ++
        push .nil))) ++ loopValue discard))))))

/-- Put a part of the current item into a variable. -/
def fetchPart (iterator : Variable) (part : Int) (var : Variable) : Plan :=
  get iterator ++ (push (.int part) ++ (frequent .aref ++ set var))

/-- Make the array for the results of a loop. -/
def startCollecting (value : Symbol) : Plan :=
  simple .dup ++ (frequent .length ++ (.step (.spelled "array") ++
    .collecting value (push (.int 0) ++ set (.hidden [value] "index"))))

/-- Put the value on top of the stack behind the results so far. -/
def collectItem (value : Symbol) : Plan :=
  let index : Variable := .hidden [value] "index"
  set (.hidden [value] "item") ++ (get (.hidden [value] "result") ++ (get index ++
    (get (.hidden [value] "item") ++ (frequent .setAref ++ (simple .pop ++
      (get index ++ (push (.int 1) ++ (frequent .add ++ set index))))))))

/-- Fetch the key of the current item. -/
def fetchKey (iterator : Variable) : Option Symbol → Plan
  | some key => fetchPart iterator 0 (.named key)
  | none => .empty

/-- A loop over a collection. -/
def foreachLoop (key : Option Symbol) (value : Symbol) (deeply collect : Bool) (collection : Plan)
    (body : Bool → Plan) (discard : Bool) : Plan :=
  let iterator : Variable := .hidden (value :: key.toList) "iter"
  collection ++ (onlyIf collect (startCollecting value) ++
    (push (if deeply then .truth else .nil) ++ (frequent .newIterator ++ (set iterator ++
      (.scope (.entered .branchIfFalse
          (fetchPart iterator 1 (.named value) ++ (fetchKey iterator key ++
            ((if collect then body false ++ collectItem value else body true) ++
              (get iterator ++ simple .iterNext))))
          (get iterator ++ simple .iterDone) ++
        if collect then get (.hidden [value] "result") else push .nil) ++
          (push .nil ++ (set iterator ++ loopValue discard)))))))

/-- Nodes for their values, in order. -/
def all : List Node → Pending → Plan
  | [], _ => .empty
  | node :: rest, pending => value node pending ++ all rest (pending.below 1)

/-- A sequence: the last item gives its value. -/
def items : List Node → Pending → Bool → Plan
  | [], _, discard => onlyIf (!discard) (push .nil)
  | [last], pending, discard => .step (.part last pending discard)
  | item :: next :: rest, pending, discard =>
    .step (.effect item pending) ++ items (next :: rest) pending discard

/-- The initializers of declared names. -/
def bindings : List Binding → Pending → Bool → Plan
  | [], _, _ => .empty
  | ⟨name, _, some initial, span⟩ :: rest, pending, keep =>
    value initial pending ++ (.step (.store name (keep && !rest.any isInitialized) span) ++
      bindings rest pending keep)
  | ⟨_, _, none, _⟩ :: rest, pending, keep => bindings rest pending keep

/-- The object of a path and the key. -/
def base : Node → Pending → List Symbol → Plan
  | ⟨.path object (.slot name), _⟩, pending, slots => base object pending (name :: slots)
  | ⟨expr, span⟩, pending, slots => value ⟨expr, span⟩ pending ++ .step (.path slots)

/-- The texts that a node joins. -/
def texts : Node → Pending → Plan
  | ⟨.binary .concat lhs rhs, _⟩, pending =>
    texts lhs pending ++ texts rhs (pending.below (textCount lhs))
  | ⟨.binary .concatSpace lhs rhs, _⟩, pending =>
    texts lhs pending ++ (.step .space ++ texts rhs (pending.below (textCount lhs + 1)))
  | ⟨expr, span⟩, pending => value ⟨expr, span⟩ pending

/-- An object and what is looked up in it. -/
def pair (object key : Node) (pending : Pending) : Plan :=
  value object pending ++ value key (pending.below 1)

/-- A path, and what is done with its object and its key. -/
def path (object : Node) (key : PathKey) (pending : Pending) (last : Step) : Plan :=
  match key with
  | .slot name => base object pending [name] ++ .step last
  | .computed key => value object pending ++ (value key (pending.below 1) ++ .step last)

/-- The parts of what is assigned to. -/
def target : Node → Pending → Plan
  | ⟨.name name, span⟩, _ => .step (.refuseConstant name span)
  | ⟨.path object (.slot name), _⟩, pending => base object pending [name]
  | ⟨.path object (.computed key), _⟩, pending => pair object key pending
  | ⟨.index object position, _⟩, pending => pair object position pending
  | ⟨_, span⟩, _ => .step (.fail ⟨.assignTarget, span⟩)

/-- Assign the value on top of the stack. -/
def assign (discard : Bool) : Target → Plan
  | .variable name span => .step (.store name (!discard) span)
  | .path => op .setPath (if discard then 0 else 1)
  | .element => frequent .setAref

/-- The test whether something exists. -/
def existsTest : Node → Span → Pending → Plan
  | ⟨.name name, _⟩, _, _ => .step (.nameExists name)
  | ⟨.path object key, _⟩, _, pending => path object key pending (.op .freqFunc Frequent.hasPath.index)
  | _, span, _ => .after (.fail ⟨.existsTarget, span⟩) (push .nil)

/-- The receiver of a message. -/
def receiver : Node → Pending → Bool → Plan
  | ⟨.path object key, _⟩, pending, ifDefined =>
    path object key pending (.op .getPath (if ifDefined then 0 else 1))
  | node, pending, _ => value node pending

/-- The plan of an operator. -/
def binary (op : BinaryOp) (lhs rhs : Node) (pending : Pending) : Plan :=
  match operationOf? op with
  | some (.frequent function) =>
    value lhs pending ++ (value rhs (pending.below 1) ++ frequent function)
  | some (.library name) =>
    value lhs pending ++ (value rhs (pending.below 1) ++ callGlobal name 2)
  | none =>
    let count := textCount lhs + separatorCount op
    .spaced (texts lhs pending ++ ((if op = .concatSpace then .step .space else .empty) ++
      (texts rhs (pending.below count) ++ (.step (.spelled "array") ++
        (Plan.op .makeArray (count + textCount rhs) ++ frequent .stringer)))))

end Plan

/-- The plan of a node for its value or, with `discard`, for its effect. -/
def planOf : Node → Pending → Bool → Plan
  | ⟨.literal literal, _⟩, _, discard => .onlyIf (!discard) (.push literal)
  | ⟨.name name, _⟩, _, discard => .onlyIf (!discard) (.step (.lookup name))
  | ⟨.selfRef, _⟩, _, discard => .onlyIf (!discard) (.simple .pushSelf)
  | ⟨.begin items, _⟩, pending, discard => .items items pending discard
  | ⟨.unary .negate operand, _⟩, pending, _ =>
    match foldedNegation? operand with
    | some folded => .push folded
    | none => .push (.int 0) ++ (.value operand (pending.below 1) ++ .frequent .subtract)
  | ⟨.unary .complement operand, _⟩, pending, _ => .value operand pending ++ .frequent .complement
  | ⟨.binary op lhs rhs, _⟩, pending, _ => .binary op lhs rhs pending
  | ⟨.logical op lhs rhs, _⟩, pending, discard =>
    if discard then
      .value lhs pending ++ .skip (skipOf op) (.arm rhs pending true)
    else
      .value lhs pending ++ .fork (skipOf op) (.arm rhs pending false) (.push (shortValue op))
  | ⟨.existsTest operand, span⟩, pending, _ => .existsTest operand span pending
  | ⟨.path object key, _⟩, pending, _ => .path object key pending (.op .getPath 1)
  | ⟨.index object position, _⟩, pending, _ =>
    .value object pending ++ (.value position (pending.below 1) ++ .frequent .aref)
  | ⟨.assign target assigned, _⟩, pending, discard =>
    .target target pending ++ (.value assigned (pending.below (targetOf target).depth) ++
      .assign discard (targetOf target))
  | ⟨.localDecl bindings, _⟩, pending, discard =>
    .bindings bindings pending (!discard) ++
      .onlyIf (!discard && !bindings.any isInitialized) (.push .nil)
  | ⟨.constantDecl _, _⟩, _, discard => .onlyIf (!discard) (.push .nil)
  | ⟨.globalVar name (some initial), _⟩, pending, _ =>
    .push (.symbol name) ++ (.value initial (pending.below 1) ++ .callGlobal "DefGlobalVar" 2)
  | ⟨.globalVar name none, _⟩, _, _ =>
    .push (.symbol name) ++ (.push .nil ++ .callGlobal "DefGlobalVar" 2)
  | ⟨.globalFunc name function, _⟩, pending, _ =>
    .push (.symbol name) ++ (.value function (pending.below 1) ++ .callGlobal "DefGlobalFn" 2)
  | ⟨.func id _ body _ _, span⟩, _, discard => .step (.function id span body discard)
  | ⟨.call name args, _⟩, pending, _ => .all args pending ++ .callNamed name args.length
  | ⟨.invoke function args, _⟩, pending, _ =>
    .all args pending ++ (.value function (pending.below args.length) ++ .op .invoke args.length)
  | ⟨.send receiver message args ifDefined, _⟩, pending, _ =>
    let object := match receiver with
      | some receiver => .receiver receiver (pending.below args.length) ifDefined
      | none => .simple .pushSelf
    .all args pending ++ (object ++ (.push (.symbol message) ++
      .op (if ifDefined then .sendIfDefined else .send) args.length))
  | ⟨.resend message args ifDefined, _⟩, pending, _ =>
    .all args pending ++ (.push (.symbol message) ++
      .op (if ifDefined then .resendIfDefined else .resend) args.length)
  | ⟨.ifThen cond thenBranch (some elseBranch), _⟩, pending, discard =>
    .value cond pending ++ .fork .branchIfFalse (.arm thenBranch pending discard)
      (.arm elseBranch pending discard)
  | ⟨.ifThen cond thenBranch none, _⟩, pending, discard =>
    if discard then
      .value cond pending ++ .skip .branchIfFalse (.step (.effect thenBranch pending))
    else
      .value cond pending ++ .fork .branchIfFalse (.value thenBranch pending) (.push .nil)
  | ⟨.loop body, _⟩, pending, discard =>
    .scope (.back .branch (.step (.effect body pending.insideLoop))) ++ .loopValue discard
  | ⟨.whileLoop cond body, _⟩, pending, discard =>
    .scope (.guarded (.value cond pending.insideLoop) (.step (.effect body pending.insideLoop)) ++
      .push .nil) ++ .loopValue discard
  | ⟨.repeatLoop body cond, _⟩, pending, discard =>
    .scope (.back .branchIfFalse (.step (.effect body pending.insideLoop) ++
      .value cond pending.insideLoop) ++ .push .nil) ++ .loopValue discard
  | ⟨.forLoop var start limit step body, span⟩, pending, discard =>
    let increment := match step with
      | some step => .value step pending
      | none => .push (.int 1)
    .after (.find [.named var] span)
      (.after (.find [.hidden [var] "limit", .hidden [var] "incr"] span)
        (.forLoop var (.value start pending) (.value limit pending) increment
          (.step (.effect body pending.insideLoop)) discard))
  | ⟨.foreachLoop key item deeply collection collect body, span⟩, pending, discard =>
    .after (.find [.named item] span) (.after (.find (key.toList.map .named) span)
      (.after (.find [.hidden (item :: key.toList) "iter"] span)
        (.after (.find (if collect then ["index", "result", "item"].map (.hidden [item]) else [])
            span) (.foreachLoop key item deeply collect (.value collection pending)
          (.arm body pending.insideLoop) discard))))
  | ⟨.tryCatch body handlers, _⟩, pending, discard =>
    .step (.guard body handlers pending.guarded discard)
  | ⟨.breakLoop result, span⟩, pending, _ => .step (.leave result span pending)
  | ⟨.returnValue (some result), _⟩, pending, _ =>
    .value result pending ++ .step (.ret pending.operands)
  | ⟨.returnValue none, _⟩, pending, _ => .push .nil ++ .step (.ret pending.operands)
  | ⟨.makeArray className elements, _⟩, pending, _ =>
    let name := match className with
      | some className => .push (.symbol className)
      | none => .step (.spelled "array")
    .all elements pending ++ (name ++ .op .makeArray elements.length)
  | ⟨.makeFrame slots, _⟩, pending, _ =>
    .all (slots.map Slot.value) pending ++ .step (.frame (slots.map Slot.name))

end NewtonScript.Emission
