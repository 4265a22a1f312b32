import NewtonScript.Proofs.Code.OfTree

/-!
# The code of trees flows

The code of every part of a function body leads from the depth that its
surroundings have to the same depth, or to one value more, and leaves the
handlers as it found them.  It uses variables only as the function may.
-/

namespace NewtonScript.Emission

open Bytecode

variable {slot : Nat} {body : Node} {name : Symbol}

/-- The function in which a piece of code stands, the level at which the loop
around it was entered, and the handler tables that are installed. -/
structure Place where
  /-- The slots that its code may use. -/
  access : Access
  Leaves : Mark → Prop
  Finishes : Nat → Prop
  loop : Bytecode.Level
  handlers : Nat

/-- A loop is entered at a depth of the stack. -/
def Place.entered (place : Place) (depth : Nat) : Place :=
  { place with loop := ⟨depth, place.handlers⟩ }

/-- Handlers are installed. -/
def Place.guarded (place : Place) : Place :=
  { place with handlers := place.handlers + 1 }

/-- Code leads from one depth of the stack to another and leaves the handlers
alone. -/
def Lifts (place : Place) (code : Fragment Primitive) (depth depth' : Nat) : Prop :=
  code.Flow (Primitive.rules place.access place.Leaves place.Finishes) place.loop
    ⟨depth, place.handlers⟩ ⟨depth', place.handlers⟩

variable {place : Place} {depth depth' depth'' : Nat} {code first second : Fragment Primitive}

theorem Lifts.empty : Lifts place .empty depth depth :=
  Fragment.Flow.empty place.loop ⟨depth, place.handlers⟩

theorem Lifts.append (left : Lifts place first depth depth')
    (right : Lifts place second depth' depth'') : Lifts place (first ++ second) depth depth'' :=
  Fragment.Flow.append left right

theorem lifts_one {primitive : Primitive} (moves : primitive.Moves place.access depth depth') :
    Lifts place (one primitive) depth depth' :=
  Fragment.Flow.plain place.loop place.handlers moves

theorem lifts_effectCode {node : Node} {code : Bool → Fragment Primitive}
    (lifts : Lifts place (code true) depth (withValue (leavesValue node true) depth)) :
    Lifts place (effectCode node code) depth depth := by
  refine lifts.append ?_
  cases leavesValue node true with
  | true => exact lifts_one rfl
  | false => exact .empty

theorem lifts_armCode {node : Node} {code : Bool → Fragment Primitive}
    (lifts : ∀ discard, Lifts place (code discard) depth
      (withValue (leavesValue node discard) depth)) (discard : Bool) :
    Lifts place (armCode node discard code) depth (withValue (!discard) depth) := by
  cases discard with
  | true => exact lifts_effectCode (lifts true)
  | false =>
    have forValue := lifts false
    rw [leavesValue_false] at forValue
    exact forValue

/-! ## Variables -/

theorem slotOf?_lt {scope : Scope} (found : scope.slotOf? name = some slot) :
    slot < scope.names.length :=
  (List.findIdx?_eq_some_iff_getElem.mp found).1

/-- The number of variables of a function. -/
def variableCount (ctx : Context) : Nat :=
  (ctx.scopes.get ctx.scope).names.length

theorem held_slotIn (ctx : Context) (name : Symbol) :
    Held (variableCount ctx) (slotIn ctx name) := by
  unfold slotIn
  cases found : (ctx.scopes.get ctx.scope).slotOf? name with
  | some slot => exact .inl (slotOf?_lt found)
  | none => exact .inr (Nat.le_refl _)

theorem slotOf?_of_resolve {scopes : Scopes} {id : ScopeId}
    (resolved : scopes.resolve id name = .slot slot) :
    (scopes.get id).slotOf? name = some slot := by
  unfold Scopes.resolve at resolved
  cases found : (scopes.get id).slotOf? name with
  | some own => simpa [found] using resolved
  | none =>
    cases constant : scopes.constant? id name with
    | some value => simp [found, constant] at resolved
    | none =>
      simp only [found, constant] at resolved
      split at resolved <;> cases resolved

theorem slotIn_of_resolvedIn {ctx : Context} {globals : Table Symbol Value}
    (resolved : resolvedIn ctx globals name = .slot slot) : slotIn ctx name = slot := by
  unfold resolvedIn at resolved
  cases found : ctx.scopes.resolve ctx.scope name with
  | slot own =>
    simp only [found, Resolved.slot.injEq] at resolved
    rw [slotIn, slotOf?_of_resolve found, Option.getD_some, resolved]
  | environment =>
    simp only [found] at resolved
    cases known : globals.get? name <;> simp [known] at resolved
  | constant value => simp [found] at resolved
  | outer => simp [found] at resolved

variable {ctx : Context} {globals : Table Symbol Value}

theorem lifts_nameCode (reads : ∀ name, place.access.Reads (slotIn ctx name)) (name : Symbol) :
    Lifts place (nameCode ctx globals name) depth (depth + 1) := by
  unfold nameCode
  cases resolved : resolvedIn ctx globals name with
  | slot slot => exact lifts_one ⟨slotIn_of_resolvedIn resolved ▸ reads name, rfl⟩
  | constant value => exact lifts_one rfl
  | outer => exact lifts_one rfl
  | environment => exact lifts_one rfl

theorem lifts_storeCode (writes : place.access.Writes (slotIn ctx name)) (keep : Bool) :
    Lifts place (storeCode ctx globals name keep) (depth + 1) (withValue keep depth) := by
  have copied : Lifts place (onlyIf keep (oneSimple .dup)) (depth + 1)
      (withValue keep depth + 1) := by
    cases keep with
    | true => exact lifts_one rfl
    | false => exact .empty
  unfold storeCode
  cases resolved : resolvedIn ctx globals name with
  | slot slot => exact copied.append (lifts_one ⟨slotIn_of_resolvedIn resolved ▸ writes, rfl⟩)
  | constant value =>
    cases keep with
    | true => exact .empty
    | false => exact lifts_one rfl
  | outer => exact copied.append (lifts_one rfl)
  | environment => exact copied.append (lifts_one rfl)

theorem lifts_nameExistsCode (name : Symbol) :
    Lifts place (nameExistsCode ctx globals name) depth (depth + 1) := by
  have pushed : ∀ {depth}, Lifts place (one (.value (.symbol name))) depth (depth + 1) := lifts_one rfl
  have called : Lifts place (callCode "HasVar" 1) (depth + 1) (depth + 1) :=
    .append (lifts_one rfl) (lifts_one rfl)
  unfold nameExistsCode
  split
  · exact pushed.append called
  · exact lifts_one rfl

theorem lifts_functionCode (id : FuncId) (discard : Bool) :
    Lifts place (functionCode ctx id discard) depth (withValue (!discard) depth) := by
  cases discard with
  | true => exact .empty
  | false =>
    have closed : Lifts place (onlyIf (needsContext ctx id) (oneSimple .setLexScope)) (depth + 1)
        (depth + 1) := by
      cases needsContext ctx id with
      | true => exact lifts_one rfl
      | false => exact .empty
    exact .append (lifts_one rfl) closed

/-! ## Trees -/

/-- The place in which a part is evaluated has the operands and handlers that
stand around the part, and everything that is evaluated may be done there. -/
structure Place.Around (place : Place) (ctx : Context) (body : Node) (pending : Pending) :
    Prop where
  reads : ∀ name, place.access.Reads (slotIn ctx name)
  writes : ∀ inner node, Within body inner node →
    ∀ name ∈ assignedNames node.expr, place.access.Writes (slotIn ctx name)
  gathers : ∀ inner node, Within body inner node → ∀ value, node.expr.gathers? = some value →
    place.access.Gathers (hiddenSlot ctx [value] "result")
  leaves : ∀ mark, BreakMark body mark → place.Leaves mark
  finishes : ∀ operands, ReturnDepth body operands → place.Finishes operands
  operands : pending.operands = place.loop.depth + pending.sinceLoop
  handlers : place.handlers = place.loop.handlers + pending.handlers

namespace Place.Around

variable {body : Node} {pending : Pending}

theorem below (around : place.Around ctx body pending) (count : Nat) :
    place.Around ctx body (pending.below count) :=
  { around with operands := by simp only [Pending.below, around.operands, Nat.add_assoc] }

theorem insideLoop (around : place.Around ctx body pending) :
    (place.entered pending.operands).Around ctx body pending.insideLoop :=
  { around with operands := rfl, handlers := rfl }

theorem guarded (around : place.Around ctx body pending) :
    place.guarded.Around ctx body pending.guarded :=
  { around with
    handlers := by simp only [Place.guarded, Pending.guarded, around.handlers, Nat.add_assoc] }

end Place.Around

theorem lifts_leave {pending : Pending} {value : Option Node} {span : Span}
    (around : place.Around ctx body pending)
    (inside : Within body pending ⟨.breakLoop value, span⟩) (low : depth ≤ pending.operands + 1) :
    Lifts place (.leave pending.mark) (pending.operands + 1) depth := by
  have known : place.Leaves pending.mark := around.leaves _ ⟨pending, value, span, inside, rfl⟩
  have depths : pending.operands + 1 = place.loop.depth + 1 + pending.sinceLoop := by
    rw [around.operands]
    omega
  unfold Lifts
  rw [around.handlers, depths]
  exact Fragment.Flow.leave place.loop known (depths ▸ low)

theorem splits_codeOfHandlers (handlers : List Handler) (pending : Pending) (discard : Bool)
    (present : handlers ≠ []) :
    Fragment.Splits handlers.length (codeOfHandlers ctx globals handlers pending discard) := by
  induction handlers with
  | nil => exact absurd rfl present
  | cons handler rest ih =>
    obtain ⟨exception, handled⟩ := handler
    cases rest with
    | nil => exact .last _
    | cons next rest =>
      exact .joined (ih (by simp))

theorem lifts_codeOfHandlers {handlers : List Handler} {pending : Pending} (present : handlers ≠ [])
    (emitted : ∀ handler ∈ handlers, ∀ discard,
      Lifts place (codeOf ctx globals handler.body pending discard) depth
        (withValue (leavesValue handler.body discard) depth)) (discard : Bool) :
    Lifts place (codeOfHandlers ctx globals handlers pending discard) depth
      (withValue (!discard) depth) := by
  induction handlers with
  | nil => exact absurd rfl present
  | cons handler rest ih =>
    obtain ⟨exception, handled⟩ := handler
    obtain ⟨first, others⟩ := List.forall_mem_cons.mp emitted
    rw [codeOfHandlers]
    cases rest with
    | nil => exact lifts_armCode first discard
    | cons next rest =>
      exact Fragment.Flow.joined (lifts_armCode first discard) (ih (by simp) others)

section

variable {node : Node} {pending : Pending} {within : Bool} (inside : Within body pending node)
  (smaller : ∀ {place : Place} {part : Node} {inner : Pending}, sizeOf part < sizeOf node →
    Within body inner part → place.Around ctx body inner → ∀ discard,
      Lifts place (codeOf ctx globals part inner discard) inner.operands
        (withValue (leavesValue part discard) inner.operands))

include inside smaller

/-- A step moves the stack as it is made to. -/
theorem lifts_perform {step : Step} (made : step.Of node pending within depth depth')
    (around : place.Around ctx body (pending.inside within)) :
    Lifts place (step.code ctx globals) depth depth' := by
  have ofPart : ∀ {place : Place} {part inner}, Part node pending within inner part →
      place.Around ctx body inner → ∀ discard,
      Lifts place (codeOf ctx globals part inner discard) inner.operands
        (withValue (leavesValue part discard) inner.operands) :=
    fun isPart around => smaller isPart.sizeOf_lt (isPart.isWithin inside) around
  cases step with
  | part part inner discard =>
    obtain ⟨⟨isPart, ⟨count, rfl⟩, rfl⟩, rfl⟩ := made
    exact ofPart isPart (around.below count) discard
  | effect part inner =>
    obtain ⟨⟨isPart, ⟨count, rfl⟩, rfl⟩, rfl⟩ := made
    exact lifts_effectCode (ofPart isPart (around.below count) true)
  | push value => exact lifts_one made.2
  | spelled | space => exact lifts_one made
  | path slots =>
    simp only [Step.code, Step.codeWith, pathCode]
    split <;> exact lifts_one made
  | lookup name =>
    obtain rfl : depth' = depth + 1 := made
    exact lifts_nameCode around.reads name
  | nameExists name =>
    obtain rfl : depth' = depth + 1 := made
    exact lifts_nameExistsCode name
  | frame slots =>
    obtain ⟨rest, rfl, rfl⟩ := made
    exact Fragment.Flow.pair place.loop place.handlers rfl ⟨slots, rfl, rfl, Nat.add_right_comm _ _ _⟩
  | store name keep span =>
    obtain ⟨assigned, rest, rfl, rfl⟩ := made
    exact lifts_storeCode (around.writes _ _ inside name assigned) keep
  | access kind var =>
    refine lifts_one ?_
    cases kind with
    | get => exact ⟨around.reads _, made.2⟩
    | set => exact ⟨around.writes _ _ inside _ made.1, made.2⟩
    | incr => exact ⟨around.writes _ _ inside _ made.1, made.2⟩
  | op opcode operand =>
    refine lifts_one ?_
    cases opcode <;> exact made
  | simple opcode =>
    refine lifts_one ?_
    cases opcode <;> exact made
  | ret operands =>
    obtain ⟨rfl, ⟨result, span, rfl⟩, rfl, rfl, low⟩ := made
    exact Fragment.Flow.finish place.loop place.handlers
      (around.finishes _ (.inr ⟨pending, result, span, inside, rfl⟩)) low
  | refuseConstant =>
    obtain rfl : depth' = depth := made
    exact .empty
  | find | fail =>
    obtain ⟨-, rfl⟩ := made
    exact .empty
  | leave result span inner =>
    obtain ⟨rfl, rfl, rfl, rfl, low⟩ := made
    cases result with
    | some result =>
      have ofResult := ofPart (.outside (.head _) (.head _)) around false
      rw [leavesValue_false] at ofResult
      exact ofResult.append (lifts_leave around inside low)
    | none => exact .append (lifts_one rfl) (lifts_leave around inside low)
  | guard guarded handlers inner discard =>
    obtain ⟨rfl, ⟨span, rfl⟩, rfl, rfl, rfl⟩ := made
    have ofBody := ofPart (.outside (.head _) (.head _)) around.guarded
    cases handlers with
    | nil => exact Fragment.Flow.unhandled (lifts_armCode ofBody discard)
    | cons handler rest =>
      refine Fragment.Flow.handled ?_ ?_ (lifts_armCode ofBody discard)
        (lifts_codeOfHandlers (by simp) (fun handler member =>
          ofPart (.of_handler pending span (List.mem_map_of_mem member)) around.guarded) discard)
      · intro name member depth
        obtain ⟨handler, -, rfl⟩ := List.mem_map.mp member
        rfl
      · rw [List.length_map]
        exact splits_codeOfHandlers _ _ discard (by simp)
  | function id span function discard =>
    obtain ⟨rfl, -, rfl⟩ := made
    exact lifts_functionCode id discard

/-- A plan moves the stack as it is made to. -/
theorem lifts_run {plan : Plan} (made : plan.Made node pending within depth depth')
    (around : place.Around ctx body (pending.inside within)) :
    Lifts place (plan.code ctx globals) depth depth' := by
  induction plan generalizing place within depth depth' with
  | empty =>
    obtain rfl : depth' = depth := made
    exact .empty
  | step step => exact lifts_perform inside smaller made around
  | append first second ofFirst ofSecond =>
    obtain ⟨_, first, second⟩ := made
    exact (ofFirst first around).append (ofSecond second around)
  | collecting value rest ofRest =>
    obtain ⟨gathers, _, rfl, set, rest⟩ := made
    exact Fragment.Flow.couple ⟨rfl, _, rfl, around.writes _ _ inside _ set.1,
      around.gathers _ _ inside _ gathers, rfl⟩ (ofRest rest around)
  | after check rest ofRest => exact ofRest made.2.2 around
  | spaced body ofBody => exact ofBody made around
  | skip op body ofBody =>
    obtain ⟨takes, rfl, inner⟩ := made
    exact Fragment.Flow.skip takes (ofBody inner around)
  | fork op yes no ofYes ofNo =>
    obtain ⟨takes, _, rfl, left, right⟩ := made
    exact Fragment.Flow.fork takes (ofYes left around) (ofNo right around)
  | back op body ofBody =>
    obtain ⟨_, ⟨rfl, rfl, low⟩ | ⟨takes, rfl, rfl⟩, inner⟩ := made
    · exact Fragment.Flow.endless (ofBody inner around) low
    · exact Fragment.Flow.back takes (ofBody inner around)
  | guarded test body ofTest ofBody =>
    exact Fragment.Flow.guarded (ofTest made.1 around) (ofBody made.2 around)
  | entered op body test ofBody ofTest =>
    obtain ⟨_, takes, low, inner, last⟩ := made
    exact Fragment.Flow.entered takes (ofBody inner around) (ofTest last around) low
  | scope body ofBody =>
    obtain ⟨rfl, -, rfl, rfl, inner⟩ := made
    exact Fragment.Flow.scope place.loop (ofBody inner around.insideLoop)

end

/-- The code of a part leads from the depth of its surroundings to the same
depth, or to one value more. -/
theorem lifts_codeOf (globals : Table Symbol Value) (node : Node) {place : Place}
    {pending : Pending} (inside : Within body pending node)
    (around : place.Around ctx body pending) (discard : Bool) :
    Lifts place (codeOf ctx globals node pending discard) pending.operands
      (withValue (leavesValue node discard) pending.operands) := by
  rw [codeOf_eq]
  exact lifts_run inside (fun _ => lifts_codeOf globals _) (made_planOf node pending discard) around
termination_by sizeOf node

/-- The code of a function body leads from the empty stack to one value. -/
theorem flow_body (ctx : Context) (globals : Table Symbol Value) (body : Node) :
    (codeOf ctx globals body {} false).Flow
      (Primitive.rules (.frame (variableCount ctx)) (BreakMark body) (ReturnDepth body)) ⟨0, 0⟩
      ⟨0, 0⟩ ⟨1, 0⟩ := by
  let place : Place := ⟨.frame (variableCount ctx), BreakMark body, ReturnDepth body, ⟨0, 0⟩, 0⟩
  have around : place.Around ctx body {} :=
    ⟨held_slotIn ctx, fun _ _ _ name _ => held_slotIn ctx name, fun _ _ _ _ _ => trivial,
      fun _ known => known, fun _ known => known, rfl, rfl⟩
  have lifts := lifts_codeOf globals body .whole around false
  rw [leavesValue_false] at lifts
  exact lifts

/-- The variables that the parts of a node assign to, and those in which they
collect results. -/
def accessOf (ctx : Context) (node : Node) : Access where
  Reads _ := True
  Writes slot := ∃ pending part, Within node pending part ∧
    ∃ name ∈ assignedNames part.expr, slot = slotIn ctx name
  Gathers slot := ∃ pending part, Within node pending part ∧
    ∃ value, part.expr.gathers? = some value ∧ slot = hiddenSlot ctx [value] "result"

/-- The code of a node by itself uses variables only as its parts do. -/
theorem flow_alone (ctx : Context) (globals : Table Symbol Value) (node : Node) (discard : Bool) :
    (codeOf ctx globals node {} discard).Flow
      (Primitive.rules (accessOf ctx node) (fun _ => True) fun _ => True) ⟨0, 0⟩ ⟨0, 0⟩
      ⟨withValue (leavesValue node discard) 0, 0⟩ :=
  let place : Place := ⟨accessOf ctx node, fun _ => True, fun _ => True, ⟨0, 0⟩, 0⟩
  have around : place.Around ctx node {} :=
    { reads := fun _ => trivial
      writes := fun inner part within name member => ⟨inner, part, within, name, member, rfl⟩
      gathers := fun inner part within value found => ⟨inner, part, within, value, found, rfl⟩
      leaves := fun _ _ => trivial
      finishes := fun _ _ => trivial
      operands := rfl
      handlers := rfl }
  lifts_codeOf globals node .whole around discard

end NewtonScript.Emission
