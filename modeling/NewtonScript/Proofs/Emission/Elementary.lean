import NewtonScript.Proofs.Emission.Run
import NewtonScript.Proofs.Emission.Store
import NewtonScript.Proofs.Token.Faults

/-!
# Elementary steps of emission

Most of emission is made of steps that neither begin nor end a loop, look at
no part of the tree, and fail only where the program asks for something that
does not fit.  Such a step changes the store harmlessly, failed or not.
-/

namespace NewtonScript

/-- Whether a fault is an ordinary one or tells that a variable has no slot. -/
def Fault.Slotless (fault : Fault) : Prop :=
  fault.Ordinary ∨ ∃ name, fault = .notLocal name

namespace Emission

open Bytecode

/-- An action changes the store harmlessly, failed or not. -/
def Safe (known : Value → Prop) {α : Type} (action : EmitM α) : Prop :=
  ∀ origin ctx,
    Preserves (fun state : State => Store.Harmless known origin state.store) (action ctx)

theorem Safe.bind {known : Value → Prop} {α β : Type} {action : EmitM α} {next : α → EmitM β}
    (first : Safe known action) (second : ∀ value, Safe known (next value)) :
    Safe known (action >>= next) :=
  fun origin ctx => (first origin ctx).seq fun value => second value origin ctx

theorem safe_pure {known : Value → Prop} {α : Type} (value : α) :
    Safe known (pure value : EmitM α) :=
  fun _ _ => ensures_pure trivial

/-- An action that is safe for the store, leaves the open loops and all code
that is there, and fails only with certain faults. -/
structure Elementary (faults : Fault → Prop) {α : Type} (action : EmitM α) : Prop where
  safe : ∀ known, Safe known action
  fault : ∀ ctx state failure final, action ctx state = .error failure final →
    faults failure.fault
  kept : ∀ ctx state value final, action ctx state = .ok value final →
    final.function.loops = state.function.loops ∧ state.size ≤ final.size

section

variable {faults : Fault → Prop} {α β : Type}

theorem Elementary.bind {action : EmitM α} {next : α → EmitM β} (first : Elementary faults action)
    (second : ∀ value, Elementary faults (next value)) : Elementary faults (action >>= next) where
  safe known := (first.safe known).bind fun value => (second value).safe known
  fault ctx state failure final run := by
    rcases run_bind_eq_error run with early | ⟨value, middle, -, late⟩
    · exact first.fault ctx state failure final early
    · exact (second value).fault ctx middle failure final late
  kept ctx state value final run := by
    obtain ⟨found, middle, early, late⟩ := run_bind_eq_ok run
    obtain ⟨loops, size⟩ := first.kept ctx state found middle early
    obtain ⟨loops', size'⟩ := (second found).kept ctx middle value final late
    exact ⟨loops'.trans loops, Nat.le_trans size size'⟩

/-- An action that always succeeds, with a known end. -/
theorem Elementary.of_run {action : EmitM α} (result : Context → State → α)
    (end_ : Context → State → State)
    (run : ∀ ctx state, action ctx state = .ok (result ctx state) (end_ ctx state))
    (safe : ∀ known ctx state, Store.Harmless known state.store (end_ ctx state).store)
    (kept : ∀ ctx state, (end_ ctx state).function.loops = state.function.loops ∧
      state.size ≤ (end_ ctx state).size) :
    Elementary faults action where
  safe known origin ctx state holds := by
    rw [run]
    exact ⟨holds.trans (safe known ctx state), trivial⟩
  fault ctx state failure final ran := by
    rw [run] at ran
    cases ran
  kept ctx state value final ran := by
    rw [run] at ran
    cases ran
    exact kept ctx state

theorem elementary_pure (value : α) : Elementary faults (pure value : EmitM α) :=
  .of_run (fun _ _ => value) (fun _ state => state) (fun _ _ => rfl)
    (fun known _ _ => .refl known _) fun _ _ => ⟨rfl, Nat.le_refl _⟩

theorem elementary_throw {failure : Failure} (known : faults failure.fault) :
    Elementary faults (throw failure : EmitM α) where
  safe _ _ _ := ensures_throw trivial
  fault := by
    rintro ctx state _ _ ⟨⟩
    exact known
  kept := by
    rintro ctx state _ _ ⟨⟩

theorem elementary_read : Elementary faults (read : EmitM Context) :=
  .of_run (fun ctx _ => ctx) (fun _ state => state) (fun _ _ => rfl)
    (fun known _ _ => .refl known _) fun _ _ => ⟨rfl, Nat.le_refl _⟩

theorem elementary_get : Elementary faults (get : EmitM State) :=
  .of_run (fun _ state => state) (fun _ state => state) (fun _ _ => rfl)
    (fun known _ _ => .refl known _) fun _ _ => ⟨rfl, Nat.le_refl _⟩

theorem Elementary.bind_pure {action : EmitM α} (first : Elementary faults action)
    (result : α → β) : Elementary faults (action >>= fun value => pure (result value)) :=
  first.bind fun value => elementary_pure (result value)

theorem elementary_modifyFunction {change : FunctionCode → FunctionCode}
    (kept : ∀ function : FunctionCode, (change function).loops = function.loops ∧
      function.code.size ≤ (change function).code.size) :
    Elementary faults (modifyFunction change) :=
  .of_run (fun _ _ => ()) (fun _ state => { state with function := change state.function })
    (fun _ _ => rfl) (fun known _ _ => .refl known _) fun _ _ => kept _

theorem elementary_withStore {action : Store → α × Store}
    (harmless : ∀ known store, Store.Harmless known store (action store).2) :
    Elementary faults (withStore action) :=
  .of_run (fun _ state => (action state.store).1)
    (fun _ state => { state with store := (action state.store).2 }) (fun _ _ => rfl)
    (fun known _ state => harmless known state.store) fun _ _ => ⟨rfl, Nat.le_refl _⟩

theorem elementary_intern (spelling : String) :
    Elementary faults (withStore (Store.intern spelling)) :=
  elementary_withStore fun known => Store.harmless_intern known spelling

theorem elementary_report (diagnostic : Diagnostic) : Elementary faults (report diagnostic) :=
  .of_run (fun _ _ => ()) (fun _ state => { state with bag := state.bag.report diagnostic })
    (fun _ _ => rfl) (fun known _ _ => .refl known _) fun _ _ => ⟨rfl, Nat.le_refl _⟩

end

/-- An elementary action that fails only with ordinary faults. -/
abbrev Routine {α : Type} (action : EmitM α) : Prop :=
  Elementary Fault.Ordinary action

/-! ## Instructions -/

theorem elementary_operand16 (opcode : Opcode) (operand : Nat) :
    Routine (operand16 opcode operand) := by
  unfold operand16
  cases Buffer.operand16 opcode operand with
  | ok word => exact elementary_pure word
  | error problem => exact elementary_read.bind fun _ => elementary_throw trivial

theorem elementary_push (instr : Instruction) : Routine (push instr) :=
  elementary_modifyFunction fun _ => ⟨rfl, Nat.le_add_right _ _⟩

theorem elementary_op (opcode : Opcode) (operand : Nat) : Routine (op opcode operand) :=
  (elementary_operand16 opcode operand).bind fun _ => elementary_push _

theorem elementary_simple (operation : SimpleOp) : Routine (simple operation) :=
  elementary_push _

theorem elementary_here : Routine here :=
  elementary_get.bind_pure _

theorem elementary_reserve (opcode : Opcode) : Routine (reserve opcode) :=
  elementary_get.bind fun _ => (elementary_push _).bind_pure _

theorem elementary_patch (label : Label) (operand : Nat) : Routine (patch label operand) :=
  elementary_get.bind fun _ => (elementary_operand16 _ operand).bind fun _ =>
    elementary_modifyFunction fun _ => ⟨rfl, Nat.le_refl _⟩

theorem elementary_patchHere (label : Label) : Routine (patchHere label) :=
  elementary_here.bind fun position => elementary_patch label position

theorem elementary_patchAllHere (labels : List Label) : Routine (patchAllHere labels) := by
  induction labels with
  | nil => exact elementary_pure ()
  | cons label rest ih =>
    exact (elementary_patchHere label).bind fun _ => ih

theorem elementary_patchAddressHere (label : Label) : Routine (patchAddressHere label) := by
  refine elementary_here.bind fun address => ?_
  by_cases near : address ≤ maxHandlerAddress
  · rw [if_pos near]
    exact elementary_patch label _
  · rw [if_neg near]
    exact elementary_read.bind fun _ => elementary_throw trivial

/-! ## Values and variables -/

theorem elementary_literalIndex (value : Value) : Routine (literalIndex value) :=
  .of_run (fun _ state => (state.function.literals.add value).1)
    (fun _ state => { state with
      function := { state.function with literals := (state.function.literals.add value).2 } })
    (fun _ _ => rfl) (fun known _ _ => .refl known _) fun _ _ => ⟨rfl, Nat.le_refl _⟩

theorem elementary_pushLiteral (value : Value) : Routine (pushLiteral value) :=
  (elementary_literalIndex value).bind fun index => elementary_op .push index

theorem elementary_pushValue (value : Value) : Routine (pushValue value) := by
  unfold pushValue
  cases Immediate.ofValue? value with
  | some word => exact elementary_op .pushConstant word.toNat
  | none => exact elementary_pushLiteral value

theorem elementary_pushNil : Routine pushNil :=
  elementary_pushValue .nil

theorem elementary_pushSymbol (name : Symbol) : Routine (pushSymbol name) :=
  elementary_pushLiteral _

theorem elementary_pushSpelling (spelling : String) : Routine (pushSpelling spelling) :=
  (elementary_intern spelling).bind elementary_pushSymbol

theorem elementary_callGlobal (spelling : String) (count : Nat) :
    Routine (callGlobal spelling count) :=
  (elementary_pushSpelling spelling).bind fun _ => elementary_op .call count

theorem elementary_resolve (name : Symbol) : Routine (resolve name) := by
  refine elementary_read.bind fun ctx => ?_
  split
  · refine elementary_get.bind fun state => ?_
    cases state.store.constant? name with
    | some value => exact elementary_pure _
    | none => exact elementary_pure _
  · exact elementary_pure _

theorem elementary_getVar (slot : Nat) : Routine (getVar slot) :=
  elementary_read.bind fun _ => elementary_op .getVar _

theorem elementary_setVar (slot : Nat) : Routine (setVar slot) :=
  elementary_read.bind fun _ => elementary_op .setVar _

theorem elementary_incrVar (slot : Nat) : Routine (incrVar slot) :=
  elementary_read.bind fun _ => elementary_op .incrVar _

theorem elementary_lookup (opcode : Opcode) (name : Symbol) :
    Routine (literalIndex (.symbol name) >>= op opcode) :=
  (elementary_literalIndex _).bind (elementary_op opcode)

theorem elementary_pushVariable (name : Symbol) : Routine (pushVariable name) := by
  refine (elementary_resolve name).bind fun found => ?_
  cases found with
  | slot slot => exact elementary_getVar slot
  | constant value => exact elementary_pushValue value
  | outer => exact elementary_lookup .findVar name
  | environment => exact elementary_lookup .findVar name

theorem elementary_refuseConstant (name : Symbol) (span : Span) :
    Routine (refuseConstant name span) := by
  refine (elementary_resolve name).bind fun found => ?_
  cases found with
  | constant value => exact elementary_throw trivial
  | _ => exact elementary_pure ()

theorem elementary_duplicateIf (keep : Bool) : Routine (duplicateIf keep) := by
  cases keep with
  | true => exact elementary_simple .dup
  | false => exact elementary_pure ()

theorem elementary_storeVariable (name : Symbol) (keep : Bool) (span : Span) :
    Routine (storeVariable name keep span) := by
  refine (elementary_resolve name).bind fun found => ?_
  cases found with
  | constant value => exact elementary_throw trivial
  | slot slot => exact (elementary_duplicateIf keep).bind fun _ => elementary_setVar slot
  | outer => exact (elementary_duplicateIf keep).bind fun _ => elementary_lookup .findAndSetVar name
  | environment => exact (elementary_duplicateIf keep).bind fun _ => elementary_lookup .findAndSetVar name

theorem elementary_pushExists (name : Symbol) : Routine (pushExists name) := by
  refine (elementary_resolve name).bind fun found => ?_
  cases found with
  | environment => exact (elementary_pushSymbol name).bind fun _ => elementary_callGlobal "HasVar" 1
  | _ => exact elementary_pushValue .truth

theorem elementary_pushPath (slots : List Symbol) : Routine (pushPath slots) := by
  unfold pushPath
  split
  · exact elementary_pushSymbol _
  · refine (elementary_intern "pathExpr").bind fun className => ?_
    exact (elementary_withStore fun known => Store.harmless_makeArray known className _).bind elementary_pushLiteral

/-! ## Forms -/

theorem elementary_handlerTable (handlers : List Handler) : Routine (handlerTable handlers) := by
  induction handlers with
  | nil => exact elementary_pure _
  | cons handler rest ih =>
    exact (elementary_pushSymbol _).bind fun _ => (elementary_reserve .pushConstant).bind fun _ =>
      ih.bind_pure _

/-! ## Blocks -/

theorem elementary_internAll (spellings : List String) : Routine (internAll spellings) := by
  induction spellings with
  | nil => exact elementary_pure _
  | cons spelling rest ih =>
    exact (elementary_intern spelling).bind fun _ => ih.bind_pure _

theorem elementary_frameTemplate (scope : Scope) : Routine (frameTemplate scope) :=
  (elementary_internAll frameHeader).bind fun _ =>
    (elementary_withStore fun known => Store.harmless_sharedMap known _).bind fun map =>
      elementary_withStore fun known => Store.harmless_makeFrameOver known map _

theorem elementary_frameTemplate? (scope : Scope) : Routine (frameTemplate? scope) := by
  refine elementary_read.bind fun ctx => ?_
  cases ctx.layout.hasFrame with
  | true => exact (elementary_frameTemplate scope).bind_pure _
  | false => exact elementary_pure none

theorem elementary_sealCode (function : FunctionCode) : Routine (sealCode function) := by
  refine elementary_read.bind fun ctx => ?_
  have built : Routine (frameTemplate? (ctx.scopes.get ctx.scope)) := elementary_frameTemplate? _
  by_cases large : maxCodeSize < function.code.size
  · simp only [if_pos large]
    exact (elementary_throw trivial).bind fun _ => built.bind_pure _
  · simp only [if_neg large]
    exact built.bind_pure _

/-- A block that was made is pushed. -/
theorem elementary_pushBlock (block : CodeBlock) : Routine (do
      let value ← withStore (Store.makeBlock block)
      pushLiteral value
      if block.argFrame.isSome then
        simple .setLexScope
      return true) := by
  refine (elementary_withStore fun known => Store.harmless_makeBlock known block).bind fun value => ?_
  refine (elementary_pushLiteral value).bind fun _ => ?_
  cases block.argFrame.isSome with
  | true => exact (elementary_simple .setLexScope).bind_pure _
  | false => exact elementary_pure true

/-! ## Slots -/

theorem elementary_localSlot (name : Symbol) (span : Span) : Elementary Fault.Slotless (localSlot name span) := by
  refine elementary_read.bind fun ctx => ?_
  cases (ctx.scopes.get ctx.scope).slotOf? name with
  | some slot => exact elementary_pure slot
  | none => exact elementary_throw (.inr ⟨name, rfl⟩)

end Emission

end NewtonScript
