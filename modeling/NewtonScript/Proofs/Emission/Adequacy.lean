import NewtonScript.Proofs.Emission.Forms
import NewtonScript.Proofs.Emission.Script

/-!
# Emission is adequate

The code that is emitted for a tree is the structured code of the tree, laid
out where emission began.  This is shown for every step of the plan of a node,
for the plan, and for every part of a tree, by induction on the part.
-/

namespace NewtonScript

namespace Emission

open Bytecode

/-- What is known about a tree before it is emitted: its literals and its
function literals. -/
structure Setting.Covers (setting : Setting) (tree : Node) : Prop where
  literal : ∀ value span, tree.Occurs ⟨.literal value, span⟩ → setting.Known value
  function : ∀ id params body native name span,
    tree.Occurs ⟨.func id params body native name, span⟩ → setting.Literal id body

variable {setting : Setting} {tree : Node}

/-- The emission of a node yields its code, in whichever function. -/
def Setting.Emits (setting : Setting) (node : Node) : Prop :=
  ∀ (id : ScopeId) (pending : Pending) (discard : Bool),
    Yields setting (setting.ctx id) (emit node discard) (leavesValue node discard)
      (codeOf (setting.ctx id) setting.globals node pending discard)

theorem yields_emitHandlers (id : ScopeId) :
    (handlers : List Handler) → (∀ handler ∈ handlers, setting.Emits handler.body) →
      (pending : Pending) → (discard : Bool) →
      ∀ ⦃state final labels ends⦄, Store.Harmless setting.Known setting.origin state.store →
        labels.length = handlers.length →
        emitHandlers handlers labels discard (setting.ctx id) state = .ok ends final →
        GrowsHandlers setting (setting.ctx id) state final labels ends handlers.length
          (codeOfHandlers (setting.ctx id) setting.globals handlers pending discard)
  | [], _, _, _ => by
    intro state final labels ends ready length run
    obtain ⟨rfl, rfl⟩ := pure_eq_ok_iff.mp run
    rw [List.eq_nil_of_length_eq_zero length]
    exact growsHandlers_none
  | [⟨_, body⟩], emits, pending, discard => by
    have ofBody := yields_arm discard (emits _ List.mem_cons_self id pending)
    intro state final labels ends ready length run
    obtain ⟨label, labels', rfl⟩ := List.exists_cons_of_length_eq_add_one length
    have alone : labels' = [] := List.eq_nil_of_length_eq_zero (Nat.succ.inj length)
    obtain ⟨_, first, patched, run⟩ := bind_eq_ok run
    obtain ⟨_, middle, emitted, run⟩ := bind_eq_ok run
    obtain ⟨rfl, rfl⟩ := pure_eq_ok_iff.mp run
    obtain ⟨-, -, -, same⟩ := patchAddressHere_eq_ok patched
    obtain ⟨-, grows⟩ := ofBody (same.store ▸ ready) emitted
    rw [alone]
    exact growsHandlers_one patched grows
  | ⟨_, body⟩ :: next :: rest, emits, pending, discard => by
    have ofBody := yields_arm discard (emits _ List.mem_cons_self id pending)
    have ofRest := yields_emitHandlers id (next :: rest)
      (fun other member => emits other (List.mem_cons_of_mem _ member)) pending discard
    intro state final labels ends ready length run
    obtain ⟨label, labels', rfl⟩ := List.exists_cons_of_length_eq_add_one length
    obtain ⟨_, first, patched, run⟩ := bind_eq_ok run
    obtain ⟨_, second, emitted, run⟩ := bind_eq_ok run
    obtain ⟨toEnd, third, reserved, run⟩ := bind_eq_ok run
    obtain ⟨others, fourth, emitted', run⟩ := bind_eq_ok run
    obtain ⟨rfl, rfl⟩ := pure_eq_ok_iff.mp run
    obtain ⟨-, -, -, same⟩ := patchAddressHere_eq_ok patched
    have ready₁ := same.store ▸ ready
    obtain ⟨-, grows⟩ := ofBody ready₁ emitted
    obtain ⟨keeps, -⟩ := (Grown.refl setting second).reserve reserved
    have rest := ofRest (ready₁.trans (grows.keeps.trans keeps).store) (Nat.succ.inj length) emitted'
    exact growsHandlers_cons patched grows reserved rest

section

variable {node : Node} (covers : setting.Covers tree) (occurs : tree.Occurs node)
  (smaller : ∀ inner, sizeOf inner < sizeOf node → tree.Occurs inner → setting.Emits inner)

include covers occurs smaller

/-- A step of the plan of a node yields its code. -/
theorem yields_perform {pending : Pending} {within : Bool} {step : Step} {depth depth' : Nat}
    (made : step.Of node pending within depth depth') (id : ScopeId) (object : ObjectId) :
    Yields setting (setting.ctx id) (step.perform (.string object " ")) ()
      (step.code (setting.ctx id) setting.globals) := by
  have ofPart : ∀ {around part}, Part node pending within around part → setting.Emits part :=
    fun isPart => smaller _ isPart.sizeOf_lt (isPart.occurs occurs)
  cases step with
  | part inner around discard => exact (ofPart made.1.isPart id around discard).bind_pure rfl
  | effect inner around => exact yields_effect (ofPart made.1.isPart id around true)
  | push value =>
    have known : setting.Known value := by
      rcases made.1 with plain | ⟨span, rfl⟩
      · exact setting.known_own value plain
      · exact covers.literal value span occurs
    exact yields_pushValue known
  | spelled spelling => exact yields_pushSpelling spelling
  | space => exact yields_pushText object " "
  | path slots => exact yields_pushPath slots
  | frame slots => exact (yields_pushMap slots).seq (yields_op .makeFrame slots.length)
  | lookup name => exact yields_pushVariable id name
  | store name keep span => exact yields_storeVariable name keep span
  | nameExists name => exact yields_pushExists name
  | access kind var => exact yields_access kind var
  | op opcode operand => exact yields_op opcode operand
  | simple opcode => exact yields_simple opcode
  | ret operands => exact yields_ret operands
  | refuseConstant name span => exact yields_refuseConstant name span
  | find vars span => exact yields_of_asks (asks_find vars span)
  | fail failure => exact yields_throw
  | leave result span around =>
    obtain ⟨rfl, rfl, rfl, -⟩ := made
    cases result with
    | some result =>
      have ofResult := ofPart (.outside (.head _) (.head _)) id around false
      exact yields_leave (yields_value ofResult) span around.mark
    | none => exact yields_leave yields_pushNil span around.mark
  | guard body handlers around discard =>
    obtain ⟨rfl, ⟨span, rfl⟩, rfl, -⟩ := made
    have ofHandler : ∀ handler ∈ handlers, setting.Emits handler.body := fun handler member =>
      ofPart (.of_handler pending span (List.mem_map_of_mem member))
    exact yields_tryCatch (yields_arm discard (ofPart (.outside (.head _) (.head _)) id _))
      (yields_emitHandlers id handlers ofHandler _ discard)
  | function function span body discard =>
    obtain ⟨rfl, ⟨params, native, name, rfl⟩, -⟩ := made
    have ofBody : setting.Emits body :=
      smaller body (by simp only [Node.mk.sizeOf_spec, Expr.func.sizeOf_spec]; omega) occurs.body
    exact (yields_functionLiteral (covers.function _ _ _ _ _ _ occurs) span discard
      fun inner => yields_value (ofBody inner {} false)).bind_pure rfl

/-- What follows the plan of a node yields the code of the plan. -/
theorem yields_run {pending : Pending} {within : Bool} {plan : Plan} {depth depth' : Nat}
    (made : plan.Made node pending within depth depth') (id : ScopeId) (object : ObjectId) :
    Yields setting (setting.ctx id) (plan.run (.string object " ")) ()
      (plan.code (setting.ctx id) setting.globals) := by
  have ofStep := @yields_perform setting tree node covers occurs smaller
  induction plan generalizing within depth depth' object with
  | empty => exact yields_pure ()
  | step step => exact ofStep made id object
  | append first second ofFirst ofSecond =>
    obtain ⟨_, first, second⟩ := made
    exact (ofFirst first object).seq (ofSecond second object)
  | collecting value rest ofRest =>
    obtain ⟨-, _, -, -, made⟩ := made
    exact (yields_op _ _).seq ((yields_access _ _).seq (ofRest made object))
  | after check rest ofRest =>
    obtain ⟨silent, checked, made⟩ := made
    have nothing : check.code (setting.ctx id) setting.globals = .empty := by
      cases check <;> first | rfl | cases silent
    exact (nothing ▸ ofStep checked id object).bind_left (ofRest made object)
  | spaced body ofBody =>
    refine Yields.after_store (fun space => ∃ object, space = .string object " ")
      (Store.harmless_makeString setting.Known " ") (fun store => ⟨_, rfl⟩) ?_
    rintro _ ⟨object, rfl⟩
    exact ofBody made object
  | skip opcode body ofBody => exact yields_skip opcode (ofBody made.2.2 object)
  | fork opcode yes no ofYes ofNo =>
    obtain ⟨-, _, -, left, right⟩ := made
    exact yields_fork opcode (ofYes left object) (ofNo right object)
  | back opcode body ofBody =>
    obtain ⟨_, -, inner⟩ := made
    exact yields_back opcode (ofBody inner object)
  | guarded test body ofTest ofBody =>
    exact yields_guarded (ofTest made.1 object) (ofBody made.2 object)
  | entered opcode body test ofBody ofTest =>
    obtain ⟨_, -, -, inner, last⟩ := made
    exact yields_entered opcode (ofBody inner object) (ofTest last object)
  | scope body ofBody => exact yields_scope (ofBody made.2.2.2.2 object)

end

/-- The emission of a part of a tree yields the code of the part. -/
theorem yields_emit (covers : setting.Covers tree) (node : Node) (occurs : tree.Occurs node) :
    setting.Emits node := by
  intro id pending discard
  rw [emit_eq node pending discard (.string 0 " "), codeOf_eq]
  refine (yields_run covers occurs ?_ (made_planOf node pending discard) id 0).bind_pure rfl
  exact fun inner _ occurs => yields_emit covers inner occurs
termination_by sizeOf node

/-- The block of a tree is the code of the tree, laid out from position zero
on, and so on for the blocks among its literals. -/
theorem ofTree_eq_ok {bag bag' : DiagnosticBag} {store : Store} {block : CodeBlock}
    (covers : setting.Covers tree)
    (run : CodeBlock.ofTree tree setting.scopes setting.options setting.origin bag =
      (.ok block, store, bag')) :
    Store.Harmless setting.Known setting.origin store ∧
      ∃ pool final code, Sealed setting Scopes.root tree block pool final code ∧
        ∀ value ∈ pool.values.toList, setting.Origin final value := by
  simp only [CodeBlock.ofTree] at run
  split at run
  · rename_i made state emitted
    obtain ⟨rfl, rfl, rfl⟩ := run
    have yields := yields_value (yields_emit covers tree .whole Scopes.root {} false)
    obtain ⟨only, sealed⟩ := functionBlock_eq_ok yields (.refl _ _) emitted
    exact ⟨only.store, sealed⟩
  · simp at run

end Emission

end NewtonScript
