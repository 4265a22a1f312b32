import NewtonScript.Proofs.Emission.Literals
import NewtonScript.Proofs.Scope.Numbering

/-!
# The hidden variables of loops

The code of a part of a function writes the variables that the part assigns to
and no others.  The hidden variables of a loop are variables like others, told
apart by their names alone.  So its body leaves them alone exactly as far as it
does not assign to their names: by an assignment, by a declaration, or by a
loop one of whose own variables has such a name.
-/

namespace NewtonScript

open Bytecode

/-- The operation of the instruction that a primitive is turned into, unless
that pushes an immediate. -/
def Primitive.opcode : Primitive → Opcode
  | value _ | text _ | path _ | map _ | function _ => .push
  | lookup _ => .findVar
  | assign _ => .findAndSetVar
  | getVar _ => .getVar
  | setVar _ => .setVar
  | incrVar _ => .incrVar
  | op opcode _ => opcode
  | simple _ => .simple

section

variable {primitive : Primitive} {instr : Instruction} {layout : FrameLayout}
  {pool : List Value} {maps : List FrameMap}

theorem Primitive.Realized.op_eq (realized : primitive.Realized layout pool maps instr) :
    instr.op = primitive.opcode ∨ instr.op = .pushConstant := by
  have literal {op : Opcode} {property : Value → Prop}
      (found : LiteralAt pool op property instr) : instr.op = op := by
    obtain ⟨_, _, -, -, -, rfl⟩ := found
    rfl
  cases primitive with
  | value =>
    simp only [Realized] at realized
    split at realized
    · exact .inr (congrArg Instruction.op realized)
    · exact .inl (literal realized)
  | text | path | map | function | lookup | assign => exact .inl (literal realized)
  | getVar | setVar | incrVar | op => exact .inl (congrArg Instruction.op realized.2)
  | simple => exact .inl (congrArg Instruction.op realized)

/-- A primitive that writes a variable may do so. -/
theorem Primitive.writes_of_allows {access : Access} {leaves : Mark → Prop}
    {finishes : Nat → Prop} (allows : (Primitive.rules access leaves finishes).Allows primitive)
    (writes : primitive.opcode = .setVar ∨ primitive.opcode = .incrVar) :
    ∃ slot, access.Writes slot ∧ (primitive = .setVar slot ∨ primitive = .incrVar slot) := by
  obtain ⟨depth, depth', moves | ⟨other, ⟨_, rfl, rfl, -⟩ | ⟨rfl, -⟩ | ⟨rfl, slot, rfl, may, -⟩⟩⟩ :=
    allows
  · cases primitive with
    | setVar slot => exact ⟨slot, moves.1, .inl rfl⟩
    | incrVar slot => exact ⟨slot, moves.1, .inr rfl⟩
    | op opcode operand => rcases writes with rfl | rfl <;> exact moves.elim
    | _ => rcases writes with writes | writes <;> cases writes
  · rcases writes with writes | writes <;> cases writes
  · rcases writes with writes | writes <;> cases writes
  · exact ⟨slot, may, .inl rfl⟩

end

namespace Emission

/-- A variable that an operand numbers has a slot. -/
theorem slotOf?_of_small {ctx : Context} {layout : FrameLayout} {name : Symbol}
    (small : layout.varIndex (slotIn ctx name) < 65536) :
    (ctx.scopes.get ctx.scope).slotOf? name = some (slotIn ctx name) := by
  rw [FrameLayout.varIndex, slotIn] at small
  rw [slotIn]
  cases found : (ctx.scopes.get ctx.scope).slotOf? name with
  | some slot => rfl
  | none =>
    rw [found, Option.getD_none] at small
    omega

/-- The instructions that are emitted for a node write only variables that
parts of the node assign to. -/
theorem writesOnly_of_emit {scopes : Scopes} {options : Options} {id : ScopeId} {node : Node}
    {discard leaves : Bool} {state final : State}
    (run : emit node discard (.ofScope scopes options id) state = .ok leaves final) :
    ∃ emitted, final.code = state.code ++ emitted ∧ ∀ instr ∈ emitted,
      instr.op = .setVar ∨ instr.op = .incrVar →
        ∃ pending part, Within node pending part ∧ ∃ name ∈ assignedNames part.expr,
          ∃ slot, (scopes.get id).slotOf? name = some slot ∧ instr.operand.toNat =
            (Context.ofScope scopes options id).layout.varIndex slot := by
  obtain ⟨-, fragment, related, grown⟩ :=
    yields_emit_ofStore scopes options state.store node id {} discard (.refl _ _) run
  refine ⟨_, grown.code, List.forall_mem_map.mpr fun cell member writes => ?_⟩
  have filled := (flow_alone (.ofScope scopes options id) _ node discard).fills related state.size
  obtain ⟨entry, -, fills⟩ := Fragment.exists_related filled member
  cases entry with
  | none =>
    have added : cell.instr.op.isStructure = true := fills
    rcases writes with writes | writes <;> rw [writes] at added <;> cases added
  | some primitive =>
    obtain ⟨allows, instr, rfl, realized⟩ := fills
    have written : primitive.opcode = .setVar ∨ primitive.opcode = .incrVar := by
      rcases realized.op_eq with equal | equal
      · exact equal ▸ writes
      · rcases writes with writes | writes <;> cases equal.symm.trans writes
    obtain ⟨_, ⟨pending, part, within, name, assigned, rfl⟩, rfl | rfl⟩ :=
      Primitive.writes_of_allows allows written
    all_goals
      obtain ⟨small, rfl⟩ := realized
      exact ⟨pending, part, within, name, assigned, _, slotOf?_of_small small, toNat_toUInt16 small⟩

end Emission

open Emission Declaration

/-- The hidden variables of a loop. -/
def Expr.hiddenVariables : Expr → List Symbol
  | .forLoop var .. => (Act.counting var).hidden
  | .foreachLoop key value _ _ collect _ => (Act.iterating key value collect).hidden
  | _ => []

theorem Expr.mem_loopVariables_of_hidden {expr : Expr} {name : Symbol}
    (hidden : name ∈ expr.hiddenVariables) : name ∈ expr.loopVariables := by
  cases expr with
  | forLoop var => exact List.mem_cons_of_mem _ hidden
  | foreachLoop key value deeply collection collect body =>
    rw [loopVariables, List.append_assoc]
    exact List.mem_append_right _ hidden
  | _ => cases hidden

theorem Scope.eq_of_slotOf? {scope : Scope} {name other : Symbol} {slot : Nat}
    (found : scope.slotOf? name = some slot) (found' : scope.slotOf? other = some slot) :
    (name == other) = true := by
  obtain ⟨inside, same, -⟩ := List.findIdx?_eq_some_iff_getElem.mp found
  obtain ⟨_, same', -⟩ := List.findIdx?_eq_some_iff_getElem.mp found'
  exact BEq.trans (BEq.symm same) same'

/-- The hidden variables of a loop have slots in its function.  What is emitted
in this function, the body of the loop in particular, writes such a slot only
for a part that assigns to the name of the hidden variable. -/
theorem Scopes.hidden_of_emit {tree : Node} (distinct : tree.functionIds.Nodup)
    {declared scopes : Scopes} {store store' : Store} {bag bag' : DiagnosticBag}
    (collected : Scopes.ofTree tree store bag = (.ok declared, store', bag'))
    (referred : declared.withReferences tree = .ok scopes) {id : ScopeId} {loop : Node}
    (site : scopes.Site tree Scopes.root id loop) {hidden : Symbol}
    (isHidden : hidden ∈ loop.expr.hiddenVariables) {node : Node} {options : Options}
    {discard leaves : Bool} {state final : Emission.State}
    (run : emit node discard (.ofScope scopes options id) state = .ok leaves final) :
    ∃ slot emitted, (scopes.get id).slotOf? hidden = some slot ∧
      final.code = state.code ++ emitted ∧ ∀ instr ∈ emitted,
        instr.op = .setVar ∨ instr.op = .incrVar →
          instr.operand.toNat = (Context.ofScope scopes options id).layout.varIndex slot →
            ∃ pending part, Within node pending part ∧
              ∃ name ∈ assignedNames part.expr, (name == hidden) = true := by
  have same := sameNames_withReferences referred
  have owned : (scopes.get id).owns hidden = true := by
    rw [same.owns]
    exact (agrees_ofTree distinct collected).loops id loop (site.of_sameNames same) hidden
      (Expr.mem_loopVariables_of_hidden isHidden)
  obtain ⟨slot, found⟩ := Option.isSome_iff_exists.mp (Scope.isSome_slotOf? owned)
  obtain ⟨emitted, code, writesOnly⟩ := writesOnly_of_emit run
  refine ⟨slot, emitted, found, code, fun instr member writes operand => ?_⟩
  obtain ⟨pending, part, within, name, assigned, slot', found', equal⟩ :=
    writesOnly instr member writes
  refine ⟨pending, part, within, name, assigned, Scope.eq_of_slotOf? found' ?_⟩
  rw [found, Nat.add_left_cancel (operand.symm.trans equal)]

/-- A counting loop over `i` with a body. -/
def loopOver (body : Node) : Node :=
  let number (value : Int) : Node := ⟨.literal (.int value), Span.none⟩
  ⟨.forLoop (.ofString "i") (number 1) (number 3) none body, Span.none⟩

/-- The limit of the loop. -/
def limitName : Symbol := .ofString (hiddenSpelling [.ofString "i"] "limit")

/-- An assignment to the limit by its name. -/
def assignLimit : Node :=
  ⟨.assign ⟨.name limitName, Span.none⟩ ⟨.literal (.int 9), Span.none⟩, Span.none⟩

/-- The scopes of the loop and what is emitted for the assignment. -/
theorem loopOver_assignLimit :
    ∃ declared scopes store bag leaves final,
      Scopes.ofTree (loopOver assignLimit) .empty .empty = (.ok declared, store, bag) ∧
      declared.withReferences (loopOver assignLimit) = .ok scopes ∧
      emit assignLimit true (.ofScope scopes {} Scopes.root) { store := .empty, bag := .empty } =
        .ok leaves final ∧
      (scopes.get Scopes.root).slotOf? limitName = some 1 ∧
      (Context.ofScope scopes {} Scopes.root).layout.varIndex 1 = 1 ∧
      Instruction.shortest .setVar 1 ∈ final.code :=
  ⟨_, _, _, _, _, _, rfl, rfl, by with_unfolding_all rfl, by with_unfolding_all rfl,
    by with_unfolding_all rfl, by with_unfolding_all decide⟩

/-- An assignment to the limit is found wherever the limit is written. -/
theorem Scopes.hidden_of_emit_limit :
    ∃ pending part, Within assignLimit pending part ∧
      ∃ name ∈ assignedNames part.expr, (name == limitName) = true := by
  have distinct : (loopOver assignLimit).functionIds.Nodup := by
    simp [loopOver, assignLimit, Node.functionIds_eq, Expr.functionId?, Expr.inside, Expr.children]
  obtain ⟨declared, scopes, store, bag, leaves, final, collected, referred, run, slot, index,
    member⟩ := loopOver_assignLimit
  obtain ⟨own, emitted, found, code, written⟩ :=
    hidden_of_emit distinct collected referred .whole List.mem_cons_self run
  cases slot.symm.trans found
  rw [code] at member
  exact written _ member (.inl rfl) index.symm

/-- The body of a loop can write the limit. -/
theorem Scopes.hidden_assigned :
    ∃ declared scopes store bag leaves final slot,
      Scopes.ofTree (loopOver assignLimit) .empty .empty = (.ok declared, store, bag) ∧
      declared.withReferences (loopOver assignLimit) = .ok scopes ∧
      emit assignLimit true (.ofScope scopes {} Scopes.root) { store := .empty, bag := .empty } =
        .ok leaves final ∧
      limitName ∈ (loopOver assignLimit).expr.hiddenVariables ∧
      (scopes.get Scopes.root).slotOf? limitName = some slot ∧
      ∃ instr ∈ final.code, instr.op = .setVar ∧ instr.operand.toNat =
        (Context.ofScope scopes {} Scopes.root).layout.varIndex slot := by
  obtain ⟨declared, scopes, store, bag, leaves, final, collected, referred, run, slot, index,
    member⟩ := loopOver_assignLimit
  exact ⟨declared, scopes, store, bag, leaves, final, 1, collected, referred, run,
    List.mem_cons_self, slot, _, member, rfl, index.symm⟩

end NewtonScript
