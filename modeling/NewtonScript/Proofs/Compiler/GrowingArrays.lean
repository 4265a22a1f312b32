import NewtonScript.Proofs.Compiler.Blocks
import NewtonScript.Proofs.Compiler.LoopState
import NewtonScript.Proofs.Emission.Reached

/-!
# Arrays that grow

An array that grows is made with a marker in place of its size, and the marker
is a size like others.  It is never taken for one.  Every value that is put
into an array takes a byte at least, so code that makes an array of that many
elements is too long.  What is left are the arrays in which loops collect
their results, and these are put into the hidden variables of the loops at
once.
-/

namespace NewtonScript

open Bytecode Emission

theorem Bytecode.length_le_bytesOf (cells : List Cell) : cells.length ≤ bytesOf cells := by
  induction cells with
  | nil => exact Nat.le_refl _
  | cons cell rest ih =>
    have size := cell.size_pos
    rw [List.length_cons, bytesOf]
    omega

/-- How many values an expression puts into an array: the elements that it
lists, or the texts that it joins. -/
def Expr.arrayParts? : Expr → Option Nat
  | .makeArray _ elements => some elements.length
  | .binary op lhs rhs =>
    if (operationOf? op).isNone then some (textCount lhs + separatorCount op + textCount rhs)
    else none
  | _ => none

namespace Emission

section

variable {ctx : Context} {globals : Table Symbol Value} {node : Node} {discard : Bool}
  {R : Primitive → Instruction → Prop} {code : Fragment Instruction} {start : Nat}

/-- A node for its value takes a byte at least, as it leads to a deeper stack. -/
theorem bytesOf_pos (related : (codeOf ctx globals node {} false).Rel R code) (start : Nat) :
    0 < bytesOf (code.cells start) := by
  have flow := flow_alone ctx globals node false
  have low := flow.leads.low
  rw [leavesValue_false, (flow.fills related start).length_eq] at low
  have bytes := length_le_bytesOf (code.cells start)
  change 1 ≤ 0 + _ at low
  omega

/-- Short code is tidy. -/
theorem tidy_of_small {access : Access} {leaves : Mark → Prop} {finishes : Nat → Prop}
    {after : Bytecode.Level} {fragment : Fragment Primitive}
    (flow : fragment.Flow (Primitive.rules access leaves finishes) ⟨0, 0⟩ ⟨0, 0⟩ after)
    (related : fragment.Rel R code) (small : bytesOf (code.cells start) ≤ maxCodeSize) :
    Tidy access.Gathers fragment.row := by
  refine flow.leads.tidy ?_
  rw [(flow.fills related start).length_eq]
  have bytes := length_le_bytesOf (code.cells start)
  have limit : maxCodeSize = 65535 := rfl
  dsimp only
  omega

/-- Code that makes an array of so many parts is not tidy. -/
theorem not_tidy_of_arrayParts (parts : node.expr.arrayParts? = some growableArray)
    (pending : Pending) {gathers : Nat → Prop} :
    ¬ Tidy gathers (codeOf ctx globals node pending discard).row := by
  obtain ⟨expr, span⟩ := node
  cases expr with
  | makeArray className elements =>
    cases className <;> rw [codeOf_eq, planOf, Option.some.inj parts] <;> intro tidy <;>
      cases (tidy.of_append.of_append : Tidy gathers [growing]) <;> contradiction
  | binary op lhs rhs =>
    simp only [Expr.arrayParts?, Option.isNone_iff_eq_none] at parts
    split at parts
    · rename_i none
      rw [codeOf_eq, planOf, Plan.binary, none]
      dsimp only
      rw [Option.some.inj parts]
      intro tidy
      cases (tidy.of_append.of_append.of_append.of_append :
        Tidy gathers [growing, some (.frequent .stringer)])
      contradiction
    · cases parts
  | _ => cases parts

end

section

variable {scopes : Scopes} {options : Options} {id : ScopeId} {node : Node} {discard left : Bool}
  {state final : State}

theorem size_lt_of_emit
    (run : emit node false (.ofScope scopes options id) state = .ok left final) :
    state.size < final.size := by
  obtain ⟨-, fragment, related, grown⟩ :=
    yields_emit_ofStore scopes options state.store node id {} false (.refl _ _) run
  rw [grown.size]
  exact Nat.lt_add_of_pos_right (bytesOf_pos related _)

theorem arrayParts_ne_of_emit
    (run : emit node discard (.ofScope scopes options id) state = .ok left final)
    (small : final.size ≤ maxCodeSize) : node.expr.arrayParts? ≠ some growableArray := by
  obtain ⟨-, fragment, related, grown⟩ :=
    yields_emit_ofStore scopes options state.store node id {} discard (.refl _ _) run
  rw [grown.size] at small
  exact fun parts => not_tidy_of_arrayParts parts {}
    (tidy_of_small (flow_alone _ _ _ _) related (Nat.le_trans (Nat.le_add_left _ _) small))

/-- The body of a function with a block was emitted and fits. -/
theorem emits_of_functionBlock {ctx : Context} {body : Node} {block : CodeBlock}
    (run : functionBlock id (value (emit body)) ctx state = .ok block final) :
    ∃ left last, emit body false (.ofScope ctx.scopes ctx.options id)
      { state with function := {} } = .ok left last ∧ last.size ≤ maxCodeSize := by
  obtain ⟨function, middle, isolated, sealed⟩ := bind_eq_ok run
  obtain ⟨last, emitted, rfl, rfl⟩ := isolated_eq_ok isolated
  obtain ⟨_, _, ran, ret⟩ := bind_eq_ok emitted
  obtain ⟨left, _, ran, given⟩ := bind_eq_ok ran
  cases given
  have small := (sealCode_eq_ok (.ofStore ctx.scopes ctx.options state.store) sealed).1
  exact ⟨left, _, ran, Nat.le_trans ((elementary_simple .ret).kept _ _ _ _ ret).2 small⟩

/-- Where a tree is emitted and fits, so does all that its emission comes to. -/
theorem Reaches.succeeds {tree : Node} {start : State} {loops : List Node}
    (fresh : start.function.loops = [])
    (emitted : ∃ left last, emit tree false (.ofScope scopes options Scopes.root) start =
      .ok left last ∧ last.size ≤ maxCodeSize)
    (reaches : Reaches scopes options tree start id loops state node discard) :
    ∃ left last, emit node discard (.ofScope scopes options id) state = .ok left last ∧
      last.size ≤ maxCodeSize := by
  induction reaches with
  | whole => exact emitted
  | part outer _ starts ih =>
    obtain ⟨left, last, run, small⟩ := ih
    obtain ⟨found, inner, ran, smaller⟩ := starts.succeeds (outer.level fresh) run
    exact ⟨found, inner, ran, Nat.le_trans smaller small⟩
  | body outer scope starts ih =>
    obtain ⟨left, last, run, -⟩ := ih
    obtain ⟨_, _, ran, -⟩ := starts.succeeds (outer.level fresh) run
    obtain ⟨-, inner, block, middle, found, made⟩ := functionLiteral_eq_ok ran
    cases scope.symm.trans found
    exact emits_of_functionBlock made

/-- What is emitted of a tree: the tree, what the plan of an emitted node emits,
and the body of an emitted function literal.  Initializers of constants, for
one, are not. -/
inductive Emitted (tree : Node) : Node → Prop where
  | whole : Emitted tree tree
  | part {node part : Node} (outer : Emitted tree node)
      (member : part ∈ (planOf node {} false).parts) : Emitted tree part
  | body {function : FuncId} {params : List Param} {body : Node} {native : Bool}
      {name : Option Symbol} {span : Span}
      (outer : Emitted tree ⟨.func function params body native name, span⟩) : Emitted tree body

/-- Where a tree is emitted and fits, emission comes to all that is emitted of
it. -/
theorem Emitted.reaches {tree : Node} {start : State} (fresh : start.function.loops = [])
    (done : ∃ left last, emit tree false (.ofScope scopes options Scopes.root) start =
      .ok left last ∧ last.size ≤ maxCodeSize)
    (emitted : Emitted tree node) :
    ∃ id loops state discard, Reaches scopes options tree start id loops state node discard := by
  induction emitted with
  | whole => exact ⟨_, _, _, _, .whole⟩
  | @part node part _ member ih =>
    obtain ⟨id, loops, state, discard, outer⟩ := ih
    obtain ⟨_, _, run, -⟩ := outer.succeeds fresh done
    rw [← parts_planOf node {} discard] at member
    obtain ⟨_, _, _, _, _, isPart, starts⟩ := (script_emit node discard).starts run member
    exact ⟨_, _, _, _, outer.part isPart starts⟩
  | @body function params body native name span _ ih =>
    obtain ⟨id, loops, state, discard, outer⟩ := ih
    obtain ⟨_, _, run, -⟩ := outer.succeeds fresh done
    have script : Script ⟨.func function params body native name, span⟩ [] false false
        (functionLiteral function span (value (emit body)) discard) := .functionLiteral rfl discard
    have starts : Starts ⟨.func function params body native name, span⟩ (.ofScope scopes options id)
        (functionLiteral function span (value (emit body)) discard) false state false
        (emit ⟨.func function params body native name, span⟩ discard) state := by
      rw [emit_eq _ {} discard .nil]
      exact .first (.first .here script fun _ => .pure ()) (script.bind_pure _) fun _ => .pure _
    obtain ⟨_, _, ran, -⟩ := starts.succeeds (outer.level fresh) run
    obtain ⟨-, inner, _, _, scope, -⟩ := functionLiteral_eq_ok ran
    exact ⟨_, _, _, _, outer.body scope starts⟩

end

/-- Arrays that grow collect the results of loops.  In the block of a function,
what makes such an array stands directly before what puts it into the hidden
variable of a loop of that function which collects its results. -/
def Collects (ctx : Context) (body : Node) (block : CodeBlock) : Prop :=
  ∃ instructions, decodeAll block.code = .ok (locate instructions 0) ∧
    ∀ front instr back, instructions = front ++ instr :: back →
      instr.op = .makeArray → instr.operand.toNat = growableArray →
        ∃ pending part value slot next behind, Within body pending part ∧
          part.expr.gathers? = some value ∧
          (ctx.scopes.get ctx.scope).slotOf? (.ofString (hiddenSpelling [value] "result")) =
            some slot ∧
          back = next :: behind ∧ next.op = .setVar ∧
          next.operand.toNat = ctx.layout.varIndex slot

/-- What makes an array that grows is the code for such an array. -/
theorem eq_growing_of_fills {rules : Rules Primitive} {layout : FrameLayout} {pool : List Value}
    {maps : List FrameMap} {entry : Option Primitive} {cell : Cell}
    (fills : Fragment.Fills rules (Primitive.Realized layout pool maps) entry cell)
    (isArray : cell.instr.op = .makeArray)
    (marked : cell.instr.operand.toNat = growableArray) : entry = growing := by
  cases entry with
  | none =>
    rw [Fragment.Fills, isArray] at fills
    cases fills
  | some primitive =>
    obtain ⟨-, instr, rfl, realized⟩ := fills
    have made : primitive.opcode = .makeArray := by
      rcases realized.op_eq with equal | equal
      · exact equal.symm.trans isArray
      · cases equal.symm.trans isArray
    cases primitive with
    | op opcode operand =>
      cases made
      obtain ⟨small, rfl⟩ := realized
      rw [growing, ← marked]
      exact congrArg (some ∘ Primitive.op .makeArray) (toNat_toUInt16 small).symm
    | _ => cases made

theorem Sealed.collects {setting : Setting} {id : ScopeId} {body : Node} {block : CodeBlock}
    {pool : LiteralPool} {store : Store} {code : Fragment Instruction}
    (sealed : Sealed setting id body block pool store code) :
    Collects (setting.ctx id) body block := by
  refine ⟨_, decodeAll_of_sealed sealed, fun front instr back split isArray marked => ?_⟩
  have small := sealed.small
  obtain ⟨inner, rfl, related⟩ := sealed.exists_body
  have flow := flow_alone (setting.ctx id) setting.globals body false
  rw [leavesValue_false] at flow
  replace flow := flow.append (.finish _ _ trivial (Nat.le_refl 1))
  have related := Fragment.Rel.append related (.finish 0)
  have tidy := tidy_of_small flow related small
  have filled := flow.fills related 0
  obtain ⟨before, rest, equal, -, split⟩ := List.map_eq_append_iff.mp split
  obtain ⟨cell, after, rfl, rfl, rfl⟩ := List.map_eq_cons_iff.mp split
  rw [equal] at filled
  rw [← List.take_append_drop before.length (Fragment.row _)] at tidy
  replace tidy := tidy.of_append
  obtain ⟨entry, entries, fills, filled, split⟩ :=
    List.forall₂_cons_right_iff.mp (List.forall₂_drop_append _ _ _ filled)
  rw [split, eq_growing_of_fills fills isArray marked] at tidy
  cases tidy with
  | cons other => exact absurd rfl other
  | gathered known =>
    obtain ⟨pending, part, within, value, found, rfl⟩ := known
    obtain ⟨next, behind, ⟨-, instr, rfl, realized⟩, -, rfl⟩ := List.forall₂_cons_left_iff.mp filled
    obtain ⟨small, rfl⟩ := realized
    exact ⟨pending, part, value, _, _, _, within, found, slotOf?_of_small small, rfl, rfl,
      toNat_toUInt16 small⟩

end Emission

namespace Compiler

/-- In a program that is compiled, only the arrays in which loops collect their
results grow. -/
theorem collects_of_compiled {compiler middle final : Compiler} {tree : Node} {block : CodeBlock}
    (reads : Reads compiler tree middle) (run : compileTree tree middle = .ok block final) :
    (∀ scopes options id node state left last,
      emit node false (.ofScope scopes options id) state = .ok left last → state.size < last.size) ∧
    ∃ setting bag store' bag', setting.options = compiler.options ∧ setting.scopes.Of tree ∧
      CodeBlock.ofTree tree setting.scopes setting.options setting.origin bag =
        (.ok block, store', bag') ∧
      (∀ node, Emitted tree node → ∃ id loops state discard,
        Reaches setting.scopes setting.options tree { store := setting.origin, bag } id loops state
          node discard) ∧
      (∀ id loops state node discard,
        Reaches setting.scopes setting.options tree { store := setting.origin, bag } id loops state
            node discard →
          node.expr.arrayParts? ≠ some growableArray) ∧
      SealedAs setting Scopes.root tree block ∧
      Collects (setting.ctx Scopes.root) tree block ∧
      ∀ inner ∈ block.nested, compiler.store.Holds inner ∨
        ∃ id params body, tree.HasFunction setting.scopes id params body ∧
          SealedAs setting id body inner ∧ Collects (setting.ctx id) body inner := by
  refine ⟨fun _ _ _ _ _ _ _ => size_lt_of_emit, ?_⟩
  obtain ⟨setting, options, -, made⟩ := (reads.compiles run).madeOf
  obtain ⟨bag, store', bag', ran⟩ := made.run
  have collects : ∀ {id body inner}, SealedAs setting id body inner →
      Collects (setting.ctx id) body inner :=
    fun ⟨_, _, _, sealed⟩ => sealed.collects
  have done : ∃ left last, emit tree false (.ofScope setting.scopes setting.options Scopes.root)
      { store := setting.origin, bag } = .ok left last ∧ last.size ≤ maxCodeSize := by
    unfold CodeBlock.ofTree at ran
    dsimp only at ran
    split at ran
    · rename_i emitted
      exact emits_of_functionBlock emitted
    · cases ran
  refine ⟨setting, bag, store', bag', options, made.scopes, ran, fun _ => Emitted.reaches rfl done,
    ?_, made.whole, collects made.whole, fun inner member => ?_⟩
  · intro id loops state node discard reaches
    obtain ⟨left, last, run, small⟩ := reaches.succeeds rfl done
    exact arrayParts_ne_of_emit run small
  · refine (made.nested inner member).imp_right ?_
    rintro ⟨id, params, body, function, sealed⟩
    exact ⟨id, params, body, function, sealed, collects sealed⟩

/-- A loop that collects its results. -/
def collectAll : String := "foreach x in [] collect x"

/-- The array that grows is put into the variable behind those of the loop. -/
theorem collects_collectAll :
    ∃ tree middle block final, Reads (.ofString collectAll .empty {}) tree middle ∧
      compileTree tree middle = .ok block final ∧ [0x8F, 0xFF, 0xFF, 0xA3] <:+: block.code ∧
      ∃ setting : Setting, setting.scopes.Of tree ∧
        Collects (setting.ctx Scopes.root) tree block := by
  have gives : (given? (compile (.ofString collectAll .empty {}))).any
      (fun block => decide ([0x8F, 0xFF, 0xFF, 0xA3] <:+: block.code)) = true := by
    decide +kernel
  obtain ⟨block, found, makes⟩ := (Option.any_eq_true _ _).mp gives
  obtain ⟨final, run⟩ := exists_of_given? found
  obtain ⟨tree, middle, reads, run⟩ := reads_of_compile run
  obtain ⟨-, setting, _, _, _, -, ofTree, -, -, -, -, collects, -⟩ := collects_of_compiled reads run
  exact ⟨tree, middle, block, final, reads, run, of_decide_eq_true makes, setting, ofTree, collects⟩

end Compiler

end NewtonScript
