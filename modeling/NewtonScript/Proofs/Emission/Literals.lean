import NewtonScript.Proofs.Emission.Adequacy
import NewtonScript.Proofs.Emission.Sealed
import NewtonScript.Proofs.Flow.Rows

/-!
# Pushed values are read back

A literal pool numbers every literal once and keeps the numbers that it has
given, so an instruction that pushes a literal means the same in all pools that
come about later.  In the block that is sealed at the end, each instruction
that pushes a value is therefore read back as that value.
-/

namespace NewtonScript

open Bytecode

/-! ## Literal pools -/

theorem Value.sameLiteral_symm {first second : Value} (same : first.sameLiteral second) :
    second.sameLiteral first := by
  cases first <;> cases second <;> simp_all [Value.sameLiteral, BEq.comm]

theorem Value.sameLiteral_trans {first second third : Value} (left : first.sameLiteral second)
    (right : second.sameLiteral third) : first.sameLiteral third := by
  cases first <;> cases second <;> cases third <;> simp_all [Value.sameLiteral]
  exact BEq.trans left right

namespace Bytecode.LiteralPool

/-- Add literals, one after the other, and collect their numbers. -/
def addAll : LiteralPool → List Value → List Nat × LiteralPool
  | pool, [] => ([], pool)
  | pool, value :: rest =>
    let (index, grown) := pool.add value
    let (indices, final) := grown.addAll rest
    (index :: indices, final)

/-- No two literals are the same. -/
def Distinct (pool : LiteralPool) : Prop :=
  pool.values.toList.Pairwise fun first second => first.sameLiteral second = false

/-- A number is that of a literal which is the same as a value. -/
def Numbers (pool : LiteralPool) (value : Value) (index : Nat) : Prop :=
  ∃ known, pool.values[index]? = some known ∧ known.sameLiteral value

/-- A pool begins with another one, and gives the numbers that it gave. -/
structure Extends (pool grown : LiteralPool) : Prop where
  values : pool.values.toList <+: grown.values.toList
  indices : ∀ value index, pool.indexOf? value = some index → grown.indexOf? value = some index

theorem Extends.refl (pool : LiteralPool) : pool.Extends pool :=
  ⟨List.prefix_refl _, fun _ _ => id⟩

theorem Extends.trans {pool middle grown : LiteralPool} (earlier : pool.Extends middle)
    (later : middle.Extends grown) : pool.Extends grown :=
  ⟨earlier.values.trans later.values,
    fun value index found => later.indices value index (earlier.indices value index found)⟩

theorem Extends.numbers {pool grown : LiteralPool} (extended : pool.Extends grown) {value : Value}
    {index : Nat} (numbers : pool.Numbers value index) : grown.Numbers value index := by
  obtain ⟨known, found, same⟩ := numbers
  refine ⟨known, ?_, same⟩
  simp only [← Array.getElem?_toList] at found ⊢
  obtain ⟨inside, rfl⟩ := List.getElem?_eq_some_iff.mp found
  exact List.prefix_iff_getElem?.mp extended.values index inside

/-- What it means to add a literal. -/
theorem add_spec (pool : LiteralPool) (value : Value) :
    (pool.Distinct → (pool.add value).2.Distinct) ∧
      (pool.add value).2.Numbers value (pool.add value).1 ∧ pool.Extends (pool.add value).2 := by
  unfold add
  cases found : pool.indexOf? value with
  | some index =>
    obtain ⟨inside, same, -⟩ := Array.findIdx?_eq_some_iff_getElem.mp found
    exact ⟨id, ⟨_, Array.getElem?_eq_getElem inside, same⟩, .refl pool⟩
  | none =>
    have new : ∀ known ∈ pool.values.toList, known.sameLiteral value = false := by
      simpa [indexOf?] using found
    refine ⟨fun distinct => ?_, ⟨value, by simp [size], value.sameLiteral_refl⟩, ?_, ?_⟩
    · simpa [Distinct, List.pairwise_append] using ⟨distinct, by simpa using new⟩
    · simp
    · intro other index there
      simpa [indexOf?, Array.findIdx?_push] using .inl there

/-- What it means to add literals. -/
theorem addAll_spec (pool : LiteralPool) (values : List Value) :
    (pool.Distinct → (pool.addAll values).2.Distinct) ∧
      List.Forall₂ (pool.addAll values).2.Numbers values (pool.addAll values).1 ∧
      pool.Extends (pool.addAll values).2 := by
  induction values generalizing pool with
  | nil => exact ⟨id, .nil, .refl pool⟩
  | cons value rest ih =>
    obtain ⟨distinct, numbers, extended⟩ := pool.add_spec value
    obtain ⟨distinct', numbers', extended'⟩ := ih (pool.add value).2
    exact ⟨distinct' ∘ distinct, .cons (extended'.numbers numbers) numbers',
      extended.trans extended'⟩

end Bytecode.LiteralPool

/-! ## Instructions that push -/

/-- The value that an instruction pushes by itself, given the literals of its
block. -/
def Bytecode.Instruction.pushed? (instr : Instruction) (literals : List Value) :
    Option Value :=
  match instr.op with
  | .pushConstant => some (Immediate.toValue instr.operand)
  | .push => literals[instr.operand.toNat]?
  | _ => none

/-- An instruction pushes a value, or the literal that stands for it. -/
def Bytecode.Instruction.Reads (instr : Instruction) (literals : List Value)
    (value : Value) : Prop :=
  ∃ known, instr.pushed? literals = some known ∧ known.sameLiteral value

/-- An instruction pushes what a primitive asks for: a value, or an object that
was made for it. -/
def Primitive.ReadBy (literals : List Value) : Primitive → Instruction → Prop
  | .value literal, instr => instr.Reads literals literal
  | .text content, instr => ∃ object, instr.Reads literals (.string object content)
  | .path slots, instr =>
    ∃ object className, instr.Reads literals (.array object className (slots.map .symbol))
  | .map slots, instr => ∃ shape : FrameMap, shape.slots == slots ∧
      instr.Reads literals (.map shape)
  | .function _, instr => ∃ object block, instr.Reads literals (.block object block)
  | _, _ => True

theorem LiteralAt.reads {literals : List Value} {property : Value → Prop}
    {instr : Instruction} (found : LiteralAt literals .push property instr) :
    ∃ known, instr.pushed? literals = some known ∧ property known := by
  obtain ⟨index, known, there, holds, small, rfl⟩ := found
  refine ⟨known, ?_, holds⟩
  simpa only [Instruction.pushed?, Instruction.shortest, toNat_toUInt16 small] using there

theorem reads_immediate {value : Value} {operand : UInt16}
    (immediate : Immediate.ofValue? value = some operand) (literals : List Value) :
    (Instruction.shortest .pushConstant operand).Reads literals value :=
  ⟨_, rfl, Immediate.toValue_of_ofValue? immediate ▸ value.sameLiteral_refl⟩

theorem Primitive.Realized.readBy {layout : FrameLayout} {literals : List Value}
    {maps : List FrameMap} {primitive : Primitive} {instr : Instruction}
    (realized : primitive.Realized layout literals maps instr) :
    primitive.ReadBy literals instr := by
  cases primitive with
  | value literal =>
    simp only [Realized] at realized
    split at realized
    · rename_i operand immediate
      exact realized ▸ reads_immediate immediate literals
    · exact realized.reads
  | text content =>
    obtain ⟨known, found, object, same⟩ := LiteralAt.reads realized
    exact ⟨object, known, found, same⟩
  | path slots =>
    obtain ⟨known, found, object, className, same⟩ := LiteralAt.reads realized
    exact ⟨object, className, known, found, same⟩
  | map slots =>
    obtain ⟨known, found, shape, -, equal, same⟩ := LiteralAt.reads realized
    exact ⟨shape, equal, known, found, same⟩
  | function id =>
    obtain ⟨known, found, object, block, same⟩ := LiteralAt.reads realized
    exact ⟨object, block, known, found, same⟩
  | _ => trivial

/-! ## The items of structured code -/

namespace Bytecode.Fragment

variable {α : Type}

/-- The items of a fragment, in the order in which they are laid out. -/
def items : Fragment α → List α
  | empty | leave _ | finish _ => []
  | plain item => [item]
  | append first second | fork _ first second | guarded first second | entered _ first second
  | joined first second => first.items ++ second.items
  | skip _ body | back _ body | scope body => body.items
  | handled names body handlers => names ++ (body.items ++ handlers.items)

theorem reduceOption_row (code : Fragment α) : code.row.reduceOption = code.items := by
  induction code with
  | handled names body handlers ofBody ofHandlers =>
    have table : (tableRow names).reduceOption = names := by
      induction names with
      | nil => rfl
      | cons name names ih => exact congrArg (name :: ·) ih
    simp [row, items, List.reduceOption_append, table, ofBody, ofHandlers]
  | _ => simp_all [row, items, List.reduceOption_append]

/-- The items of a row are, in order, in the cells that fill it. -/
theorem exists_sublist_of_fills {rules : Rules α} {R : α → Instruction → Prop}
    {row : List (Option α)} {cells : List Cell} (filled : List.Forall₂ (Fills rules R) row cells) :
    ∃ instructions, instructions.Sublist (cells.map Cell.instr) ∧
      List.Forall₂ R row.reduceOption instructions := by
  induction filled with
  | nil => exact ⟨[], .slnil, .nil⟩
  | @cons entry _ _ _ fills _ ih =>
    obtain ⟨instructions, inOrder, related⟩ := ih
    cases entry with
    | none => exact ⟨instructions, inOrder.cons _, related⟩
    | some item =>
      obtain ⟨-, instr, rfl, same⟩ := fills
      exact ⟨instr :: instructions, inOrder.cons_cons _, .cons same related⟩

end Bytecode.Fragment

/-! ## Emission -/

namespace Emission

/-- What the code of a function body asks for is, in order, among the
instructions of a block, and where it asks for a value, that value is pushed. -/
def ReadsBack (ctx : Context) (globals : Table Symbol Value) (body : Node)
    (block : CodeBlock) : Prop :=
  ∃ code instructions, decodeAll block.code = .ok code ∧
    instructions.Sublist (code.map Located.instruction) ∧
    List.Forall₂ (Primitive.ReadBy (block.literals.getD []))
      (codeOfFunction ctx globals body).items instructions

theorem map_instruction_locate (instructions : List Instruction) (offset : Nat) :
    (locate instructions offset).map Located.instruction = instructions := by
  induction instructions generalizing offset with
  | nil => rfl
  | cons instr rest ih => simp only [locate, List.map_cons, ih]

theorem Sealed.readsBack {setting : Setting} {id : ScopeId} {body : Node} {block : CodeBlock}
    {pool : LiteralPool} {store : Store} {code : Fragment Instruction}
    (sealed : Sealed setting id body block pool store code) :
    ReadsBack (setting.ctx id) setting.globals body block := by
  obtain ⟨inner, rfl, related⟩ := sealed.exists_body
  have flow := (flow_body (setting.ctx id) setting.globals body).append
    (.finish _ _ (.inl rfl) (Nat.le_refl _))
  obtain ⟨instructions, inOrder, same⟩ :=
    Fragment.exists_sublist_of_fills (flow.fills (.append related (.finish 0)) 0)
  refine ⟨_, instructions, decodeAll_of_sealed sealed, ?_, ?_⟩
  · rwa [map_instruction_locate]
  · rw [sealed.literals_eq, ← Fragment.reduceOption_row]
    exact same.imp fun _ _ realized => realized.readBy

/-- Emission from a store on, of whatever tree. -/
def Setting.ofStore (scopes : Scopes) (options : Options) (store : Store) : Setting where
  scopes
  options
  origin := store
  Known _ := True
  Literal _ _ := True
  known_own _ _ := trivial
  known_local _ _ _ _ := trivial
  known_global _ _ _ := trivial

theorem yields_emit_ofStore (scopes : Scopes) (options : Options) (store : Store) (node : Node) :
    (Setting.ofStore scopes options store).Emits node :=
  yields_emit ⟨fun _ _ _ => trivial, fun _ _ _ _ _ _ _ => trivial⟩ node .whole

/-- A pushed literal is read in every pool that begins with the one in which it
was numbered. -/
theorem pushLiteral_reads {value : Value} {ctx : Context} {state final : State}
    (run : pushLiteral value ctx state = .ok () final) :
    ∃ instr, final.code = state.code ++ [instr] ∧
      ∀ literals, final.pool <+: literals → instr.Reads literals value := by
  let setting := Setting.ofStore ctx.scopes ctx.options state.store
  obtain ⟨instr, there, grown⟩ := literal_eq_ok setting (.inl trivial) run
  exact ⟨instr, grown.code, fun _ begins => (there.mono begins fun _ => id).reads⟩

theorem pushValue_reads {value : Value} {ctx : Context} {state final : State}
    (run : pushValue value ctx state = .ok () final) :
    ∃ instr, final.code = state.code ++ [instr] ∧
      ∀ literals, final.pool <+: literals → instr.Reads literals value := by
  unfold pushValue at run
  cases immediate : Immediate.ofValue? value with
  | some operand =>
    rw [immediate] at run
    obtain ⟨-, code, -, -⟩ := op_eq_ok run
    rw [show operand.toNat.toUInt16 = operand from UInt16.ofNat_toNat] at code
    exact ⟨_, code, fun literals _ => reads_immediate immediate literals⟩
  | none =>
    rw [immediate] at run
    exact pushLiteral_reads run

/-- Values that are pushed are read back.  Being one literal is an equivalence;
a pool numbers no literal twice, gives each value the number of the same
literal, and keeps its numbers; two immediates never share an operand.  A value
that is pushed is read in all pools that come later, what is emitted behind it
changes neither its instruction nor its literal, and in the block of a function
every value that was asked for is read from the code and the literals. -/
theorem pushed_values_read_back :
    (Equivalence fun first second : Value => first.sameLiteral second = true) ∧
    (∀ values more,
      (LiteralPool.empty.addAll values).2.Distinct ∧
        List.Forall₂ (LiteralPool.empty.addAll values).2.Numbers values
          (LiteralPool.empty.addAll values).1 ∧
        (LiteralPool.empty.addAll values).2.Extends
          ((LiteralPool.empty.addAll values).2.addAll more).2) ∧
    (∀ first second operand, Immediate.ofValue? first = some operand →
      Immediate.ofValue? second = some operand → first = second) ∧
    (∀ value ctx state final, pushValue value ctx state = .ok () final ∨
        pushLiteral value ctx state = .ok () final →
      ∃ instr, final.code = state.code ++ [instr] ∧
        ∀ literals, final.pool <+: literals → instr.Reads literals value) ∧
    (∀ scopes options id node discard left state final,
      emit node discard (.ofScope scopes options id) state = .ok left final →
        state.code <+: final.code ∧ state.pool <+: final.pool) ∧
    ∀ scopes options outer id body state block final,
      functionBlock id (value (emit body)) (.ofScope scopes options outer) state = .ok block final →
        ReadsBack (.ofScope scopes options id) state.store.constants body block := by
  refine ⟨⟨Value.sameLiteral_refl, Value.sameLiteral_symm, Value.sameLiteral_trans⟩, ?_, ?_, ?_, ?_,
    ?_⟩
  · intro values more
    obtain ⟨distinct, numbers, -⟩ := LiteralPool.empty.addAll_spec values
    exact ⟨distinct .nil, numbers, (LiteralPool.addAll_spec _ more).2.2⟩
  · intro first second operand ofFirst ofSecond
    rw [← Immediate.toValue_of_ofValue? ofFirst, Immediate.toValue_of_ofValue? ofSecond]
  · rintro value ctx state final (run | run)
    · exact pushValue_reads run
    · exact pushLiteral_reads run
  · intro scopes options id node discard left state final run
    have yields := yields_emit_ofStore scopes options state.store node id {} discard
    obtain ⟨-, fragment, -, grown⟩ := yields (.refl _ _) run
    exact ⟨grown.code ▸ List.prefix_append _ _, grown.keeps.pool⟩
  · intro scopes options outer id body state block final run
    have yields := yields_value (yields_emit_ofStore scopes options state.store body id {} false)
    obtain ⟨-, pool, store, code, sealed, -⟩ := functionBlock_eq_ok yields (.refl _ _) run
    exact sealed.readsBack

end Emission

end NewtonScript
