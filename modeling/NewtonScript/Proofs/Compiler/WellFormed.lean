import NewtonScript.Proofs.Compiler.Blocks

/-!
# Emitted blocks are well formed

The bytes of every block that is emitted are instructions, and their operands
number what is there: branches lead to instructions, literals are in the pool,
variables in the frame of the function.
-/

namespace NewtonScript

open Bytecode Emission

/-- The number of the first variable of a function: a frame starts with slots
of its own. -/
def CodeBlock.base (block : CodeBlock) : Nat :=
  if block.argFrame.isSome then 3 else 0

/-- The instructions of a block, for a function with a number of variables, are
in order: the last one returns, branches lead to instructions, operands number
what is there, and a frame is made directly behind its map. -/
structure CodeBlock.InOrder (block : CodeBlock) (count : Nat) (code : List Located) : Prop where
  decoded : decodeAll block.code = .ok code
  size : 1 ≤ block.code.length ∧ block.code.length ≤ 65535
  ends : ∃ front last, code = front ++ [last] ∧ last.instruction = .ofSimple .ret
  branches : ∀ located ∈ code, located.instruction.op.isBranch →
    ∃ target ∈ code, target.offset = located.instruction.operand.toNat
  inRange : ∀ located ∈ code, located.instruction.InRange (block.literals.getD []) block.base count
  frames : ∀ front located rest, code = front ++ located :: rest →
    located.instruction.op = .makeFrame → ∃ before pushed shape, front = before ++ [pushed] ∧
      pushed.instruction.op = .push ∧
      block.literal? pushed.instruction.operand.toNat = some (.map shape) ∧
      shape.slots.length = located.instruction.operand.toNat

/-- A block is well formed for the scope of a function: its instructions are in
order for the arguments and the locals of that function, which its argument
word counts and its frame names. -/
def CodeBlock.WellFormed (block : CodeBlock) (scope : Scope) : Prop :=
  ∃ code, block.numArgs = FrameLayout.argumentWord scope block.compat ∧
    (∀ frame, block.argFrame = some frame → IsTemplate scope frame) ∧
    block.InOrder (scope.args.length + scope.locals.length) code

section

variable {pool : List Value} {base count : Nat} {distinct : Prop} {leaves : Mark → Prop}
  {finishes : Nat → Prop} {cells : List Cell} {levels : Nat → Option Level}

/-- Whether the operand of an instruction is a literal, a variable or a
frequent function. -/
def Bytecode.Opcode.isReference : Opcode → Bool
  | .push => true
  | .findVar => true
  | .findAndSetVar => true
  | .freqFunc => true
  | .getVar => true
  | .setVar => true
  | .incrVar => true
  | _ => false

theorem Bytecode.Instruction.InRange.of_op {instr : Instruction}
    (op : instr.op.isReference = false) : instr.InRange pool base count := by
  constructor
  · intro equal
    simp [equal, Opcode.isReference] at op
  · rintro (equal | equal) <;> simp [equal, Opcode.isReference] at op
  · intro equal
    simp [equal, Opcode.isReference] at op
  · rintro (equal | equal | equal) <;> simp [equal, Opcode.isReference] at op

variable {before : List Cell} {next : Nat} {cell : Cell} {level : Level}

theorem Bytecode.Fits.inRange
    (fits : Fits (Instruction.rules pool base count distinct leaves finishes) ⟨0, 0⟩ levels before
      next cell level) (shallow : level.depth < 65536) :
    cell.instr.InRange pool base count := by
  cases fits with
  | plain moves _ => exact (moves.2 shallow).inRange
  | follows _ follows _ => exact .of_op (by simp [Cell.instr, follows.2.1, Opcode.isReference])
  | jump op _ => exact .of_op (by simp [Cell.instr, op, Opcode.isReference])
  | @choice instr _ _ _ takes _ _ =>
    refine .of_op ?_
    simp only [Cell.instr]
    cases op : instr.op <;> simp_all [Opcode.isReference, Opcode.taken?]
  | _ => exact .of_op rfl

/-- A frame is made directly behind its map. -/
theorem Bytecode.Fits.makeFrame
    (fits : Fits (Instruction.rules pool base count distinct leaves finishes) ⟨0, 0⟩ levels before
      next cell level) (shallow : level.depth < 65536) (makes : cell.instr.op = .makeFrame) :
    ∃ front first, before = front ++ [.plain first] ∧ first.op = .push ∧
      (distinct → ∃ shape, pool[first.operand.toNat]? = some (.map shape) ∧
        shape.slots.length = cell.instr.operand.toNat) := by
  cases fits with
  | plain moves _ => exact absurd makes (moves.2 shallow).op_ne
  | follows equal follows _ => exact ⟨_, _, equal, follows.2.2.2⟩
  | jump op _ => simp [Cell.instr, op] at makes
  | choice takes _ _ =>
    simp only [Cell.instr] at makes
    simp [makes, Opcode.taken?] at takes
  | address _ => cases makes
  | install _ _ _ _ _ => cases makes
  | remove _ => cases makes
  | unclosed _ => cases makes
  | leave _ _ _ _ => cases makes
  | finish _ _ => cases makes

end

/-- A sealed block is in order. -/
theorem inOrder_of_sealed {setting : Setting} {id : ScopeId} {body : Node} {block : CodeBlock}
    {pool : LiteralPool} {store : Store} {code : Fragment Instruction}
    (sealed : Sealed setting id body block pool store code)
    (coherent : store.Coherent setting.Known) :
    block.InOrder (variableCount (setting.ctx id))
      (locate ((code.cells 0).map Cell.instr) 0) := by
  obtain ⟨levels, annotated⟩ := sealed.annotated
  have base : block.base = (setting.ctx id).layout.base := by
    rw [CodeBlock.base, sealed.frame]
    rfl
  have length : block.code.length = bytesOf (code.cells 0) := by
    rw [sealed.bytes, length_flatMap_encode, rowSize_map_instruction]
  obtain ⟨inner, whole, -⟩ := sealed.exists_body
  have ends : code.cells 0 = inner.cells 0 ++ [.finish 0] := by rw [whole]; rfl
  constructor
  case decoded => exact decodeAll_of_sealed sealed
  case size =>
    refine ⟨?_, length ▸ sealed.small⟩
    rw [length, ends, bytesOf_append, bytesOf_cons, Cell.size_finish]
    omega
  case ends =>
    rw [ends, List.map_append, locate_append]
    exact ⟨_, _, rfl, rfl⟩
  case branches =>
    intro located member branches
    obtain ⟨_, level, -, -, known, -⟩ := annotated.edge sealed.complete (.branch member branches)
    obtain ⟨before, cell, after, split, offset⟩ := annotated.inside _ _ known
    exact ⟨_, mem_locate_iff.mpr ⟨before, cell, after, split, rfl⟩, offset.symm⟩
  case inRange =>
    intro located member
    obtain ⟨before, cell, after, split, rfl⟩ := mem_locate_iff.mp member
    obtain ⟨level, -, shallow, fits⟩ := annotated.at_split sealed.complete split
    rw [sealed.literals_eq, base]
    exact fits.inRange shallow
  case frames =>
    intro front located rest split makes
    obtain ⟨before, back, cells, rfl, behind⟩ := locate_eq_append split
    cases back with
    | nil => cases behind
    | cons cell after =>
      cases behind
      obtain ⟨level, -, shallow, fits⟩ := annotated.at_split sealed.complete cells
      obtain ⟨front, first, rfl, push, map⟩ := fits.makeFrame shallow makes
      obtain ⟨shape, found, slots⟩ := map coherent
      rw [List.map_append, locate_append]
      refine ⟨_, _, shape, rfl, push, ?_, slots⟩
      rw [literal?_of_sealed sealed]
      exact found

/-- A block that was sealed for a function is well formed for its scope. -/
theorem wellFormed_of_sealedAs {setting : Setting} {initial : Store} {tree body : Node}
    {whole block : CodeBlock} {id : ScopeId} (made : MadeIn setting initial tree whole)
    (distinct : initial.Distinct) (sealed : SealedAs setting id body block) :
    block.WellFormed (setting.scopes.get id) := by
  obtain ⟨pool, store, code, sealed⟩ := sealed
  have numArgs : block.numArgs = FrameLayout.argumentWord (setting.scopes.get id) block.compat := by
    rw [sealed.compat]
    exact sealed.numArgs
  have inOrder := inOrder_of_sealed sealed (sealed.store.coherent (made.distinct distinct))
  have count : variableCount (setting.ctx id) =
      (setting.scopes.get id).args.length + (setting.scopes.get id).locals.length :=
    List.length_append
  rw [count] at inOrder
  exact ⟨_, numArgs, sealed.template, inOrder⟩

/-- Where there are no maps, they are told apart. -/
theorem Store.distinct_of_no_map {store : Store}
    (none : ∀ shape, ¬ store.HasMap store.Known shape) : store.Distinct :=
  ⟨fun shape has => absurd has (none shape), fun first _ has => absurd has (none first)⟩

namespace Compiler

/-- What is compiled comes from one tree.  The whole block was sealed for the
tree, and every block inside it that was not there before for a function of the
tree.  Each of them is well formed for the scope of its own function. -/
theorem wellFormed_of_compiled {text : String} {store : Store} {options : Options}
    {block : CodeBlock} (distinct : store.Distinct)
    (compiled : (∃ final, compile (.ofString text store options) = .ok block final) ∨
      .ok block ∈ (compileEach (.ofString text store options)).1) :
    ∃ tree setting, Compiles store options tree block ∧ setting.options = options ∧
      setting.scopes.Of tree ∧ SealedAs setting Scopes.root tree block ∧
      block.WellFormed (setting.scopes.get Scopes.root) ∧
      ∀ inner ∈ block.nested, store.Holds inner ∨
        ∃ id params body, tree.HasFunction setting.scopes id params body ∧
          SealedAs setting id body inner ∧ inner.WellFormed (setting.scopes.get id) := by
  obtain ⟨tree, setting, compiles, same, made⟩ := madeIn_of_compiled compiled
  refine ⟨tree, setting, compiles, same, made.scopes, made.whole,
    wellFormed_of_sealedAs made distinct made.whole, fun inner member => ?_⟩
  refine (made.nested inner member).imp_right ?_
  rintro ⟨id, params, body, function, sealed⟩
  exact ⟨id, params, body, function, sealed, wellFormed_of_sealedAs made distinct sealed⟩

/-- A function that makes frames, with a function inside that shares its
argument. -/
def frameMaker : String :=
  "func(x) begin local y; y := {a: x, b: func() x}; if y exists then y.a else nil end"

theorem wellFormed_frameMaker :
    ∃ block final, compile (.ofString frameMaker .empty {}) = .ok block final ∧
      block.nested.length = 2 ∧ ∃ (tree : Node) (setting : Setting), setting.scopes.Of tree ∧
      block.WellFormed (setting.scopes.get Scopes.root) ∧
      ∀ inner ∈ block.nested, ∃ id params body, tree.HasFunction setting.scopes id params body ∧
        SealedAs setting id body inner ∧ inner.WellFormed (setting.scopes.get id) := by
  have gives : (given? (compile (.ofString frameMaker .empty {}))).map
      (fun block => block.nested.length) = some 2 := by
    decide +kernel
  obtain ⟨block, found, two⟩ := Option.map_eq_some_iff.mp gives
  obtain ⟨final, run⟩ := exists_of_given? found
  have distinct : Store.empty.Distinct := by
    refine Store.distinct_of_no_map ?_
    rintro shape (shared | plain | ⟨name, found⟩)
    · cases shared
    · cases plain
    · cases found
  obtain ⟨tree, setting, -, -, ofTree, -, whole, nested⟩ :=
    wellFormed_of_compiled distinct (.inl ⟨final, run⟩)
  refine ⟨block, final, run, two, tree, setting, ofTree, whole, fun inner member => ?_⟩
  rcases nested inner member with ⟨value, ⟨name, found⟩, -⟩ | own
  · cases found
  · exact own

/-- A block whose only byte begins no instruction. -/
def unreadableBlock : CodeBlock :=
  ⟨[8], none, 0, none, none, .native⟩

/-- A store with a constant that is not code. -/
def unreadableStore : Store :=
  (Store.empty.makeBlock unreadableBlock).2.defineConstant (.ofString "c")
    (Store.empty.makeBlock unreadableBlock).1

/-- A block that was there before becomes part of what is compiled, whatever
its bytes are. -/
theorem not_wellFormed_constant :
    ∃ block final, compile (.ofString "c" unreadableStore {}) = .ok block final ∧
      unreadableStore.Distinct ∧ ∃ inner ∈ block.nested, ∀ scope, ¬ inner.WellFormed scope := by
  have distinct : unreadableStore.Distinct := by
    refine Store.distinct_of_no_map ?_
    rintro shape (shared | plain | ⟨name, found⟩)
    · cases shared
    · cases plain
    · rcases Table.get?_insert found with equal | old
      · cases equal
      · cases old
  have gives : (given? (compile (.ofString "c" unreadableStore {}))).map
      (fun block => block.nested.map CodeBlock.code) = some [unreadableBlock.code] := by
    decide +kernel
  obtain ⟨block, found, codes⟩ := Option.map_eq_some_iff.mp gives
  obtain ⟨final, run⟩ := exists_of_given? found
  obtain ⟨inner, nested, code⟩ := List.map_eq_singleton_iff.mp codes
  refine ⟨block, final, run, distinct, inner, by simp [nested], ?_⟩
  rintro scope ⟨instructions, -, -, inOrder⟩
  have decoded := inOrder.decoded
  rw [code] at decoded
  cases decoded

end Compiler

end NewtonScript
