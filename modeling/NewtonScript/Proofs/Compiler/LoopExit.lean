import NewtonScript.Proofs.Compiler.StackDiscipline

/-!
# Leaving loops

A break is a branch to the exit of its loop.  It stands above the level at
which the loop was entered by one value, by the operands that wait between it
and the loop, and by the handler tables installed between them, and none of
these is removed.  So the loop's exit is reached as it is by the end of the
loop exactly when there are none.
-/

namespace NewtonScript

open Bytecode Emission

variable {offset : Nat}

namespace Bytecode

/-- A path from the first instruction leads to a position, and there are so
many values on the stack and so many handler tables installed. -/
inductive Walk (code : List Located) : Nat → Int → Int → Prop where
  | start : Walk code 0 0 0
  | step {located : Located} {target : Nat} {depth handlers : Int}
      (walk : Walk code located.offset depth handlers) (edge : Edge code located target) :
      Walk code target (depth + located.instruction.stackEffect)
        (handlers + located.instruction.handlerEffect)

/-- A path goes on behind an instruction. -/
theorem Walk.next {code : List Located} {depth handlers : Int}
    (walk : Walk code offset depth handlers) (instr : Instruction)
    (member : ⟨offset, instr⟩ ∈ code) (passes : instr.passes) :
    Walk code (offset + instr.size) (depth + instr.stackEffect)
      (handlers + instr.handlerEffect) :=
  walk.step (.next member passes)

/-- Wherever a loop was entered, it is left with one value more and with the
same handlers: at a position that leaves it, and at its exit. -/
def Restores (code : List Located) (offset entry exit : Nat) : Prop :=
  ∀ depth handlers, Walk code entry depth handlers →
    (∀ depth' handlers', Walk code offset depth' handlers' →
      depth' = depth + 1 ∧ handlers' = handlers) ∧
    ∀ depth' handlers', Walk code exit depth' handlers' →
      depth' = depth + 1 ∧ handlers' = handlers

end Bytecode

namespace Emission

section

variable {body : Node} {cells : List Cell} {levels : Nat → Option Bytecode.Level}

/-- Where no break leaves anything behind, the levels are those of all
paths. -/
theorem Leveled.walk (leveled : Leveled body cells levels)
    (clear : ∀ mark, BreakMark body mark → mark = .clear) {depth handlers : Int}
    (walk : Walk (locate (cells.map Cell.instr) 0) offset depth handlers) :
    ∃ level, levels offset = some level ∧ depth = level.depth ∧ handlers = level.handlers := by
  induction walk with
  | start => exact ⟨_, leveled.start, rfl, rfl⟩
  | step _ edge ih =>
    obtain ⟨before, known, rfl, rfl⟩ := ih
    obtain ⟨level, level', mark, known', reached, changes, left⟩ := leveled.edge _ _ edge
    cases known.symm.trans known'
    obtain rfl : mark = .clear := left.elim id fun ⟨leaves, _⟩ => clear mark leaves
    have depth_eq := changes.depth
    have handlers_eq := changes.handlers
    simp only [Mark.clear] at depth_eq handlers_eq
    exact ⟨level', reached, by omega, by omega⟩

/-- Where no break leaves anything behind, every break restores the context of
its loop. -/
theorem Leveled.restores (leveled : Leveled body cells levels)
    (clear : ∀ mark, BreakMark body mark → mark = .clear) {mark : Mark} {bounds : LoopBounds}
    (leaves : BreakAt cells offset mark bounds) :
    Restores (locate (cells.map Cell.instr) 0) offset bounds.entry bounds.exit := by
  obtain ⟨known, entry, entered, here, left⟩ := leveled.leave offset mark bounds leaves
  obtain rfl := clear mark known
  intro depth handlers walk
  obtain ⟨_, found, rfl, rfl⟩ := leveled.walk clear walk
  cases entered.symm.trans found
  constructor
  · intro depth' handlers' walk'
    obtain ⟨_, found, rfl, rfl⟩ := leveled.walk clear walk'
    cases here.symm.trans found
    simp [Mark.levelAbove, Mark.clear]
  · intro depth' handlers' walk'
    obtain ⟨_, found, rfl, rfl⟩ := leveled.walk clear walk'
    cases left.symm.trans found
    simp [Bytecode.Level.pushed]

end

/-- A block holds the structured code of a function body, laid out from
position zero on. -/
def LaidOut (body : Node) (block : CodeBlock) (cells : List Cell) : Prop :=
  decodeAll block.code = .ok (locate (cells.map Cell.instr) 0) ∧
    ∃ ctx globals pool maps code, cells = Fragment.cells code 0 ∧
      (codeOfFunction ctx globals body).Rel (Primitive.Realized ctx.layout pool maps) code

/-- The breaks of a function body in a block.  The levels at both ends of every
edge differ by the effect of the instruction, but for breaks, which leave
behind what waits between them and their loop.  If nothing waits at any of
them, they restore the contexts of their loops. -/
def Leaves (body : Node) (block : CodeBlock) : Prop :=
  ∃ cells levels, LaidOut body block cells ∧ Leveled body cells levels ∧
    ((∀ mark, BreakMark body mark → mark = .clear) → ∀ offset mark bounds,
      BreakAt cells offset mark bounds →
        Restores (locate (cells.map Cell.instr) 0) offset bounds.entry bounds.exit)

theorem leaves_of_sealedFor {initial : Store} {options : Options} {body : Node}
    {block : CodeBlock} (sealed : SealedFor initial options body block) : Leaves body block := by
  obtain ⟨setting, id, pool, store, code, -, sealed, -⟩ := sealed
  obtain ⟨levels, leveled⟩ := sealed.leveled
  exact ⟨_, levels, ⟨decodeAll_of_sealed sealed, _, _, _, _, code, rfl, sealed.related⟩, leveled,
    fun clear _ _ _ => leveled.restores clear⟩

end Emission

namespace Compiler

/-- The breaks of a program that is compiled. -/
theorem leaves_of_compiled {compiler middle final : Compiler} {tree : Node} {block : CodeBlock}
    (reads : Reads compiler tree middle) (run : compileTree tree middle = .ok block final) :
    Leaves tree block ∧ ∀ inner ∈ block.nested, compiler.store.Holds inner ∨
      ∃ body, tree.HasBody body ∧ Leaves body inner := by
  have made := (reads.compiles run).madeOf
  refine ⟨leaves_of_sealedFor made.whole, fun inner member => ?_⟩
  exact (made.nested inner member).imp id fun ⟨body, isBody, sealed⟩ =>
    ⟨body, isBody, leaves_of_sealedFor sealed⟩

/-- A break above an operand of a call. -/
def breakInCall : String := "loop foo(1, break 2)"

/-- A break inside handlers. -/
def breakInTry : String := "loop try break 1 onexception |evt.ex| do 2"

theorem leaves_breakInCall :
    ∃ tree middle block final, Reads (.ofString breakInCall .empty {}) tree middle ∧
      compileTree tree middle = .ok block final ∧ Leaves tree block := by
  have gives : (given? (compile (.ofString breakInCall .empty {}))).isSome = true := by
    decide +kernel
  obtain ⟨block, found⟩ := Option.isSome_iff_exists.mp gives
  obtain ⟨final, run⟩ := exists_of_given? found
  obtain ⟨tree, middle, reads, run⟩ := reads_of_compile run
  exact ⟨tree, middle, block, final, reads, run, (leaves_of_compiled reads run).1⟩

/-- The bytes that a text is compiled to. -/
def codeOfText (text : String) : List UInt8 :=
  match compile (.ofString text .empty {}) with
  | .ok block _ => block.code
  | .error _ _ => []

/-- The first break finds the operand of the call below its value; the second
one leaves its loop with the handlers installed. -/
theorem not_restores_break :
    (∃ code, decodeAll (codeOfText breakInCall) = .ok code ∧
      ⟨4, .wideOf .branch 11⟩ ∈ code ∧ ¬ Restores code 4 0 11) ∧
    ∃ code, decodeAll (codeOfText breakInTry) = .ok code ∧
      ⟨6, .wideOf .branch 19⟩ ∈ code ∧ ¬ Restores code 6 0 19 := by
  constructor
  · have bytes : codeOfText breakInCall =
        [0x24, 0x27, 0, 8, 0x5F, 0, 11, 0x18, 0x2A, 0, 0x58, 2] := by
      decide +kernel
    let code : List Located :=
      [⟨0, .shortest .pushConstant 4⟩, ⟨1, .shortest .pushConstant 8⟩, ⟨4, .wideOf .branch 11⟩,
        ⟨7, .shortest .push 0⟩, ⟨8, .shortest .call 2⟩, ⟨9, .ofSimple .pop⟩,
        ⟨10, .shortest .branch 0⟩, ⟨11, .ofSimple .ret⟩]
    refine ⟨code, by rw [bytes]; rfl, by decide, fun restores => ?_⟩
    have one : Walk code 1 1 0 := Walk.start.next (.shortest .pushConstant 4) (by decide) rfl
    have two : Walk code 4 2 0 := one.next (.shortest .pushConstant 8) (by decide) rfl
    exact absurd ((restores 0 0 .start).1 2 0 two).1 (by decide)
  · have bytes : codeOfText breakInTry =
        [0x18, 0x27, 0, 0x3C, 0xC9, 0x24, 0x5F, 0, 19, 7, 0, 1, 0x5F, 0, 18, 7, 0, 1, 0x58, 2] := by
      decide +kernel
    let code : List Located :=
      [⟨0, .shortest .push 0⟩, ⟨1, .shortest .pushConstant 60⟩, ⟨4, .shortest .newHandlers 1⟩,
        ⟨5, .shortest .pushConstant 4⟩, ⟨6, .wideOf .branch 19⟩, ⟨9, .ofSimple .popHandlers⟩,
        ⟨12, .wideOf .branch 18⟩, ⟨15, .ofSimple .popHandlers⟩, ⟨18, .shortest .branch 0⟩,
        ⟨19, .ofSimple .ret⟩]
    refine ⟨code, by rw [bytes]; rfl, by decide, fun restores => ?_⟩
    have one : Walk code 1 1 0 := Walk.start.next (.shortest .push 0) (by decide) rfl
    have two : Walk code 4 2 0 := one.next (.shortest .pushConstant 60) (by decide) rfl
    have installed : Walk code 5 0 1 := two.next (.shortest .newHandlers 1) (by decide) rfl
    have value : Walk code 6 1 1 := installed.next (.shortest .pushConstant 4) (by decide) rfl
    exact absurd ((restores 0 0 .start).1 1 1 value).2 (by decide)

end Compiler

end NewtonScript
