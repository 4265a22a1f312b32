import NewtonScript.Proofs.Code.Decode
import NewtonScript.Proofs.Code.Immediate
import NewtonScript.Proofs.Flow.Annotation
import NewtonScript.Proofs.Flow.Items

/-!
# The control flow of decoded code

An instruction leads to the next one, to the target of a branch, or, where
handlers are installed, to the handlers whose addresses were pushed before.
Along every edge the levels of laid out code change by the effect of the
instruction.  A break that stands above waiting operands or inside handlers is
the only exception: it leaves them behind.
-/

namespace NewtonScript.Bytecode

open Instruction

variable {located : Located} {offset : Nat} {instr : Instruction}

/-- The address that an instruction pushes. -/
def Instruction.address? (instr : Instruction) : Option Nat :=
  match Immediate.toValue instr.operand with
  | .int address => some address.toNat
  | _ => none

/-- The addresses in a table of handlers: every second instruction pushes
one. -/
def handlerAddresses : List Located → List Nat
  | _ :: pushed :: rest => pushed.instruction.address?.toList ++ handlerAddresses rest
  | _ => []

/-- Whether execution may go on behind an instruction. -/
def Instruction.passes (instr : Instruction) : Bool :=
  instr.op != .branch && instr.simple? != some .ret

/-- Where an instruction of some code may lead. -/
inductive Edge (code : List Located) : Located → Nat → Prop where
  | next {located : Located} (member : located ∈ code) (passes : located.instruction.passes) :
      Edge code located (located.offset + located.instruction.size)
  | branch {located : Located} (member : located ∈ code)
      (branches : located.instruction.op.isBranch) :
      Edge code located located.instruction.operand.toNat
  | handler {located : Located} {before table after : List Located} {address : Nat}
      (split : code = before ++ (table ++ located :: after))
      (installs : located.instruction.op = .newHandlers)
      (length : table.length = 2 * located.instruction.operand.toNat)
      (entry : address ∈ handlerAddresses table) : Edge code located address

/-! ## Instructions and cells -/

theorem locate_eq_append {cells : List Cell} {first second : List Located}
    (split : locate (cells.map Cell.instr) offset = first ++ second) :
    ∃ front back, cells = front ++ back ∧
      first = locate (front.map Cell.instr) offset ∧
      second = locate (back.map Cell.instr) (offset + bytesOf front) := by
  induction first generalizing cells offset with
  | nil => exact ⟨[], cells, rfl, rfl, split.symm⟩
  | cons located rest ih =>
    cases cells with
    | nil => simp [locate] at split
    | cons cell cells =>
      simp only [List.map_cons, locate, List.cons_append, List.cons.injEq] at split
      obtain ⟨rfl, split⟩ := split
      obtain ⟨front, back, rfl, rfl, rfl⟩ := ih split
      refine ⟨cell :: front, back, rfl, rfl, ?_⟩
      rw [bytesOf_cons, ← Nat.add_assoc]
      rfl

theorem rowSize_map_instruction (cells : List Cell) :
    rowSize (cells.map Cell.instr) = bytesOf cells := by
  induction cells with
  | nil => rfl
  | cons cell rest ih =>
    simp only [List.map_cons, rowSize, bytesOf_cons, ih]
    rfl

theorem mem_locate_iff {cells : List Cell} :
    located ∈ locate (cells.map Cell.instr) 0 ↔
      ∃ before cell after, cells = before ++ cell :: after ∧
        located = ⟨bytesOf before, cell.instr⟩ := by
  constructor
  · intro member
    obtain ⟨first, second, split⟩ := List.append_of_mem member
    obtain ⟨before, back, rfl, -, behind⟩ := locate_eq_append split
    cases back with
    | nil => simp [locate] at behind
    | cons cell after =>
      simp only [List.map_cons, locate, List.cons.injEq, Nat.zero_add] at behind
      exact ⟨before, cell, after, rfl, behind.1⟩
  · rintro ⟨before, cell, after, rfl, rfl⟩
    rw [List.map_append, locate_append, rowSize_map_instruction]
    simp [locate]

theorem length_locate (row : List Instruction) (offset : Nat) :
    (locate row offset).length = row.length := by
  induction row generalizing offset with
  | nil => rfl
  | cons instr rest ih => simp [locate, ih]

/-- The addresses in a table are read back. -/
theorem mem_of_mem_handlerAddresses {names : List Instruction} {addresses : List Nat}
    (reach : ∀ target, Cell.address target ∈ tableCells names addresses → target ≤ 8191)
    {address : Nat} (member : address ∈ handlerAddresses
      (locate ((tableCells names addresses).map Cell.instr) offset)) :
    address ∈ addresses := by
  induction names generalizing addresses offset with
  | nil => simp [tableCells, locate, handlerAddresses] at member
  | cons name names ih =>
    cases addresses with
    | nil => simp [tableCells, locate, handlerAddresses] at member
    | cons own addresses =>
      simp only [tableCells, List.map_cons, locate, handlerAddresses, List.mem_append]
        at member
      have near : own ≤ 8191 := reach own (by simp [tableCells])
      have read : (Cell.address own).instr.address? = some own := by
        have value : Immediate.toValue (Immediate.ofInt own) = .int own :=
          Immediate.toValue_ofInt (by simp only [Immediate.minImmediate]; omega)
            (by simp only [Immediate.maxImmediate]; omega)
        simp [address?, Cell.instr, value]
      rcases member with here | there
      · rw [read] at here
        simp only [Option.toList_some, List.mem_singleton] at here
        exact here ▸ List.mem_cons_self
      · refine List.mem_cons_of_mem own (ih ?_ there)
        intro target inside
        exact reach target (.tail _ (.tail _ inside))

/-! ## Edges and levels -/

/-- The break at a position, with its mark and the loop that it leaves. -/
def BreakAt (cells : List Cell) (offset : Nat) (mark : Mark) (bounds : LoopBounds) : Prop :=
  ∃ before after, cells = before ++ .leave mark (some bounds) :: after ∧ offset = bytesOf before

/-- The levels at both ends of an edge differ by the effect of its
instruction, less what is left behind. -/
structure Changes (mark : Mark) (instr : Instruction) (level level' : Level) : Prop where
  depth : (level'.depth + mark.operands : Int) = level.depth + instr.stackEffect
  handlers : (level'.handlers + mark.handlers : Int) = level.handlers + instr.handlerEffect

/-- The levels at both ends of an edge that leaves nothing behind. -/
theorem Changes.clear {level level' : Level}
    (depth : (level'.depth : Int) = level.depth + instr.stackEffect)
    (handlers : (level'.handlers : Int) = level.handlers + instr.handlerEffect) :
    Changes .clear instr level level' :=
  ⟨by simpa [Mark.clear] using depth, by simpa [Mark.clear] using handlers⟩

/-- The cells of the code of a function: all breaks are closed, handlers are
near, and no position is too large for an operand. -/
structure Complete (cells : List Cell) : Prop where
  closed : ∀ cell ∈ cells, cell.isOpen = false
  reach : ∀ target, Cell.address target ∈ cells → target ≤ 8191
  small : bytesOf cells < 65536

section

variable {pool : List Value} {base count : Nat} {distinct : Prop} {leaves : Mark → Prop}
  {finishes : Nat → Prop} {cells : List Cell} {levels : Nat → Option Level}

theorem Instruction.handlerEffect_of_straight (straight : instr.isStraight) :
    instr.handlerEffect = 0 := by
  simp only [isStraight, Bool.and_eq_true, bne_iff_ne] at straight
  simp [handlerEffect, straight.1.1.2, straight.2]

theorem Instruction.handlerEffect_of_isBranch (branches : instr.op.isBranch) :
    instr.handlerEffect = 0 := by
  rcases instr with ⟨op, operand, wide⟩
  cases op <;> simp_all [Opcode.isBranch, handlerEffect, simple?]

theorem Opcode.isBranch_of_taken? {op : Opcode} {count : Nat} (takes : op.taken? = some count) :
    op.isBranch := by
  cases op <;> simp_all [Opcode.taken?, Opcode.isBranch]

theorem Instruction.stackEffect_of_taken? {count : Nat}
    (takes : instr.op.taken? = some count) : instr.stackEffect = -count := by
  rcases instr with ⟨op, operand, wide⟩
  cases op <;> simp_all [Opcode.taken?, stackEffect] <;> omega

variable {before : List Cell} {next : Nat} {cell : Cell} {level : Level}

/-- Behind an instruction that passes there is the level that it leads to. -/
theorem Fits.passing
    (fits : Fits (rules pool base count distinct leaves finishes) ⟨0, 0⟩ levels before
      next cell level) (shallow : level.depth < 65536) (passes : cell.instr.passes) :
    ∃ level', levels next = some level' ∧ Changes .clear cell.instr level level' := by
  cases fits with
  | plain moves behind =>
    have behaves := moves.2 shallow
    refine ⟨_, behind, .clear behaves.effect ?_⟩
    simp [Cell.instr, handlerEffect_of_straight behaves.straight]
  | follows _ follows behind =>
    obtain ⟨-, op, effect, -⟩ := follows
    refine ⟨_, behind, .clear effect ?_⟩
    simp [Cell.instr, handlerEffect, simple?, op]
  | jump op _ => simp [Instruction.passes, Cell.instr, op] at passes
  | choice takes _ behind =>
    have branches := Opcode.isBranch_of_taken? takes
    refine ⟨_, behind, .clear ?_ ?_⟩
    · simp only [Cell.instr, stackEffect_of_taken? takes]
      omega
    · simp [Cell.instr, handlerEffect_of_isBranch branches]
  | address behind => exact ⟨_, behind, .clear rfl (by simp [Level.pushed]; rfl)⟩
  | install _ _ small behind _ =>
    refine ⟨_, behind, .clear ?_ ?_⟩
    · simp only [Cell.instr, installer, stackEffect, shortest, toNat_toUInt16 small]
      omega
    · simp [Cell.instr, installer, handlerEffect, shortest]
  | remove behind =>
    have effects : remover.stackEffect = 0 ∧ remover.handlerEffect = -1 := by decide
    refine ⟨_, behind, .clear ?_ ?_⟩
    · simp [Cell.instr, effects]
    · simp only [Cell.instr, effects]
      omega
  | unclosed _ => simp [Instruction.passes, Cell.instr, Buffer.reserved] at passes
  | leave _ _ _ _ => simp [Instruction.passes, Cell.instr, wideOf] at passes
  | finish _ _ =>
    have stops : (ofSimple .ret).passes = false := by decide
    simp [Cell.instr, stops] at passes

/-- The target of a branch has the level that it leads to.  A break leads to
the exit of its loop, whatever waits. -/
theorem Fits.branch
    (fits : Fits (rules pool base count distinct leaves finishes) ⟨0, 0⟩ levels before
      next cell level) (shallow : level.depth < 65536) (closed : cell.isOpen = false)
    (branches : cell.instr.op.isBranch) :
    ∃ level' mark, levels cell.instr.operand.toNat = some level' ∧
      Changes mark cell.instr level level' ∧
        (mark = .clear ∨ leaves mark ∧ ∃ bounds, cell = .leave mark (some bounds)) := by
  cases fits with
  | plain moves _ =>
    have straight := (moves.2 shallow).straight
    simp only [isStraight, Bool.and_eq_true] at straight
    simp only [Cell.instr] at branches
    simp [branches] at straight
  | follows _ follows _ =>
    obtain ⟨-, op, -⟩ := follows
    simp [Cell.instr, op, Opcode.isBranch] at branches
  | jump op target =>
    refine ⟨level, .clear, target, .clear ?_ ?_, .inl rfl⟩
    · simp [Cell.instr, stackEffect, op]
    · rw [handlerEffect_of_isBranch branches, Int.add_zero]
  | choice takes target _ =>
    refine ⟨_, .clear, target, .clear ?_ ?_, .inl rfl⟩
    · simp only [Cell.instr, stackEffect_of_taken? takes]
      omega
    · rw [handlerEffect_of_isBranch branches, Int.add_zero]
  | address _ => cases branches
  | install _ _ _ _ _ => cases branches
  | remove _ => cases branches
  | unclosed _ => cases closed
  | @leave mark bounds entry known _ left small =>
    have operand : (Cell.leave mark (some bounds)).instr.operand.toNat = bounds.exit :=
      toNat_toUInt16 small
    refine ⟨entry.pushed, mark, operand ▸ left, ⟨?_, ?_⟩, .inr ⟨known, bounds, rfl⟩⟩
    · simp [Cell.instr, stackEffect, wideOf, Level.pushed, Mark.levelAbove]
    · rw [handlerEffect_of_isBranch branches]
      simp [Level.pushed, Mark.levelAbove]
  | finish _ _ => cases branches

/-- A handler begins at the level behind the instruction that installed it. -/
theorem Fits.handler {front table : List Cell} {address : Nat}
    (fits : Fits (rules pool base count distinct leaves finishes) ⟨0, 0⟩ levels
      (front ++ table) next cell level) (shallow : level.depth < 65536)
    (reach : ∀ target, Cell.address target ∈ table → target ≤ 8191)
    (installs : cell.instr.op = .newHandlers) (length : table.length = 2 * cell.instr.operand.toNat)
    (entry : address ∈ handlerAddresses (locate (table.map Cell.instr) offset)) :
    ∃ level', levels address = some level' ∧ Changes .clear cell.instr level level' := by
  generalize equal' : front ++ table = before at fits
  cases fits with
  | plain moves _ =>
    have straight := (moves.2 shallow).straight
    simp only [Cell.instr] at installs
    simp [isStraight, installs] at straight
  | follows _ follows _ =>
    obtain ⟨-, op, -⟩ := follows
    simp [Cell.instr, op] at installs
  | jump op _ => simp [Cell.instr, op] at installs
  | choice takes _ _ =>
    simp only [Cell.instr] at installs
    simp [installs, Opcode.taken?] at takes
  | address _ => cases installs
  | @install own names addresses depth handlers equal few small behind entered =>
    have operand : (Cell.plain (installer names.length)).instr.operand.toNat =
        names.length := toNat_toUInt16 small
    rw [operand, ← length_tableCells few] at length
    obtain ⟨-, rfl⟩ := List.append_inj' (equal'.trans equal) length
    refine ⟨_, entered address (mem_of_mem_handlerAddresses reach entry), .clear ?_ ?_⟩
    · simp only [Cell.instr, installer, stackEffect, shortest, toNat_toUInt16 small]
      omega
    · simp [Cell.instr, installer, handlerEffect, shortest]
  | remove _ => cases installs
  | unclosed _ => cases installs
  | leave _ _ _ _ => cases installs
  | finish _ _ => cases installs

/-- Every cell has a level that fits, and no level is deep. -/
theorem Annotated.at_split {rules : Rules Instruction} (annotated : Annotated rules cells levels)
    (complete : Complete cells) {after : List Cell} (split : cells = before ++ cell :: after) :
    ∃ level, levels (bytesOf before) = some level ∧ level.depth < 65536 ∧
      Fits rules ⟨0, 0⟩ levels before (bytesOf before + cell.size) cell level := by
  obtain ⟨level, known, low, fits⟩ := annotated.fits before cell after split
  have small := complete.small
  rw [split, bytesOf_append] at small
  exact ⟨level, known, by omega, fits⟩

/-- Along every edge the levels change by the effect of the instruction, less
what a break leaves behind. -/
theorem Annotated.edge
    (annotated : Annotated (rules pool base count distinct leaves finishes) cells levels)
    (complete : Complete cells) {target : Nat}
    (edge : Edge (locate (cells.map Cell.instr) 0) located target) :
    ∃ level level' mark, levels located.offset = some level ∧ levels target = some level' ∧
      Changes mark located.instruction level level' ∧
        (mark = .clear ∨ leaves mark ∧ ∃ bounds, BreakAt cells located.offset mark bounds) := by
  cases edge with
  | next member passes =>
    obtain ⟨before, cell, after, split, rfl⟩ := mem_locate_iff.mp member
    obtain ⟨level, known, shallow, fits⟩ := annotated.at_split complete split
    obtain ⟨level', known', changes⟩ := fits.passing shallow passes
    exact ⟨level, level', .clear, known, known', changes, .inl rfl⟩
  | branch member branches =>
    obtain ⟨before, cell, after, split, rfl⟩ := mem_locate_iff.mp member
    obtain ⟨level, known, shallow, fits⟩ := annotated.at_split complete split
    have closed := complete.closed cell (by simp [split])
    obtain ⟨level', mark, known', changes, left⟩ := fits.branch shallow closed branches
    refine ⟨level, level', mark, known, known', changes, left.imp id ?_⟩
    rintro ⟨leaves, bounds, rfl⟩
    exact ⟨leaves, bounds, before, after, split, rfl⟩
  | handler split installs length entry =>
    obtain ⟨front, back, rfl, -, inBack⟩ := locate_eq_append split
    obtain ⟨table, rest, rfl, rfl, inRest⟩ := locate_eq_append inBack.symm
    cases rest with
    | nil => cases inRest
    | cons cell after =>
      obtain ⟨rfl, -⟩ := inRest
      rw [length_locate, List.length_map] at length
      have split' : front ++ (table ++ cell :: after) = (front ++ table) ++ cell :: after := by
        simp
      obtain ⟨level, known, shallow, fits⟩ := annotated.at_split complete split'
      obtain ⟨level', known', changes⟩ := fits.handler shallow
        (fun target member => complete.reach target (by simp [member])) installs length entry
      refine ⟨level, level', .clear, ?_, known', changes, .inl rfl⟩
      rw [← known, bytesOf_append, Nat.zero_add]

/-- A break stands above the level at which its loop was entered, and the loop
is left with one value more than it was entered with. -/
theorem Annotated.leave {rules : Rules Instruction} (annotated : Annotated rules cells levels)
    {mark : Mark} {bounds : LoopBounds} (leaves : BreakAt cells offset mark bounds) :
    rules.Leaves mark ∧ ∃ entry, levels bounds.entry = some entry ∧
      levels offset = some (mark.levelAbove entry) ∧ levels bounds.exit = some entry.pushed := by
  obtain ⟨before, after, split, rfl⟩ := leaves
  obtain ⟨level, known, -, fits⟩ := annotated.fits before _ after split
  cases fits with
  | leave leaves entered left _ => exact ⟨leaves, _, entered, known, left⟩

/-- A return takes one value, whatever waits below it. -/
theorem Annotated.finish
    (annotated : Annotated (rules pool base count distinct leaves finishes) cells levels)
    (complete : Complete cells) (member : located ∈ locate (cells.map Cell.instr) 0)
    (returns : located.instruction.simple? = some .ret) :
    ∃ operands handlers, finishes operands ∧ levels located.offset = some ⟨operands + 1, handlers⟩ := by
  obtain ⟨before, cell, after, split, rfl⟩ := mem_locate_iff.mp member
  obtain ⟨level, known, shallow, fits⟩ := annotated.at_split complete split
  cases fits with
  | plain moves _ =>
    have straight := (moves.2 shallow).straight
    simp only [Cell.instr] at returns
    simp [isStraight, returns] at straight
  | follows _ follows _ => simp [Cell.instr, simple?, follows.2.1] at returns
  | jump op _ => simp [Cell.instr, simple?, op] at returns
  | @choice instr _ _ _ takes _ _ =>
    simp only [Cell.instr, simple?] at returns
    cases op : instr.op <;> simp_all [Opcode.taken?]
  | address _ => cases returns
  | install _ _ _ _ _ => cases returns
  | remove _ => cases returns
  | unclosed _ => cases returns
  | leave _ _ _ _ => cases returns
  | finish handlers known' => exact ⟨_, handlers, known', known⟩

end

end NewtonScript.Bytecode
