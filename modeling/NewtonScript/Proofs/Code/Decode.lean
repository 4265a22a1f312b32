import NewtonScript.Bytecode.Decoder
import NewtonScript.Proofs.Code.Primitive

/-!
# Reading rows of instructions back

The bytes of a row of instructions are read as exactly these instructions,
each at the position of its first byte.
-/

namespace NewtonScript.Bytecode

open Instruction

/-- The short form is only used for operands that it holds. -/
def Instruction.Canonical (instr : Instruction) : Prop :=
  instr.wide = false → instr.operand ≤ maxShortOperand

/-- The instructions of a row with their positions. -/
def locate : List Instruction → Nat → List Located
  | [], _ => []
  | instr :: rest, offset => ⟨offset, instr⟩ :: locate rest (offset + instr.size)

/-- The number of bytes of a row of instructions. -/
def rowSize : List Instruction → Nat
  | [] => 0
  | instr :: rest => instr.size + rowSize rest

theorem length_flatMap_encode (row : List Instruction) :
    (row.flatMap encode).length = rowSize row := by
  induction row with
  | nil => rfl
  | cons instr rest ih => simp [rowSize, ih]

theorem Instruction.canonical_shortest (op : Opcode) (operand : UInt16) :
    (shortest op operand).Canonical := by
  intro short
  simpa [shortest] using short

theorem Instruction.canonical_ofSimple (op : SimpleOp) : (ofSimple op).Canonical := by
  cases op <;> simp [Canonical, ofSimple, SimpleOp.encoding, maxShortOperand]

theorem Instruction.canonical_of_wide {instr : Instruction} (wide : instr.wide) :
    instr.Canonical := by
  intro short
  rw [wide] at short
  cases short

theorem operandOf_bytes (operand : UInt16) :
    Decoding.operandOf (operand >>> 8).toUInt8 operand.toUInt8 = operand := by
  unfold Decoding.operandOf
  apply UInt16.toNat_inj.mp
  have small : operand.toNat < 2 ^ 16 := operand.toNat_lt
  have low : operand.toNat % 2 ^ 8 < 2 ^ 8 := Nat.mod_lt _ (by decide)
  have shift : UInt16.toNat 8 % 16 = 8 := rfl
  have high : (operand.toNat >>> 8 % 2 ^ 8) <<< 8 % 2 ^ 16 = 2 ^ 8 * (operand.toNat / 2 ^ 8) := by
    omega
  simp only [UInt16.toNat_or, UInt16.toNat_shiftLeft, UInt8.toNat_toUInt16, UInt16.toNat_toUInt8,
    UInt16.toNat_shiftRight, shift, high]
  rw [← Nat.two_pow_add_eq_or_of_lt low]
  exact Nat.div_add_mod _ _

theorem shortByte (op : Opcode) {operand : UInt16} (small : operand ≤ maxShortOperand) :
    let byte := op.code <<< 3 ||| operand.toUInt8
    byte >>> 3 = op.code ∧ byte &&& 7 ≠ wideMark ∧ (byte &&& 7).toUInt16 = operand := by
  have cases_ : operand = 0 ∨ operand = 1 ∨ operand = 2 ∨ operand = 3 ∨ operand = 4 ∨ operand = 5 ∨
      operand = 6 := by
    have : operand.toNat ≤ 6 := small
    simp only [← UInt16.toNat_inj]
    simp
    omega
  rcases cases_ with rfl | rfl | rfl | rfl | rfl | rfl | rfl <;> cases op <;> decide

theorem wideByte (op : Opcode) :
    (op.code <<< 3 ||| wideMark) >>> 3 = op.code ∧
      (op.code <<< 3 ||| wideMark) &&& 7 = wideMark := by
  cases op <;> decide

/-- One instruction is read from its bytes. -/
theorem walk_encode {instr : Instruction} (canonical : instr.Canonical)
    (rest : List UInt8) (offset : Nat) (found : List Located) :
    Decoding.walk (instr.encode ++ rest) offset found =
      Decoding.walk rest (offset + instr.size) (⟨offset, instr⟩ :: found) := by
  obtain ⟨op, operand, wide⟩ := instr
  cases wide with
  | true =>
    obtain ⟨code, mark⟩ := wideByte op
    simp only [encode, size, if_true, List.cons_append, List.nil_append]
    rw [Decoding.walk]
    simp [code, mark, operandOf_bytes]
  | false =>
    obtain ⟨code, mark, low⟩ := shortByte op (canonical rfl)
    simp only [encode, size, Bool.false_eq_true, if_false, List.cons_append, List.nil_append]
    rw [Decoding.walk]
    simp [code, if_neg mark, low]

/-- A row of instructions is read from its bytes. -/
theorem walk_row {row : List Instruction} (canonical : ∀ instr ∈ row, instr.Canonical)
    (rest : List UInt8) (offset : Nat) (found : List Located) :
    Decoding.walk (row.flatMap encode ++ rest) offset found =
      Decoding.walk rest (offset + rowSize row) ((locate row offset).reverse ++ found) := by
  induction row generalizing offset found with
  | nil => rfl
  | cons instr row ih =>
    rw [List.flatMap_cons, List.append_assoc, walk_encode (canonical _ List.mem_cons_self),
      ih fun other member => canonical other (List.mem_cons_of_mem _ member)]
    simp [locate, rowSize, Nat.add_assoc]

theorem decodeAll_flatMap_encode {row : List Instruction}
    (canonical : ∀ instr ∈ row, instr.Canonical) :
    decodeAll (row.flatMap encode) = .ok (locate row 0) := by
  have whole := walk_row canonical [] 0 []
  rw [List.append_nil] at whole
  simp [decodeAll, Decoding.ofBytes, whole, Decoding.walk]

theorem locate_append (first second : List Instruction) (offset : Nat) :
    locate (first ++ second) offset =
      locate first offset ++ locate second (offset + rowSize first) := by
  induction first generalizing offset with
  | nil => simp [locate, rowSize]
  | cons instr rest ih =>
    simp [locate, rowSize, ih, Nat.add_assoc]

/-! ## Laid out code -/

theorem Cell.canonical_close {cell : Cell} (canonical : cell.instr.Canonical)
    (loop : LoopBounds) : (cell.close loop).instr.Canonical := by
  rcases cell with _ | _ | ⟨mark, _ | bounds⟩ | _
  · exact canonical
  · exact canonical
  · exact canonical_of_wide rfl
  · exact canonical
  · exact canonical

theorem canonical_tableCells {names : List Instruction}
    (canonical : ∀ name ∈ names, name.Canonical) (addresses : List Nat) :
    ∀ cell ∈ tableCells names addresses, cell.instr.Canonical := by
  induction names generalizing addresses with
  | nil => simp [tableCells]
  | cons name rest ih =>
    cases addresses with
    | nil => simp [tableCells]
    | cons address others =>
      have inRest := ih (fun other member => canonical other (List.mem_cons_of_mem _ member)) others
      simp only [tableCells, List.forall_mem_cons]
      exact ⟨canonical name List.mem_cons_self, canonical_of_wide rfl, inRest⟩

/-- Code that is laid out has only canonical instructions if its items have. -/
theorem Fragment.canonical_cells {α : Type} {R : α → Instruction → Prop}
    (items : ∀ item instr, R item instr → instr.Canonical)
    {code : Fragment α} {code' : Fragment Instruction} (related : code.Rel R code') (start : Nat) :
    ∀ cell ∈ code'.cells start, cell.instr.Canonical := by
  have wide : ∀ op operand, (Cell.plain (.wideOf op operand)).instr.Canonical :=
    fun op operand => canonical_of_wide rfl
  have short : ∀ op operand, (Cell.plain (.shortest op operand)).instr.Canonical :=
    Instruction.canonical_shortest
  induction related generalizing start with
  | empty => simp [cells]
  | plain related =>
    simp only [cells, List.forall_mem_singleton]
    exact items _ _ related
  | append _ _ left right =>
    simp only [cells, List.forall_mem_append]
    exact ⟨left start, right _⟩
  | leave mark =>
    simp only [cells, List.forall_mem_singleton]
    exact canonical_of_wide rfl
  | finish operands =>
    simp only [cells, List.forall_mem_singleton]
    exact Instruction.canonical_ofSimple .ret
  | skip _ inner =>
    simp only [cells, List.forall_mem_cons]
    exact ⟨wide _ _, inner _⟩
  | fork _ _ left right =>
    simp only [cells, List.forall_mem_cons, List.forall_mem_append]
    exact ⟨wide _ _, left _, wide _ _, right _⟩
  | back _ inner =>
    simp only [cells, List.forall_mem_append, List.forall_mem_singleton]
    exact ⟨inner _, short _ _⟩
  | guarded _ _ left right =>
    simp only [cells, List.forall_mem_cons, List.forall_mem_append]
    exact ⟨left _, wide _ _, right _, short _ _, by simp⟩
  | entered _ _ left right =>
    simp only [cells, List.forall_mem_cons, List.forall_mem_append]
    exact ⟨wide _ _, left _, right _, short _ _, by simp⟩
  | scope _ inner =>
    simp only [cells, List.forall_mem_map]
    exact fun cell member => Cell.canonical_close (inner _ cell member) _
  | joined _ _ left right =>
    simp only [cells, List.forall_mem_cons, List.forall_mem_append]
    exact ⟨left _, wide _ _, right _⟩
  | handled table _ _ left right =>
    have paired := table.flip.imp fun name item related =>
      And.intro (items item name related) related
    have names := ((List.forall₂_and_left _ _).mp paired).1
    simp only [cells, List.forall_mem_cons, List.forall_mem_append]
    exact ⟨canonical_tableCells names _, short _ _, left _, Instruction.canonical_ofSimple _,
      wide _ _, right _, Instruction.canonical_ofSimple _, by simp⟩

end NewtonScript.Bytecode

namespace NewtonScript

open Bytecode

/-- A primitive is turned into a canonical instruction. -/
theorem Primitive.Realized.canonical {layout : FrameLayout} {pool : List Value}
    {maps : List FrameMap} {primitive : Primitive} {instr : Instruction}
    (realized : primitive.Realized layout pool maps instr) : instr.Canonical := by
  cases primitive with
  | value literal =>
    simp only [Realized] at realized
    split at realized
    · exact realized ▸ Instruction.canonical_shortest _ _
    · obtain ⟨_, _, _, _, _, rfl⟩ := realized
      exact Instruction.canonical_shortest _ _
  | text | path | map | function | lookup | assign =>
    obtain ⟨_, _, _, _, _, rfl⟩ := realized
    exact Instruction.canonical_shortest _ _
  | getVar | setVar | incrVar | op =>
    obtain ⟨_, rfl⟩ := realized
    exact Instruction.canonical_shortest _ _
  | simple operation => exact realized ▸ Instruction.canonical_ofSimple _

end NewtonScript
