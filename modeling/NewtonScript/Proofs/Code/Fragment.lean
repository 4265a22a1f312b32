import NewtonScript.Bytecode.Buffer
import NewtonScript.Bytecode.Immediate

/-!
# Structured code

A fragment is code whose branches are not yet numbers: it says which part a
branch skips, which part a loop repeats and which loop a break leaves.  Laying
a fragment out from a position on turns it into a row of cells, one for every
instruction, and all positions become operands.

A break is laid out as an open cell.  It is closed when the loop around it is
complete, because only then its exit is known.
-/

namespace NewtonScript.Bytecode

/-- What stands between a break and the entry of the loop that it leaves: the
operands that wait on the stack and the handler tables that are installed. -/
structure Mark where
  operands : Nat
  handlers : Nat
deriving DecidableEq, Repr

/-- Nothing stands between a break and its loop. -/
def Mark.clear : Mark := ⟨0, 0⟩

/-- Code with structured branches over items of a type. -/
inductive Fragment (α : Type) where
  | empty
  | plain (item : α)
  | append (first second : Fragment α)
  /-- A branch to the exit of the innermost loop. -/
  | leave (mark : Mark)
  /-- A return, with the number of operands that wait below its value. -/
  | finish (operands : Nat)
  /-- A branch over the body. -/
  | skip (op : Opcode) (body : Fragment α)
  /-- A branch to the second part; the first part branches over it. -/
  | fork (op : Opcode) (yes no : Fragment α)
  /-- A body, and behind it a branch to its beginning. -/
  | back (op : Opcode) (body : Fragment α)
  /-- A test and a body that branches back to it; the test may lead behind
  both. -/
  | guarded (test body : Fragment α)
  /-- A branch over a body to the test behind it, which may lead back to the
  body. -/
  | entered (op : Opcode) (body test : Fragment α)
  /-- The region that the breaks directly inside it leave. -/
  | scope (body : Fragment α)
  /-- Alternatives with a common end. -/
  | joined (first rest : Fragment α)
  /-- A body with handlers: the items push the names of the exceptions. -/
  | handled (names : List α) (body handlers : Fragment α)

/-- The loop that a break leaves: where it is entered and where it is left. -/
structure LoopBounds where
  entry : Nat
  exit : Nat
deriving DecidableEq, Repr

theorem toNat_toUInt16 {n : Nat} (small : n < 65536) : n.toUInt16.toNat = n := by
  simpa using small

/-- An operation in the wide form. -/
def Instruction.wideOf (op : Opcode) (operand : Nat) : Instruction :=
  ⟨op, operand.toUInt16, true⟩

/-- An instruction that has its place. -/
inductive Cell where
  | plain (instr : Instruction)
  /-- Push the address of a handler. -/
  | address (target : Nat)
  /-- A break, which is open as long as the bounds of its loop are unknown. -/
  | leave (mark : Mark) (loop : Option LoopBounds)
  | finish (operands : Nat)
deriving DecidableEq, Repr

namespace Cell

/-- The instruction in a cell. -/
def instr : Cell → Instruction
  | plain instr => instr
  | address target => ⟨.pushConstant, Immediate.ofInt target, true⟩
  | leave _ none => Buffer.reserved .branch
  | leave _ (some loop) => .wideOf .branch loop.exit
  | finish _ => .ofSimple .ret

/-- The number of bytes of a cell. -/
def size (cell : Cell) : Nat :=
  cell.instr.size

/-- Close a break: it leaves the loop with these bounds. -/
def close (loop : LoopBounds) : Cell → Cell
  | leave mark none => leave mark (some loop)
  | cell => cell

/-- Whether a cell is an open break. -/
def isOpen : Cell → Bool
  | leave _ none => true
  | _ => false

@[simp]
theorem size_plain (instr : Instruction) : (plain instr).size = instr.size := rfl

@[simp]
theorem size_address (target : Nat) : (address target).size = 3 := rfl

@[simp]
theorem size_leave (mark : Mark) (loop : Option LoopBounds) : (leave mark loop).size = 3 := by
  cases loop <;> rfl

@[simp]
theorem size_finish (operands : Nat) : (finish operands).size = 1 := rfl

@[simp]
theorem size_close (loop : LoopBounds) (cell : Cell) : (cell.close loop).size = cell.size := by
  rcases cell with _ | _ | ⟨mark, _ | bounds⟩ | _ <;> rfl

@[simp]
theorem isOpen_close (loop : LoopBounds) (cell : Cell) : (cell.close loop).isOpen = false := by
  rcases cell with _ | _ | ⟨mark, _ | bounds⟩ | _ <;> rfl

theorem close_eq_self {cell : Cell} (closed : cell.isOpen = false) (loop : LoopBounds) :
    cell.close loop = cell := by
  rcases cell with _ | _ | ⟨mark, _ | bounds⟩ | _
  · rfl
  · rfl
  · cases closed
  · rfl
  · rfl

theorem isOpen_iff {cell : Cell} : cell.isOpen ↔ ∃ mark, cell = leave mark none := by
  rcases cell with _ | _ | ⟨mark, _ | bounds⟩ | _ <;> simp [isOpen]

theorem size_pos (cell : Cell) : 0 < cell.size :=
  cell.instr.size_pos

end Cell

@[simp]
theorem Instruction.size_wideOf (op : Opcode) (operand : Nat) :
    (Instruction.wideOf op operand).size = 3 := rfl

/-! ## Rows of cells -/

/-- The number of bytes of a row. -/
def bytesOf : List Cell → Nat
  | [] => 0
  | cell :: rest => cell.size + bytesOf rest

@[simp]
theorem bytesOf_nil : bytesOf [] = 0 := rfl

@[simp]
theorem bytesOf_cons (cell : Cell) (rest : List Cell) :
    bytesOf (cell :: rest) = cell.size + bytesOf rest := rfl

@[simp]
theorem bytesOf_append (first second : List Cell) :
    bytesOf (first ++ second) = bytesOf first + bytesOf second := by
  induction first with
  | nil => simp
  | cons cell rest ih => simp [ih, Nat.add_assoc]

@[simp]
theorem bytesOf_map_close (loop : LoopBounds) (cells : List Cell) :
    bytesOf (cells.map (Cell.close loop)) = bytesOf cells := by
  induction cells with
  | nil => rfl
  | cons cell rest ih => simp [ih]

/-- The cells that push the names of exceptions and the addresses of their
handlers. -/
def tableCells : List Instruction → List Nat → List Cell
  | name :: names, address :: addresses =>
    .plain name :: .address address :: tableCells names addresses
  | _, _ => []

/-- The number of bytes of a table with an address for every name. -/
def tableSize : List Instruction → Nat
  | [] => 0
  | name :: names => name.size + 3 + tableSize names

section

variable {names : List Instruction} {addresses : List Nat}
  (length : addresses.length = names.length)

include length

theorem length_tableCells : (tableCells names addresses).length = 2 * names.length := by
  induction names generalizing addresses with
  | nil => rfl
  | cons name names ih =>
    obtain ⟨address, rest, rfl⟩ := List.exists_cons_of_length_eq_add_one length
    simp only [tableCells, List.length_cons, ih (Nat.succ.inj length)]
    omega

theorem bytesOf_tableCells : bytesOf (tableCells names addresses) = tableSize names := by
  induction names generalizing addresses with
  | nil => rfl
  | cons name names ih =>
    obtain ⟨address, rest, rfl⟩ := List.exists_cons_of_length_eq_add_one length
    simp only [tableCells, tableSize, bytesOf_cons, Cell.size_plain, Cell.size_address,
      ih (Nat.succ.inj length)]
    omega

end

/-- The instruction that installs handlers. -/
def installer (count : Nat) : Instruction :=
  .shortest .newHandlers count.toUInt16

/-- The instruction that removes the handlers installed last. -/
def remover : Instruction :=
  .ofSimple .popHandlers

@[simp]
theorem size_remover : remover.size = 3 := rfl

namespace Fragment

mutual

/-- The cells of a fragment that is laid out from a position on. -/
def cells : Fragment Instruction → Nat → List Cell
  | empty, _ => []
  | plain instr, _ => [.plain instr]
  | append first second, start =>
    let code := cells first start
    code ++ cells second (start + bytesOf code)
  | leave mark, _ => [.leave mark none]
  | finish operands, _ => [.finish operands]
  | skip op body, start =>
    let code := cells body (start + 3)
    .plain (.wideOf op (start + 3 + bytesOf code)) :: code
  | fork op yes no, start =>
    let first := cells yes (start + 3)
    let middle := start + 3 + bytesOf first + 3
    let second := cells no middle
    .plain (.wideOf op middle) :: (first ++
      .plain (.wideOf .branch (middle + bytesOf second)) :: second)
  | back op body, start =>
    cells body start ++ [.plain (.shortest op start.toUInt16)]
  | guarded test body, start =>
    let first := cells test start
    let middle := start + bytesOf first + 3
    let second := cells body middle
    let again : Cell := .plain (.shortest .branch start.toUInt16)
    first ++ .plain (.wideOf .branchIfFalse (middle + bytesOf second + again.size)) ::
      (second ++ [again])
  | entered op body test, start =>
    let first := cells body (start + 3)
    let middle := start + 3 + bytesOf first
    .plain (.wideOf .branch middle) :: (first ++ (cells test middle ++
      [.plain (.shortest op (start + 3).toUInt16)]))
  | scope body, start =>
    let code := cells body start
    code.map (.close ⟨start, start + bytesOf code⟩)
  | joined first rest, start =>
    let code := cells first start
    let middle := start + bytesOf code + 3
    let behind := cells rest middle
    code ++ .plain (.wideOf .branch (middle + bytesOf behind)) :: behind
  | handled names body handlers, start =>
    let installed := start + tableSize names + (installer names.length).size
    let code := cells body installed
    let first := installed + bytesOf code + 6
    let behind := cells handlers first
    tableCells names (entries handlers names.length first) ++ .plain (installer names.length) ::
      (code ++ .plain remover :: .plain (.wideOf .branch (first + bytesOf behind + 3)) ::
        (behind ++ [.plain remover]))

/-- The positions at which alternatives begin, given how many there are. -/
def entries : Fragment Instruction → Nat → Nat → List Nat
  | _, 0, _ => []
  | joined first rest, count + 2, start =>
    start :: entries rest (count + 1) (start + bytesOf (cells first start) + 3)
  | _, _ + 1, start => [start]

end

end Fragment

end NewtonScript.Bytecode
