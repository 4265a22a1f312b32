import NewtonScript.Bytecode.Instruction

/-!
# Code under construction

The code of a function is collected as a row of instructions.  A branch whose
target is not known yet is reserved in the wide form and given its operand
later, which does not move anything behind it.  Operands that do not fit into
16 bits are refused and leave the buffer as it was.
-/

namespace NewtonScript.Bytecode

/-- An operand that does not fit into 16 bits. -/
structure OperandTooLarge where
  op : Opcode
  operand : Nat
deriving DecidableEq, Repr

def OperandTooLarge.message (problem : OperandTooLarge) : String :=
  "operand " ++ toString problem.operand ++ " of `" ++ problem.op.text ++ "` does not fit in 16 bits"

/-- A reserved instruction: its place in the row, and the position of its
first byte. -/
structure Label where
  index : Nat
  position : Nat
deriving DecidableEq, Repr, Inhabited

/-- The instructions so far, and the number of their bytes. -/
structure Buffer where
  instructions : Array Instruction := #[]
  size : Nat := 0
deriving Inhabited

namespace Buffer

def empty : Buffer := {}

/-- Add an instruction at the end. -/
def push (buffer : Buffer) (instruction : Instruction) : Buffer :=
  ⟨buffer.instructions.push instruction, buffer.size + instruction.size⟩

/-- An operand, if 16 bits hold it. -/
def operand16 (op : Opcode) (operand : Nat) : Except OperandTooLarge UInt16 :=
  if operand < 65536 then .ok operand.toUInt16 else .error ⟨op, operand⟩

/-- Add an operation in the shortest form that holds its operand. -/
def emit (buffer : Buffer) (op : Opcode) (operand : Nat) : Except OperandTooLarge Buffer :=
  (operand16 op operand).map fun operand => buffer.push (.shortest op operand)

def emitSimple (buffer : Buffer) (op : SimpleOp) : Buffer :=
  buffer.push (.ofSimple op)

/-- The label of the next instruction. -/
def nextLabel (buffer : Buffer) : Label :=
  ⟨buffer.instructions.size, buffer.size⟩

/-- An operation in the wide form whose operand is not known yet. -/
def reserved (op : Opcode) : Instruction :=
  ⟨op, 0, true⟩

/-- Reserve an operation in the wide form. -/
def reserve (buffer : Buffer) (op : Opcode) : Label × Buffer :=
  (buffer.nextLabel, buffer.push (reserved op))

/-- The operation of a labelled instruction. -/
def opAt (buffer : Buffer) (label : Label) : Opcode :=
  (buffer.instructions.getD label.index (reserved .simple)).op

/-- Replace the operand of the instruction at a label. -/
def setOperand (buffer : Buffer) (label : Label) (operand : UInt16) : Buffer :=
  { buffer with
    instructions :=
      buffer.instructions.modify label.index fun instruction => { instruction with operand } }

/-- Give a reserved operation its operand. -/
def patch (buffer : Buffer) (label : Label) (operand : Nat) : Except OperandTooLarge Buffer :=
  (operand16 (buffer.opAt label) operand).map fun operand => buffer.setOperand label operand

/-- Let a reserved branch lead to the end of the code so far. -/
def patchHere (buffer : Buffer) (label : Label) : Except OperandTooLarge Buffer :=
  buffer.patch label buffer.size

/-- The encoded instructions. -/
def bytes (buffer : Buffer) : List UInt8 :=
  buffer.instructions.toList.flatMap Instruction.encode

@[simp]
theorem size_push (buffer : Buffer) (instruction : Instruction) :
    (buffer.push instruction).size = buffer.size + instruction.size := rfl

end Buffer

end NewtonScript.Bytecode
