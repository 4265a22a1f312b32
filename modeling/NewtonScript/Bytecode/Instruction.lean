import NewtonScript.Bytecode.Opcode

/-!
# Instructions and their bytes

An instruction byte holds the opcode in its upper five bits and an operand of
at most six in its lower three.  A seven there announces a 16-bit operand in
the two bytes that follow, the high one first.
-/

namespace NewtonScript.Bytecode

/-- The lower bits that announce a 16-bit operand. -/
def wideMark : UInt8 := 7

/-- The largest operand that fits into the instruction byte. -/
def maxShortOperand : UInt16 := 6

/-- An operation, its operand, and whether it is written in the wide form. -/
structure Instruction where
  op : Opcode
  operand : UInt16
  wide : Bool
deriving DecidableEq, Repr, Inhabited

namespace Instruction

def size (instruction : Instruction) : Nat :=
  if instruction.wide then 3 else 1

/-- The bytes of an instruction: one, or three with a wide operand. -/
def encode (instruction : Instruction) : List UInt8 :=
  if instruction.wide then
    [instruction.op.code <<< 3 ||| wideMark,
      (instruction.operand >>> 8).toUInt8, instruction.operand.toUInt8]
  else
    [instruction.op.code <<< 3 ||| instruction.operand.toUInt8]

/-- An operation in the shortest form that holds its operand. -/
def shortest (op : Opcode) (operand : UInt16) : Instruction :=
  ⟨op, operand, maxShortOperand < operand⟩

/-- A simple operation, numbered by its operand. -/
def ofSimple (op : SimpleOp) : Instruction :=
  ⟨.simple, op.encoding.1, op.encoding.2⟩

/-- The operation without operand that an instruction is, if it is one. -/
def simple? (instruction : Instruction) : Option SimpleOp :=
  match instruction.op with
  | .simple => SimpleOp.decode? instruction.operand instruction.wide
  | _ => none

/-- The text of an instruction in listings. -/
def text (instruction : Instruction) : String :=
  match instruction.simple? with
  | some op => op.text
  | none => instruction.op.text ++ " " ++ toString instruction.operand.toNat

@[simp]
theorem length_encode (instruction : Instruction) :
    instruction.encode.length = instruction.size := by
  unfold encode size
  split <;> rfl

theorem size_pos (instruction : Instruction) : 0 < instruction.size := by
  unfold size
  split <;> decide

end Instruction

/-- An instruction and the position of its first byte. -/
structure Located where
  offset : Nat
  instruction : Instruction
deriving DecidableEq, Repr, Inhabited

end NewtonScript.Bytecode
