import NewtonScript.Bytecode.Instruction
import NewtonScript.Text.Hex

/-!
# Reading code back

Code is read from its first byte on, one instruction after the other.  Reading
stops at the end, at a byte that begins no instruction, or at a wide
instruction whose operand is cut off.
-/

namespace NewtonScript.Bytecode

/-- Why code cannot be read. -/
inductive DecodeError where
  | unknownOpcode (offset : Nat) (byte : UInt8)
  | truncated (offset : Nat)
deriving DecidableEq, Repr

def DecodeError.message : DecodeError → String
  | unknownOpcode offset byte =>
      "unknown opcode byte 0x" ++ Text.hexLower 2 byte.toNat ++ " at " ++ toString offset
  | truncated offset => "instruction at " ++ toString offset ++ " is cut short"

/-- The instructions that were read, the position at which reading stopped,
and why it stopped before the end, if it did. -/
structure Decoding where
  instructions : List Located
  offset : Nat
  error : Option DecodeError
deriving DecidableEq, Repr

namespace Decoding

/-- The operand in two bytes, the high one first. -/
def operandOf (high low : UInt8) : UInt16 :=
  high.toUInt16 <<< 8 ||| low.toUInt16

/-- Read the rest of some code.  What was read already comes latest first. -/
def walk : List UInt8 → Nat → List Located → Decoding
  | [], offset, found => ⟨found.reverse, offset, none⟩
  | byte :: rest, offset, found =>
      match Opcode.ofCode? (byte >>> 3) with
      | none => ⟨found.reverse, offset, some (.unknownOpcode offset byte)⟩
      | some op =>
          if byte &&& 7 = wideMark then
            match rest with
            | high :: low :: rest =>
                walk rest (offset + 3) (⟨offset, ⟨op, operandOf high low, true⟩⟩ :: found)
            | short => ⟨found.reverse, offset + 1 + short.length, some (.truncated offset)⟩
          else
            walk rest (offset + 1) (⟨offset, ⟨op, (byte &&& 7).toUInt16, false⟩⟩ :: found)

/-- Decode from the first byte on. -/
def ofBytes (bytes : List UInt8) : Decoding :=
  walk bytes 0 []

end Decoding

/-- Decode bytes that are all instructions. -/
def decodeAll (bytes : List UInt8) : Except DecodeError (List Located) :=
  let decoding := Decoding.ofBytes bytes
  match decoding.error with
  | some error => .error error
  | none => .ok decoding.instructions

end NewtonScript.Bytecode
