import NewtonScript.Value

/-!
# Immediate values

Small integers, most characters, `nil` and `true` fit into an operand.  The
lower bits of the operand tell what it is.
-/

namespace NewtonScript.Bytecode.Immediate

/-- The operand that pushes nil. -/
def nilRef : UInt16 := 0x02

/-- The operand that pushes true. -/
def truthRef : UInt16 := 0x1A

/-- The least integer that an operand holds. -/
def minImmediate : Int := -8192

def maxImmediate : Int := 8191

/-- The operand of an integer: its value shifted left by two bits, of which the
lower sixteen are kept. -/
def ofInt (n : Int) : UInt16 :=
  (4 * n % 65536).toNat.toUInt16

/-- The operand of a value, if it has one. -/
def ofValue? : Value → Option UInt16
  | .nil => some nilRef
  | .truth => some truthRef
  | .int n => if minImmediate ≤ n ∧ n ≤ maxImmediate then some (ofInt n) else none
  | .char unit => if unit < 0x1000 then some (unit <<< 4 ||| 6) else none
  | _ => none

/-- An operand read as a signed number. -/
def signed (operand : UInt16) : Int :=
  if operand < 0x8000 then operand.toNat else (operand.toNat : Int) - 65536

/-- The value of an operand.  Operands of no value are shown as magic
pointers. -/
def toValue (operand : UInt16) : Value :=
  if operand = nilRef then
    .nil
  else if operand = truthRef then
    .truth
  else if operand &&& 0xF = 6 then
    .char (operand >>> 4)
  else if operand &&& 3 = 0 then
    .int (signed operand / 4)
  else
    .magic operand.toNat

end NewtonScript.Bytecode.Immediate
