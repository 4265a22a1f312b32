/-!
# Double-precision numbers

A real number of the language is a binary64 word.  The word itself is kept, so
that signed zeros and the payloads of NaN are told apart where identity
matters; comparison as numbers is a separate relation.
-/

namespace NewtonScript

/-- A binary64 number, by its 64-bit word. -/
structure Double where
  bits : UInt64
deriving DecidableEq, Repr, Inhabited

namespace Double

/-- Whether the sign bit is set. -/
def isNegative (x : Double) : Bool := x.bits >>> 63 == 1

/-- The biased exponent, from 0 to 2047. -/
def exponentField (x : Double) : Nat := ((x.bits >>> 52) &&& 0x7FF).toNat

/-- The 52 stored bits of the significand. -/
def fractionField (x : Double) : Nat := (x.bits &&& 0xFFFFFFFFFFFFF).toNat

/-- Neither a number nor an infinity. -/
def isNaN (x : Double) : Bool := x.exponentField == 2047 && x.fractionField != 0

/-- Whether the word stands for a number. -/
def isFinite (x : Double) : Bool := x.exponentField != 2047

/-- The significand of a finite number as an integer: its magnitude is
`significand * 2 ^ (scale - 1074)`. -/
def significand (x : Double) : Nat :=
  if x.exponentField = 0 then x.fractionField else Nat.pow 2 52 + x.fractionField

/-- The binary scale of a finite number, counted from the smallest one. -/
def scale (x : Double) : Nat := x.exponentField - 1

/-- The number with the opposite sign.  Only the sign bit changes, also for a
NaN and for zero. -/
def neg (x : Double) : Double := ⟨x.bits ^^^ 0x8000000000000000⟩

def infinity : Double := ⟨0x7FF0000000000000⟩

/-- The quiet NaN without payload. -/
def nan : Double := ⟨0x7FF8000000000000⟩

/-- Equality as numbers: a NaN differs from everything, and the two zeros are
equal. -/
def numericEq (x y : Double) : Bool :=
  !x.isNaN && !y.isNaN && (x.bits == y.bits || (x.bits ||| y.bits) <<< 1 == 0)

/-- The magnitude of a finite number as a fraction. -/
def ratio (x : Double) : Nat × Nat :=
  (x.significand * Nat.pow 2 x.scale, Nat.pow 2 1074)

/-- The magnitude of a finite number, when it is an integer. -/
def integer? (x : Double) : Option Nat :=
  if x.isFinite && x.ratio.1 % x.ratio.2 == 0 then some (x.ratio.1 / x.ratio.2) else none

end Double

end NewtonScript
