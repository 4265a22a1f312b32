import NewtonScript.Text.Alphabetic
import NewtonScript.Text.Numeric

/-!
# Character classes

The classes of characters that separate tokens and spell names, and the value
of digits.  Blanks, letters and numerals are those of Unicode; digits are only
those of ASCII.
-/

namespace NewtonScript.Text

/-- White space, as Unicode defines it. -/
def isBlank (c : Char) : Bool :=
  let code := c.toNat
  (9 ≤ code && code ≤ 13) || code == 0x20 ||
    (128 ≤ code &&
      inRanges [(0x85, 0x85), (0xA0, 0xA0), (0x1680, 0x1680), (0x2000, 0x200A),
        (0x2028, 0x2029), (0x202F, 0x202F), (0x205F, 0x205F), (0x3000, 0x3000)] code)

/-- Letters of any script. -/
def isLetter (c : Char) : Bool :=
  if c.toNat < 128 then c.isAlpha else inRanges alphabeticRanges c.toNat

/-- Numerals of any script. -/
def isNumeral (c : Char) : Bool :=
  if c.toNat < 128 then c.isDigit else inRanges numericRanges c.toNat

/-- Characters that can start a bare name. -/
def isNameStart (c : Char) : Bool :=
  isLetter c || c == '_'

/-- Characters that can continue a bare name. -/
def isNamePart (c : Char) : Bool :=
  isLetter c || isNumeral c || c == '_'

/-- The value of a hexadecimal digit of either case. -/
def hexValue? (c : Char) : Option Nat :=
  if '0' ≤ c ∧ c ≤ '9' then some (c.toNat - '0'.toNat)
  else if 'a' ≤ c ∧ c ≤ 'f' then some (c.toNat - 'a'.toNat + 10)
  else if 'A' ≤ c ∧ c ≤ 'F' then some (c.toNat - 'A'.toNat + 10)
  else none

/-- Hexadecimal digits of either case. -/
def isHexDigit (c : Char) : Bool :=
  (hexValue? c).isSome

/-- Printing characters of ASCII other than the space. -/
def isGraphic (c : Char) : Bool :=
  0x21 ≤ c.toNat && c.toNat ≤ 0x7E

end NewtonScript.Text
