import NewtonScript.Double
import NewtonScript.Text.Digits

/-!
# Reading decimal numbers

A decimal is read as the binary64 number nearest to it, a tie going to the
even significand.  Decimals of any length are read exactly; those too large
become infinite and those too small become zero.  An exponent below
`10 * exponentLimit` is read as it is written; of a larger one only the leading
digits count.
-/

namespace NewtonScript.Double

/-- The integer nearest to a quotient, a half going to the even neighbour. -/
def roundDiv (num den : Nat) : Nat :=
  let quotient := num / den
  let remainder := num % den
  if den < 2 * remainder || (2 * remainder == den && quotient % 2 == 1) then
    quotient + 1
  else
    quotient

/-- The positive number nearest to the fraction `num / den`.

The fraction is measured in units of the smallest number, `2 ^ -1074`.  The
word of a number with significand `m` and scale `k` is `k * 2 ^ 52 + m`, also
when rounding carries the significand to `2 ^ 53`. -/
def ofRatio (num den : Nat) : Double :=
  let units := num * Nat.pow 2 1074
  let whole := units / den
  let scale := if whole < Nat.pow 2 53 then 0 else Nat.log2 whole - 52
  let word := scale * Nat.pow 2 52 + roundDiv units (den * Nat.pow 2 scale)
  if word < infinity.bits.toNat then ⟨word.toUInt64⟩ else infinity

/-- The positive number nearest to `digits * 10 ^ exponent`.  Exponents that
no digits can make up for are settled without computing the power. -/
def ofDecimal (digits : Nat) (exponent : Int) : Double :=
  if digits = 0 then
    ⟨0⟩
  else if 400 < exponent then
    infinity
  else if (Nat.log2 digits : Int) + 1 + 3 * exponent < -1100 then
    ⟨0⟩
  else if 0 ≤ exponent then
    ofRatio (digits * Nat.pow 10 exponent.toNat) 1
  else
    ofRatio digits (Nat.pow 10 (-exponent).toNat)

/-- The number written with these digits before the point, these digits after
it, and this power of ten. -/
def ofDigits (whole fraction : List Char) (exponent : Int) : Double :=
  ofDecimal (Text.digitsValue 10 (whole ++ fraction)) (exponent - fraction.length)

/-- An exponent that has reached this value takes no further digit. -/
def exponentLimit : Nat := 65536

/-- Append a digit to an exponent, unless the exponent has reached its limit. -/
def pushExponentDigit (value : Nat) (digit : Char) : Nat :=
  if value < exponentLimit then value * 10 + Text.digitValue digit else value

/-- The value of an exponent's digits.  Those behind the digit that takes it to
`exponentLimit` are passed over. -/
def exponentValue (digits : List Char) : Nat :=
  digits.foldl pushExponentDigit 0

private theorem le_foldl_digits (digits : List Char) (value : Nat) :
    value ≤ digits.foldl (fun value digit => value * 10 + Text.digitValue digit) value := by
  induction digits generalizing value with
  | nil => exact Nat.le_refl value
  | cons digit rest ih =>
      have pushed := ih (value * 10 + Text.digitValue digit)
      simp only [List.foldl_cons]
      omega

private theorem foldl_pushExponentDigit (digits : List Char) (value : Nat)
    (small : digits.foldl (fun value digit => value * 10 + Text.digitValue digit) value <
      10 * exponentLimit) :
    digits.foldl pushExponentDigit value =
      digits.foldl (fun value digit => value * 10 + Text.digitValue digit) value := by
  induction digits generalizing value with
  | nil => rfl
  | cons digit rest ih =>
      simp only [List.foldl_cons] at small ⊢
      have pushed := le_foldl_digits rest (value * 10 + Text.digitValue digit)
      have below : value < exponentLimit := by omega
      rw [pushExponentDigit, if_pos below]
      exact ih _ small

/-- Read an exponent: an optional sign and at least one digit. -/
def readExponent? (text : List Char) : Option Int :=
  let (negative, digits) :=
    match text with
    | '-' :: rest => (true, rest)
    | '+' :: rest => (false, rest)
    | rest => (false, rest)
  if digits.isEmpty || !digits.all Char.isDigit then
    none
  else
    let value : Int := exponentValue digits
    some (if negative then -value else value)

/-- Read a number without a sign: `inf`, `infinity` or `nan` in any case, or
digits with an optional point and exponent. -/
def readMagnitude? (text : List Char) : Option Double :=
  let lower := text.map Char.toLower
  if lower = "inf".toList || lower = "infinity".toList then
    some infinity
  else if lower = "nan".toList then
    some nan
  else
    let whole := text.takeWhile Char.isDigit
    let rest := text.dropWhile Char.isDigit
    let (fraction, rest) :=
      match rest with
      | '.' :: rest => (rest.takeWhile Char.isDigit, rest.dropWhile Char.isDigit)
      | rest => ([], rest)
    if whole.isEmpty && fraction.isEmpty then
      none
    else
      match rest with
      | [] => some (ofDigits whole fraction 0)
      | mark :: rest =>
          if mark == 'e' || mark == 'E' then
            (readExponent? rest).map (ofDigits whole fraction)
          else
            none

/-- Read a number with an optional sign. -/
def read? : List Char → Option Double
  | '-' :: rest => (readMagnitude? rest).map neg
  | '+' :: rest => readMagnitude? rest
  | text => readMagnitude? text

end NewtonScript.Double
