import NewtonScript.Double

/-!
# Writing decimal numbers

A number is written with the fewest decimal digits that read back as the same
number, and of those with the decimal nearest to it; of two equally near ones
the larger is taken.  Exponents are never used: the digits are placed around
the point, with zeros where needed.
-/

namespace NewtonScript.Double

/-- The decimals that read back as a number, scaled by four units of its last
place: they lie between `low / den` and `high / den` around `mid / den`, the
ends included when the significand is even. -/
structure Interval where
  low : Nat
  mid : Nat
  high : Nat
  den : Nat
  closed : Bool

/-- The interval of the decimals that read back as a positive finite number.
Below a power of two the gap is half as wide. -/
def interval (x : Double) : Interval :=
  let unit := Nat.pow 2 x.scale
  let below := if x.fractionField = 0 && 1 < x.exponentField then 1 else 2
  { low := (4 * x.significand - below) * unit
    mid := 4 * x.significand * unit
    high := (4 * x.significand + 2) * unit
    den := Nat.pow 2 1076
    closed := x.significand % 2 == 0 }

/-- Whether `digits * 10 ^ power` lies in the interval. -/
def Interval.contains (range : Interval) (digits : Nat) (power : Int) : Bool :=
  let value := digits * range.den * Nat.pow 10 power.toNat
  let grid := Nat.pow 10 (-power).toNat
  if range.closed then
    range.low * grid ≤ value && value ≤ range.high * grid
  else
    range.low * grid < value && value < range.high * grid

/-- The decimal digits of a number without its power of ten: it stands for
`digits * 10 ^ power`. -/
structure Decimal where
  digits : Nat
  power : Int
deriving DecidableEq, Repr

/-- The nearest decimal on the grid of `10 ^ power` that lies in the interval,
if one of the two neighbours does. -/
def Interval.onGrid? (range : Interval) (power : Int) : Option Decimal :=
  let num := range.mid * Nat.pow 10 (-power).toNat
  let den := range.den * Nat.pow 10 power.toNat
  let lower := num / den
  match range.contains lower power, range.contains (lower + 1) power with
  | false, false => none
  | true, false => some ⟨lower, power⟩
  | false, true => some ⟨lower + 1, power⟩
  | true, true => if 2 * (num % den) < den then some ⟨lower, power⟩ else some ⟨lower + 1, power⟩

/-- The first decimal found on ever finer grids, starting at `10 ^ power`. -/
def Interval.search (range : Interval) : Nat → Int → Decimal
  | 0, power => ⟨range.mid * Nat.pow 10 (-power).toNat / (range.den * Nat.pow 10 power.toNat), power⟩
  | tries + 1, power =>
      match range.onGrid? power with
      | some decimal => decimal
      | none => range.search tries (power - 1)

/-- The power of ten of the first digit of a positive fraction. -/
def leadingPower (num den : Nat) : Int :=
  if den ≤ num then
    ((Nat.toDigits 10 (num / den)).length : Int) - 1
  else
    -((Nat.toDigits 10 (den / num)).length : Int)

/-- The shortest decimal of a positive finite number: no decimal with fewer
digits reads back.  The first grid holds only the power of ten above the
number; after it seventeen digits always suffice. -/
def shortest (x : Double) : Decimal :=
  let range := x.interval
  range.search 18 (leadingPower range.mid range.den + 1)

/-- Place digits around the point; zeros fill the gap on either side. -/
def Decimal.text (decimal : Decimal) : String :=
  let digits := Nat.toDigits 10 decimal.digits
  if 0 ≤ decimal.power then
    String.ofList (digits ++ List.replicate decimal.power.toNat '0')
  else
    let places := (-decimal.power).toNat
    let padded := List.replicate (places + 1 - digits.length) '0' ++ digits
    let split := padded.length - places
    String.ofList (padded.take split ++ '.' :: padded.drop split)

/-- The text of a sign and a magnitude. -/
def withSign (x : Double) (magnitude : String) : String :=
  if x.isNegative then "-" ++ magnitude else magnitude

/-- The shortest text of a number.  Integers have no point. -/
def text (x : Double) : String :=
  if x.isNaN then
    "NaN"
  else if !x.isFinite then
    x.withSign "inf"
  else if x.significand = 0 then
    x.withSign "0"
  else
    x.withSign x.shortest.text

/-- The text of a number in which integers are written out in full and end in
`.0`. -/
def textWithPoint (x : Double) : String :=
  match x.integer? with
  | some n => x.withSign (toString n ++ ".0")
  | none => x.text

end NewtonScript.Double
