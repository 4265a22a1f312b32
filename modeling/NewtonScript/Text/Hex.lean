/-!
# Numbers in base sixteen

Hexadecimal texts of numbers, in either case and padded with zeros to a given
width.
-/

namespace NewtonScript.Text

/-- Put zeros in front of a text until it has the given width. -/
def padZeros (width : Nat) (digits : List Char) : List Char :=
  List.replicate (width - digits.length) '0' ++ digits

/-- A number in lower-case hexadecimal, at least `width` digits wide. -/
def hexLower (width n : Nat) : String :=
  String.ofList (padZeros width (Nat.toDigits 16 n))

/-- A number in upper-case hexadecimal, at least `width` digits wide. -/
def hexUpper (width n : Nat) : String :=
  String.ofList (padZeros width ((Nat.toDigits 16 n).map Char.toUpper))

end NewtonScript.Text
