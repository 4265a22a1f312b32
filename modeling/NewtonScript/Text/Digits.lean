import NewtonScript.Text.Class

/-!
# Numbers written in digits

A list of digits denotes a number by Horner's rule: each digit is added to the
base times the number before it.  The number is computed by joining neighbours
into the digits of the squared base until one digit is left, so that a list of
many digits takes few products of long numbers.  The main statement is that
both ways give the same number.

Whole numbers are collected in words of 64 bits, which stay at their largest
value where the number is larger.
-/

namespace NewtonScript.Text

/-- The value of a digit of either case.  A character that is no digit counts
as zero. -/
def digitValue (c : Char) : Nat :=
  (hexValue? c).getD 0

/-- The number with the given digits, lowest digit first. -/
def placesValue (base : Nat) (places : List Nat) : Nat :=
  places.foldr (fun place value => place + value * base) 0

/-- Join digits, lowest digit first, two by two into digits of the squared
base, and put them behind those of `joined`, which are in reverse. -/
def joinPairs (base : Nat) : List Nat → List Nat → List Nat
  | low :: high :: rest, joined => joinPairs base rest ((low + high * base) :: joined)
  | [low], joined => (low :: joined).reverse
  | [], joined => joined.reverse

/-- The number with the given digits, lowest digit first, after some rounds of
joining.  Enough rounds leave one digit. -/
def joinedValue : Nat → Nat → List Nat → Nat
  | 0, base, places => placesValue base places
  | rounds + 1, base, places => joinedValue rounds (base * base) (joinPairs base places [])

/-- The number that a list of digits denotes in a base. -/
def digitsValue (base : Nat) (digits : List Char) : Nat :=
  joinedValue (Nat.log2 digits.length + 1) base (digits.reverse.map digitValue)

/-- The largest word of 64 bits. -/
def maxWord : Nat := 0xFFFFFFFFFFFFFFFF

/-- Digits collected in a word of 64 bits, which stays at its largest value
where a product or a sum exceeds it. -/
def saturatedValue (base : Nat) (digits : List Char) : Nat :=
  digits.foldl (fun word digit => min maxWord (min maxWord (word * base) + digitValue digit)) 0

/-- The word of 64 bits that decimal digits denote, if the number is not too
large for one. -/
def parseWord? (digits : List Char) : Option Nat :=
  let value := digitsValue 10 digits
  if value ≤ maxWord then some value else none

private theorem joinPairs_eq_append (base : Nat) :
    ∀ places joined : List Nat,
      joinPairs base places joined = joined.reverse ++ joinPairs base places []
  | [], joined => by simp [joinPairs]
  | [low], joined => by simp [joinPairs]
  | low :: high :: rest, joined => by
      rw [joinPairs, joinPairs, joinPairs_eq_append base rest (_ :: joined),
        joinPairs_eq_append base rest [_]]
      simp

/-- Joining digits keeps the number. -/
theorem placesValue_joinPairs (base : Nat) :
    ∀ places : List Nat,
      placesValue (base * base) (joinPairs base places []) = placesValue base places
  | [] => rfl
  | [low] => by simp [joinPairs, placesValue]
  | low :: high :: rest => by
      have joined := placesValue_joinPairs base rest
      rw [joinPairs, joinPairs_eq_append]
      simp only [placesValue, List.reverse_singleton, List.singleton_append, List.foldr_cons]
        at joined ⊢
      rw [joined, Nat.add_mul, Nat.mul_assoc, Nat.add_assoc]

theorem joinedValue_eq_placesValue (rounds base : Nat) (places : List Nat) :
    joinedValue rounds base places = placesValue base places := by
  induction rounds generalizing base places with
  | zero => rfl
  | succ rounds ih => rw [joinedValue, ih, placesValue_joinPairs]

/-- Digits denote their number by Horner's rule. -/
theorem digitsValue_eq_foldl (base : Nat) (digits : List Char) :
    digitsValue base digits =
      digits.foldl (fun value digit => value * base + digitValue digit) 0 := by
  rw [digitsValue, joinedValue_eq_placesValue, placesValue, List.foldr_map, List.foldr_reverse]
  simp only [Nat.add_comm]

/-- A word collects the number of its digits up to the largest word. -/
theorem saturatedValue_eq {base : Nat} (positive : 0 < base) (digits : List Char) :
    saturatedValue base digits = min maxWord (digitsValue base digits) := by
  suffices collected : ∀ value,
      digits.foldl (fun word digit => min maxWord (min maxWord (word * base) + digitValue digit))
          (min maxWord value) =
        min maxWord (digits.foldl (fun value digit => value * base + digitValue digit) value) by
    rw [digitsValue_eq_foldl]
    exact collected 0
  induction digits with
  | nil => exact fun _ => rfl
  | cons digit rest ih =>
    intro value
    rw [List.foldl_cons, List.foldl_cons, ← ih]
    congr 1
    have grows : maxWord ≤ maxWord * base := Nat.le_mul_of_pos_right _ positive
    rcases Nat.le_total value maxWord with small | large
    · rw [Nat.min_eq_right small]
      omega
    · have larger : maxWord ≤ value * base :=
        Nat.le_trans large (Nat.le_mul_of_pos_right _ positive)
      rw [Nat.min_eq_left large]
      omega

theorem parseWord?_getD (digits : List Char) :
    (parseWord? digits).getD maxWord = min maxWord (digitsValue 10 digits) := by
  unfold parseWord?
  dsimp only
  split
  · next small => exact (Nat.min_eq_right small).symm
  · next large => exact (Nat.min_eq_left (Nat.le_of_not_le large)).symm

end NewtonScript.Text
