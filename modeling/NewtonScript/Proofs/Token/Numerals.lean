import Mathlib.Data.Nat.Digits.Defs
import NewtonScript.Proofs.Reading.Words

/-!
# Whole numbers are read exactly

A whole number is written in decimal digits, in hexadecimal ones behind `0x`,
or as a magic pointer behind `@`.  However many digits there are, the number
that they denote decides whether there is a token.

The digits are collected in words of 64 bits that stay at their largest value,
which is far beyond every limit.
-/

namespace NewtonScript

namespace Text

theorem digitsValue_eq_ofDigits (base : Nat) (digits : List Char) :
    digitsValue base digits = Nat.ofDigits base (digits.map digitValue).reverse := by
  rw [digitsValue, joinedValue_eq_placesValue, placesValue, Nat.ofDigits_eq_foldr, List.map_reverse]
  simp only [Nat.mul_comm, Nat.cast_id]

end Text

/-- The ways to write a whole number. -/
inductive Numeral where
  | decimal
  | hexadecimal (capital : Bool)
  | magic

namespace Numeral

/-- What stands in front of the digits. -/
def lead : Numeral → List Char
  | decimal => []
  | hexadecimal capital => ['0', if capital then 'X' else 'x']
  | magic => ['@']

def base : Numeral → Nat
  | hexadecimal _ => 16
  | _ => 10

def isDigit : Numeral → Char → Bool
  | hexadecimal _ => Text.isHexDigit
  | _ => Char.isDigit

/-- The largest number. -/
def limit : Numeral → Nat
  | magic => 536870911
  | _ => 536870912

/-- The number that digits denote. -/
def value (numeral : Numeral) (digits : List Char) : Nat :=
  Nat.ofDigits numeral.base (digits.map Text.digitValue).reverse

/-- The word of a number. -/
def word (numeral : Numeral) (number : Nat) : Lexeme :=
  match numeral with
  | magic => .literal (.magic number)
  | _ => .literal (.integer number)

/-- The fault of a number that is too large. -/
def fault (numeral : Numeral) (digits : List Char) : Fault :=
  match numeral with
  | decimal => .integerOutOfRange (String.ofList digits)
  | hexadecimal _ => .hexOutOfRange
  | magic => .magicOutOfRange

/-- The digits end in front of a text.  A point or an exponent makes a real
number of a decimal one, and a mark behind a single zero a hexadecimal one. -/
def Ends (numeral : Numeral) (digits behind : List Char) : Prop :=
  ∀ c ∈ behind.head?, numeral.isDigit c = false ∧
    match numeral with
    | decimal => c ∉ ['.', 'e', 'E'] ∧ (digits = ['0'] → c ∉ ['x', 'X'])
    | _ => True

/-- What is read where a number is written. -/
def scanned (numeral : Numeral) (digits : List Char) : Scanned :=
  let length := (numeral.lead ++ digits).length
  if numeral.value digits ≤ numeral.limit then
    .word (numeral.word (numeral.value digits)) length
  else
    .fault (numeral.fault digits) length

variable {digits behind : List Char}

/-- The words of 64 bits that are collected fit exactly when the numbers do, and
then they are the numbers. -/
theorem scanned_eq (numeral : Numeral) {word : Nat}
    (collected : word = min Text.maxWord (Text.digitsValue numeral.base digits)) :
    numeral.scanned digits =
      if word ≤ numeral.limit then .word (numeral.word word) (numeral.lead ++ digits).length
      else .fault (numeral.fault digits) (numeral.lead ++ digits).length := by
  have fits : numeral.limit < Text.maxWord := by cases numeral <;> simp [limit, Text.maxWord]
  have number : numeral.value digits = Text.digitsValue numeral.base digits :=
    (Text.digitsValue_eq_ofDigits _ _).symm
  rw [scanned, number, collected]
  by_cases small : Text.digitsValue numeral.base digits ≤ numeral.limit
  · rw [Nat.min_eq_right (by omega), if_pos small]
  · rw [if_neg small, if_neg (by omega)]

theorem Ends.takeWhile {numeral : Numeral} (ends : numeral.Ends digits behind)
    (all : ∀ c ∈ digits, numeral.isDigit c) :
    (digits ++ behind).takeWhile numeral.isDigit = digits ∧
      (digits ++ behind).dropWhile numeral.isDigit = behind := by
  rw [List.takeWhile_append_of_pos all, List.dropWhile_append_of_pos all]
  cases behind with
  | nil => simp
  | cons c rest => simp [(ends c rfl).1]

theorem scan_of_isDigit {first : Char} (isDigit : first.isDigit) (rest : List Char) :
    Lexeme.scan first rest = Lexeme.scanNumber first rest := by
  rw [Lexeme.scan_of_isAlphanum (by rw [Char.isAlphanum, isDigit, Bool.or_true]), if_pos isDigit]

theorem scanNumber_of_ends {first : Char} {more : List Char}
    (all : ∀ c ∈ first :: more, c.isDigit) (ends : decimal.Ends (first :: more) behind) :
    Lexeme.scanNumber first (more ++ behind) = Lexeme.ofDigits (first :: more) := by
  have noMark : ∀ c ∈ ['x', 'X'], ∀ rest, first = '0' → more ++ behind = c :: rest → False := by
    rintro c mark rest rfl text
    cases more with
    | nil => exact ((ends c (by rw [show behind = c :: rest from text]; rfl)).2.2 rfl) mark
    | cons digit _ =>
      have isDigit := all digit (by simp)
      rw [(List.cons.inj text).1] at isDigit
      simp only [List.mem_cons, List.not_mem_nil, or_false] at mark
      rcases mark with rfl | rfl <;> cases isDigit
  obtain ⟨taken, dropped⟩ := ends.takeWhile all
  simp only [isDigit, List.cons_append, List.takeWhile_cons, List.dropWhile_cons,
    all first List.mem_cons_self, if_true, List.cons.injEq, true_and] at taken dropped
  rw [Lexeme.scanNumber.eq_3 _ _ (noMark 'x' (by simp)) (noMark 'X' (by simp)), Lexeme.scanDecimal,
    taken, dropped]
  cases behind with
  | nil => rfl
  | cons c rest =>
    obtain ⟨-, noReal, -⟩ := ends c rfl
    simp only [List.mem_cons, List.not_mem_nil, or_false, not_or] at noReal
    obtain ⟨noPoint, noSmall, noCapital⟩ := noReal
    split
    · next text => exact absurd (List.cons.inj text).1 noPoint
    · simp [Lexeme.scanExponent, noSmall, noCapital]

theorem scan_lead (numeral : Numeral) (present : digits ≠ [])
    (all : ∀ c ∈ digits, numeral.isDigit c) (ends : numeral.Ends digits behind) :
    ∃ first rest, numeral.lead ++ digits ++ behind = first :: rest ∧
      Lexeme.scan first rest = numeral.scanned digits := by
  have taken : (digits ++ behind).takeWhile numeral.isDigit = digits := (ends.takeWhile all).1
  have nonempty : digits.isEmpty = false := List.isEmpty_eq_false_iff.mpr present
  cases numeral with
  | decimal =>
    obtain ⟨first, more, rfl⟩ := List.exists_cons_of_ne_nil present
    refine ⟨first, more ++ behind, rfl, ?_⟩
    rw [scan_of_isDigit (all first List.mem_cons_self), scanNumber_of_ends all ends,
      scanned_eq _ (Text.parseWord?_getD _)]
    rfl
  | hexadecimal capital =>
    refine ⟨_, _, rfl, ?_⟩
    have hex : Lexeme.scanHex (digits ++ behind) = (hexadecimal capital).scanned digits := by
      rw [isDigit] at taken
      rw [scanned_eq _ (Text.saturatedValue_eq (Nat.succ_pos _) _)]
      simp only [Lexeme.scanHex, taken, nonempty, Bool.false_eq_true, if_false]
      rfl
    cases capital <;> exact hex
  | magic =>
    refine ⟨_, _, rfl, ?_⟩
    change Lexeme.scanMagic (digits ++ behind) = _
    simp only [isDigit] at taken
    rw [scanned_eq _ (Text.saturatedValue_eq (Nat.succ_pos _) _)]
    simp only [Lexeme.scanMagic, taken, nonempty, Bool.false_eq_true, if_false]
    rfl

end Numeral

/-- At a whole number that is written in digits, however many, the token of the
number that they denote is read if it is not too large, and a fault of one code
otherwise.  The digits are consumed and nothing else. -/
theorem Cursor.scan_numeral (numeral : Numeral) {digits behind : List Char} {cursor : Cursor}
    {gap : Nat} (present : digits ≠ []) (all : ∀ c ∈ digits, numeral.isDigit c)
    (ends : numeral.Ends digits behind) (closed : Gap.ofText cursor.rest = .closed gap)
    (text : (cursor.skip gap).rest = numeral.lead ++ digits ++ behind) :
    let start := cursor.skip gap
    let stop := start.skip (numeral.lead ++ digits).length
    let number := numeral.value digits
    stop.rest = behind ∧
      (number ≤ numeral.limit →
        cursor.scan = (.ok ⟨numeral.word number, start.spanTo stop⟩, stop)) ∧
      (numeral.limit < number →
        cursor.scan = (.error ⟨numeral.fault digits, start.spanTo stop⟩, stop) ∧
          (numeral.fault digits).code.number = 1005) ∧
      (Text.saturatedValue numeral.base digits ≤ numeral.limit ↔ number ≤ numeral.limit) := by
  intro start stop number
  obtain ⟨first, rest, front, scanned⟩ := numeral.scan_lead present all ends
  have saturated : Text.saturatedValue numeral.base digits = min Text.maxWord number := by
    rw [Text.saturatedValue_eq (by cases numeral <;> simp [Numeral.base]),
      Text.digitsValue_eq_ofDigits]
    rfl
  have fits : numeral.limit < Text.maxWord := by
    cases numeral <;> simp [Numeral.limit, Text.maxWord]
  refine ⟨?_, ?_, ?_, ?_⟩
  · rw [Cursor.rest_skip, text, List.drop_left]
  · intro small
    simp only [Cursor.scan, closed, text, front, scanned, Numeral.scanned]
    rw [if_pos small]
    rfl
  · intro large
    refine ⟨?_, by cases numeral <;> rfl⟩
    simp only [Cursor.scan, closed, text, front, scanned, Numeral.scanned]
    rw [if_neg large.not_ge]
    rfl
  · rw [saturated]
    omega

/-- One more than there are words is no small number. -/
theorem Cursor.scan_numeral_beyond_words :
    let digits := '1' :: List.replicate 15 '0' ++ ['1']
    Cursor.scan ⟨' ' :: '0' :: 'x' :: digits ++ [';'], 0, 1⟩ =
      (.error ⟨.hexOutOfRange, ⟨1, 20, 1⟩⟩, ⟨[';'], 20, 1⟩) := by
  intro digits
  have ends : (Numeral.hexadecimal false).Ends digits [';'] := by
    rintro c ⟨⟩
    exact ⟨rfl, trivial⟩
  have closed : Gap.ofText (' ' :: '0' :: 'x' :: digits ++ [';']) = .closed 1 := by decide
  have read := @Cursor.scan_numeral (.hexadecimal false) digits [';'] ⟨_, 0, 1⟩ 1
    (by decide) (List.all_eq_true.mp (by decide)) ends closed (by decide)
  exact (read.2.2.1 (by decide)).1

end NewtonScript
