import Mathlib.Data.List.Forall2
import NewtonScript.Proofs.Names.Akin
import NewtonScript.Proofs.Token.Progress

/-!
# Texts up to the case of letters

Two texts have the same letters when they differ only in the case of ASCII
letters.  The words that are read at their fronts have the same lengths, and
names and numbers are the same words.  Strings and characters are not: where
one of them is read, the texts have to agree on it.
-/

namespace NewtonScript

namespace Text

/-- The same character, up to the case of ASCII letters. -/
def SameLetter (c c' : Char) : Prop :=
  c'.toLower = c.toLower

/-- The same characters, up to the case of ASCII letters. -/
abbrev SameLetters : List Char → List Char → Prop :=
  List.Forall₂ SameLetter

theorem isAlpha_iff (c : Char) : c.isAlpha = true ↔
    65 ≤ c.toNat ∧ c.toNat ≤ 90 ∨ 97 ≤ c.toNat ∧ c.toNat ≤ 122 := by
  change (decide (c.val ≥ 65 ∧ c.val ≤ 90) ||
    (decide (c.val ≥ 97) && decide (c.val ≤ 122))) = true ↔ _
  simp [UInt32.le_iff_toNat_le]

theorem isLetter_of_isAlpha {c : Char} (letter : c.isAlpha = true) : isLetter c = true := by
  have range := (isAlpha_iff c).mp letter
  have small : c.toNat < 128 := by omega
  rw [isLetter, if_pos small, letter]

theorem isDigit_of_isAlpha {c : Char} (letter : c.isAlpha = true) : c.isDigit = false := by
  have range := (isAlpha_iff c).mp letter
  refine Bool.eq_false_iff.mpr fun digit => ?_
  have digits : 48 ≤ c.toNat ∧ c.toNat ≤ 57 := by
    simpa [Char.isDigit, UInt32.le_iff_toNat_le] using digit
  omega

namespace SameLetter

variable {c c' : Char}

theorem refl (c : Char) : SameLetter c c := rfl

variable (same : SameLetter c c')
include same

theorem toNat :
    (if 65 ≤ c'.toNat ∧ c'.toNat ≤ 90 then c'.toNat + 32 else c'.toNat) =
      if 65 ≤ c.toNat ∧ c.toNat ≤ 90 then c.toNat + 32 else c.toNat := by
  rw [← toNat_toLower, ← toNat_toLower, same]

/-- Only letters can differ. -/
theorem eq_or_letters :
    c' = c ∨ c.isAlpha = true ∧ c'.isAlpha = true := by
  have numbers := same.toNat
  by_cases equal : c'.toNat = c.toNat
  · exact .inl (Char.toNat_inj.mp equal)
  · rw [isAlpha_iff, isAlpha_iff]
    split at numbers <;> split at numbers <;> omega

/-- A class that has all letters or none of them is that of both. -/
theorem class_eq {inClass : Char → Bool} (answer : Bool)
    (letters : ∀ c : Char, c.isAlpha = true → inClass c = answer) : inClass c' = inClass c := by
  rcases same.eq_or_letters with rfl | ⟨letter, letter'⟩
  · rfl
  · rw [letters c letter, letters c' letter']

theorem isBlank_eq : isBlank c' = isBlank c := by
  refine same.class_eq false fun c letter => ?_
  have range := (isAlpha_iff c).mp letter
  simp only [isBlank]
  grind

theorem isDigit_eq : c'.isDigit = c.isDigit :=
  same.class_eq false fun _ => isDigit_of_isAlpha

theorem isNamePart_eq : isNamePart c' = isNamePart c :=
  same.class_eq true fun c letter => by
    rw [isNamePart, isLetter_of_isAlpha letter, Bool.true_or, Bool.true_or]

theorem utf8Size_eq : c'.utf8Size = c.utf8Size := by
  have letters : ∀ c : Char, c.isAlpha = true → c.utf8Size = 1 := by
    intro c letter
    have range := (isAlpha_iff c).mp letter
    have small : c.toNat ≤ 127 := by omega
    exact if_pos small
  rcases same.eq_or_letters with rfl | ⟨letter, letter'⟩
  · rfl
  · rw [letters c letter, letters c' letter']

/-- A mark that is no letter stands in both texts or in none. -/
theorem eq_iff {mark : Char} (noLetter : mark.isAlpha = false) :
    c' = mark ↔ c = mark := by
  rcases same.eq_or_letters with rfl | ⟨letter, letter'⟩
  · exact Iff.rfl
  · constructor
    · rintro rfl
      rw [noLetter] at letter'
      cases letter'
    · rintro rfl
      rw [noLetter] at letter
      cases letter

theorem beq_eq {mark : Char} (noLetter : mark.isAlpha = false) :
    (c' == mark) = (c == mark) := by
  rw [Bool.eq_iff_iff, beq_iff_eq, beq_iff_eq, same.eq_iff noLetter]

theorem hexValue?_eq : hexValue? c' = hexValue? c := by
  have numbers := same.toNat
  have value : ∀ c : Char, hexValue? c = if 48 ≤ c.toNat ∧ c.toNat ≤ 57 then some (c.toNat - 48)
      else if 97 ≤ c.toNat ∧ c.toNat ≤ 102 then some (c.toNat - 97 + 10)
      else if 65 ≤ c.toNat ∧ c.toNat ≤ 70 then some (c.toNat - 65 + 10)
      else none := by
    simp [hexValue?, Char.le_def, UInt32.le_iff_toNat_le]
  grind

theorem isHexDigit_eq : isHexDigit c' = isHexDigit c := by
  rw [isHexDigit, isHexDigit, same.hexValue?_eq]

/-- The mark of an exponent has either case. -/
theorem exponentMark_eq :
    (c' == 'e' || c' == 'E') = (c == 'e' || c == 'E') := by
  have numbers := same.toNat
  have mark : ∀ c : Char, (c == 'e' || c == 'E') = true ↔ c.toNat = 101 ∨ c.toNat = 69 := by
    intro c
    rw [Bool.or_eq_true, beq_iff_eq, beq_iff_eq, ← Char.toNat_inj, ← Char.toNat_inj]
    exact Iff.rfl
  grind

/-- So has the mark of a hexadecimal number. -/
theorem hexMark_iff :
    c' = 'x' ∨ c' = 'X' ↔ c = 'x' ∨ c = 'X' := by
  have numbers := same.toNat
  have mark : ∀ c : Char, c = 'x' ∨ c = 'X' ↔ c.toNat = 120 ∨ c.toNat = 88 := by
    intro c
    rw [← Char.toNat_inj, ← Char.toNat_inj]
    exact Iff.rfl
  grind

end SameLetter

namespace SameLetters

variable {mark : Char} {inClass : Char → Bool} {text text' : List Char}

theorem refl (text : List Char) : SameLetters text text :=
  List.forall₂_same.mpr fun c _ => .refl c

section

variable (same : SameLetters text text')
include same

theorem map_toLower_eq :
    text'.map Char.toLower = text.map Char.toLower := by
  induction same with
  | nil => rfl
  | cons letter _ ih =>
    rw [List.map_cons, List.map_cons, letter, ih]

theorem foldCase_eq :
    foldCase (String.ofList text') = foldCase (String.ofList text) := by
  simp only [foldCase, String.toList_ofList, same.map_toLower_eq]

theorem digitsValue_eq (base : Nat) :
    digitsValue base text' = digitsValue base text := by
  have values : text'.map digitValue = text.map digitValue := by
    induction same with
    | nil => rfl
    | cons letter _ ih =>
      rw [List.map_cons, List.map_cons, ih, digitValue, letter.hexValue?_eq, digitValue]
  rw [digitsValue, digitsValue, List.map_reverse, List.map_reverse, values, same.length_eq]

/-- A run of characters of a class that does not tell cases apart. -/
theorem takeWhile (classes : ∀ {c c' : Char}, SameLetter c c' → inClass c' = inClass c) :
    SameLetters (text.takeWhile inClass) (text'.takeWhile inClass) := by
  induction same with
  | nil => exact .nil
  | cons letter _ ih =>
    rw [List.takeWhile_cons, List.takeWhile_cons, classes letter]
    split
    · exact .cons letter ih
    · exact .nil

theorem dropWhile (classes : ∀ {c c' : Char}, SameLetter c c' → inClass c' = inClass c) :
    SameLetters (text.dropWhile inClass) (text'.dropWhile inClass) := by
  induction same with
  | nil => exact .nil
  | cons letter behind ih =>
    rw [List.dropWhile_cons, List.dropWhile_cons, classes letter]
    split
    · exact ih
    · exact .cons letter behind

/-- A run without letters is the same in both texts. -/
theorem takeWhile_eq (noLetters : ∀ c : Char, c.isAlpha = true → inClass c = false) :
    text'.takeWhile inClass = text.takeWhile inClass := by
  induction same with
  | nil => rfl
  | cons letter _ ih =>
    rw [List.takeWhile_cons, List.takeWhile_cons, ih]
    rcases letter.eq_or_letters with rfl | ⟨isLetter, isLetter'⟩
    · rfl
    · rw [noLetters _ isLetter, noLetters _ isLetter']
      rfl

theorem digits_eq :
    text'.takeWhile Char.isDigit = text.takeWhile Char.isDigit :=
  same.takeWhile_eq fun _ => isDigit_of_isAlpha

end

theorem starts {behind : List Char} (same : SameLetters (mark :: behind) text')
    (noLetter : mark.isAlpha = false) :
    ∃ behind', text' = mark :: behind' ∧ SameLetters behind behind' := by
  cases same with
  | cons letter rest => exact ⟨_, by rw [(letter.eq_iff noLetter).mpr rfl], rest⟩

/-- A mark that does not start one text does not start the other. -/
theorem starts_not (same : SameLetters text text') (noLetter : mark.isAlpha = false)
    (none : ∀ behind, text = mark :: behind → False) :
    ∀ behind, text' = mark :: behind → False := by
  rintro behind rfl
  cases same with
  | cons letter rest =>
    rw [(letter.eq_iff noLetter).mp rfl] at none
    exact none _ rfl

/-- Two marks that do not start one text together do not start the other. -/
theorem opens_not {c c' first : Char} (same : SameLetters text text') (letter : SameLetter c c')
    (noLetter : first.isAlpha = false) (noLetter' : mark.isAlpha = false)
    (none : ∀ behind, c = first → text = mark :: behind → False) :
    ∀ behind, c' = first → text' = mark :: behind → False :=
  fun behind opens => same.starts_not noLetter'
    (fun behind => none behind ((letter.eq_iff noLetter).mp opens)) behind

end SameLetters

end Text

/-- A gap does not depend on the case of letters. -/
theorem Gap.scan_eq_of_sameLetters {state : GapState} {length : Nat} {text text' : List Char}
    (same : Text.SameLetters text text') : scan state length text' = scan state length text := by
  fun_induction scan state length text generalizing text' with
  | case1 length rest ih =>
    obtain ⟨_, rfl, behind⟩ := same.starts (by decide)
    obtain ⟨_, rfl, further⟩ := behind.starts (by decide)
    exact ih further
  | case2 length rest ih =>
    obtain ⟨_, rfl, behind⟩ := same.starts (by decide)
    obtain ⟨_, rfl, further⟩ := behind.starts (by decide)
    exact ih further
  | case3 length c rest noLine noBlock blank ih =>
    cases same with
    | cons letter behind =>
      rw [scan, if_pos (letter.isBlank_eq.trans blank)]
      · exact ih behind
      · exact Text.SameLetters.opens_not behind letter (by decide) (by decide) noLine
      · exact Text.SameLetters.opens_not behind letter (by decide) (by decide) noBlock
  | case4 length c rest noLine noBlock word =>
    cases same with
    | cons letter behind =>
      rw [scan, if_neg (by rwa [letter.isBlank_eq])]
      · exact Text.SameLetters.opens_not behind letter (by decide) (by decide) noLine
      · exact Text.SameLetters.opens_not behind letter (by decide) (by decide) noBlock
  | case5 | case7 | case10 =>
    cases same
    rfl
  | case6 length c rest ih =>
    cases same with
    | cons letter behind =>
      rw [scan, letter.beq_eq (by decide)]
      exact ih behind
  | case8 start star length c rest ends ih =>
    cases same with
    | cons letter behind =>
      rw [scan, letter.beq_eq (by decide), if_pos ends]
      exact ih behind
  | case9 start star length c rest inner ih =>
    cases same with
    | cons letter behind =>
      rw [scan, letter.beq_eq (by decide), if_neg inner, letter.beq_eq (by decide)]
      exact ih behind

end NewtonScript
