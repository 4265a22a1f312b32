import NewtonScript.Proofs.Names.Letters
import NewtonScript.Proofs.Pairing.Paired

/-!
# Words up to the case of letters

Words at the fronts of texts with the same letters are read alike: with the
same length, as the same word up to the spelling of a name, or with a fault of
the same code.  For strings and characters the texts have to agree on what is
read; at a fault also on the character behind, which may have decided it.
-/

namespace NewtonScript

open Text (SameLetter SameLetters)

variable {first : Char}

/-- Two words that were read alike, or two faults for one reason. -/
inductive Scanned.Akin : Scanned → Scanned → Prop where
  | word {lexeme lexeme' : Lexeme} {length : Nat} (same : lexeme.Same Symbol.normal lexeme') :
      Akin ⟨.ok lexeme, length⟩ ⟨.ok lexeme', length⟩
  | fault {fault fault' : Fault} {length : Nat} (code : fault'.code = fault.code) :
      Akin ⟨.error fault, length⟩ ⟨.error fault', length⟩

theorem Scanned.Akin.refl (scanned : Scanned) : scanned.Akin scanned := by
  rcases scanned with ⟨fault | lexeme, length⟩
  · exact .fault rfl
  · exact .word (.refl lexeme)

namespace Lexeme

variable {text text' rest rest' : List Char}

/-! ## Names -/

theorem same_ofName (same : SameLetters text text') :
    (ofName text).Same Symbol.normal (ofName text') := by
  have folded : (Symbol.ofString (String.ofList text')).folded =
      (Symbol.ofString (String.ofList text)).folded := same.foldCase_eq
  have keyword : Keyword.ofText? (String.ofList text') = Keyword.ofText? (String.ofList text) := by
    rw [Keyword.ofText?, same.foldCase_eq, Keyword.ofText?]
  unfold ofName
  simp only [folded]
  split
  · exact .word rfl
  · split
    · exact .word rfl
    · simp only [Symbol.ofString, keyword]
      cases Keyword.ofText? (String.ofList text) with
      | some word => exact .word rfl
      | none => exact .name (Symbol.normal_eq_iff.mpr folded.symm)

theorem akin_scanName {first' : Char} (letter : SameLetter first first')
    (same : SameLetters rest rest') : (scanName first rest).Akin (scanName first' rest') := by
  have name : SameLetters (first :: rest.takeWhile Text.isNamePart)
      (first' :: rest'.takeWhile Text.isNamePart) :=
    .cons letter (same.takeWhile SameLetter.isNamePart_eq)
  unfold scanName Scanned.word
  dsimp only
  rw [← name.length_eq]
  exact .word (same_ofName name)

theorem akin_scanBarred {read read' : List Char} {length : Nat} (same : SameLetters text text')
    (sameRead : SameLetters read read') :
    (scanBarred text read length).Akin (scanBarred text' read' length) := by
  fun_induction scanBarred text read length generalizing text' read' with
  | case1 =>
    cases same
    exact .fault rfl
  | case2 behind read length =>
    obtain ⟨_, rfl, -⟩ := same.starts (by decide)
    refine .word (.name (Symbol.normal_eq_iff.mpr ?_))
    exact (Text.SameLetters.foldCase_eq (List.forall₂_reverse_iff.mpr sameRead)).symm
  | case3 =>
    obtain ⟨_, rfl, behind⟩ := same.starts (by decide)
    cases behind
    exact .fault rfl
  | case4 c rest read length escapes ih =>
    obtain ⟨_, rfl, behind⟩ := same.starts (by decide)
    cases behind with
    | cons letter further =>
      rw [scanBarred, letter.beq_eq (by decide), letter.beq_eq (by decide), if_pos escapes]
      exact ih further (.cons letter sameRead)
  | case5 c rest read length unknown =>
    obtain ⟨_, rfl, behind⟩ := same.starts (by decide)
    cases behind with
    | cons letter further =>
      rw [scanBarred, letter.beq_eq (by decide), letter.beq_eq (by decide), if_neg unknown]
      exact .fault rfl
  | case6 c rest read length noBar noEnd noEscape ih =>
    have plain := ne_backslash noEnd noEscape
    cases same with
    | cons letter behind =>
      have plain' := mt (letter.eq_iff (by decide)).mp plain
      rw [scanBarred]
      · exact ih behind (.cons letter sameRead)
      · exact mt (letter.eq_iff (by decide)).mp noBar
      · exact fun backslash _ => plain' backslash
      · exact fun _ _ backslash _ => plain' backslash

/-! ## Numbers -/

theorem akin_scanHex (same : SameLetters rest rest') : (scanHex rest).Akin (scanHex rest') := by
  have digits := same.takeWhile SameLetter.isHexDigit_eq
  have empty : (rest'.takeWhile Text.isHexDigit).isEmpty =
      (rest.takeWhile Text.isHexDigit).isEmpty := by
    rw [Bool.eq_iff_iff, List.isEmpty_iff_length_eq_zero, List.isEmpty_iff_length_eq_zero,
      digits.length_eq]
  unfold scanHex
  dsimp only
  simp only [Text.saturatedValue_eq (Nat.succ_pos 15)]
  rw [empty, digits.digitsValue_eq, ← digits.length_eq]
  exact .refl _

theorem scanMagic_eq_of_sameLetters (same : SameLetters rest rest') :
    scanMagic rest' = scanMagic rest := by
  unfold scanMagic
  rw [same.digits_eq]

theorem akin_scanExponent (text whole : List Char) (fraction : Option (List Char))
    (same : SameLetters rest rest') :
    (scanExponent text whole fraction rest).Akin (scanExponent text whole fraction rest') := by
  cases same with
  | nil => exact .refl _
  | @cons mark mark' rest rest' letter behind =>
    have signs : ((rest'.take 1).takeWhile fun c => c == '+' || c == '-') =
        (rest.take 1).takeWhile fun c => c == '+' || c == '-' := by
      refine Text.SameLetters.takeWhile_eq (List.forall₂_take 1 behind) fun c isLetter => ?_
      rw [Bool.or_eq_false_iff, beq_eq_false_iff_ne, beq_eq_false_iff_ne]
      constructor <;> rintro rfl <;> exact absurd isLetter (by decide)
    have digits := fun count => Text.SameLetters.digits_eq (List.forall₂_drop count behind)
    simp only [scanExponent, letter.exponentMark_eq, signs, digits]
    split
    · split
      · simp only [Scanned.fault, List.length_append, List.length_cons]
        exact .fault rfl
      · simp only [List.length_append, List.length_cons]
        exact .refl _
    · exact .refl _

theorem akin_scanDecimal (first : Char) (same : SameLetters rest rest') :
    (scanDecimal first rest).Akin (scanDecimal first rest') := by
  have behind := same.dropWhile SameLetter.isDigit_eq
  unfold scanDecimal
  rw [same.digits_eq]
  by_cases point : ∃ places, rest.dropWhile Char.isDigit = '.' :: places
  · obtain ⟨places, equal⟩ := point
    rw [equal] at behind ⊢
    obtain ⟨places', equal', further⟩ := behind.starts (by decide)
    rw [equal']
    simp only [further.digits_eq]
    exact akin_scanExponent _ _ _ (further.dropWhile SameLetter.isDigit_eq)
  · have none : ∀ places, rest.dropWhile Char.isDigit = '.' :: places → False :=
      fun places equal => point ⟨places, equal⟩
    have none' := behind.starts_not (by decide) none
    split
    · exact absurd ‹_› (none _)
    · exact akin_scanExponent _ _ _ behind

theorem akin_scanNumber (first : Char) (same : SameLetters rest rest') :
    (scanNumber first rest).Akin (scanNumber first rest') := by
  have hexadecimal : ∀ {mark : Char} {digits : List Char}, mark = 'x' ∨ mark = 'X' →
      scanNumber '0' (mark :: digits) = scanHex digits := by
    rintro _ _ (rfl | rfl) <;> rfl
  fun_cases scanNumber first rest with
  | case1 digits =>
    cases same with
    | cons letter behind =>
      rw [hexadecimal (letter.hexMark_iff.mpr (.inl rfl))]
      exact akin_scanHex behind
  | case2 digits =>
    cases same with
    | cons letter behind =>
      rw [hexadecimal (letter.hexMark_iff.mpr (.inr rfl))]
      exact akin_scanHex behind
  | case3 =>
    rename_i noLower noUpper
    have none : ∀ {mark : Char} {digits : List Char}, mark = 'x' ∨ mark = 'X' → first = '0' →
        rest' = mark :: digits → False := by
      rintro mark digits isMark zero rfl
      cases same with
      | cons letter behind =>
        rcases letter.hexMark_iff.mp isMark with rfl | rfl
        · exact noLower _ zero rfl
        · exact noUpper _ zero rfl
    rw [scanNumber]
    · exact akin_scanDecimal first same
    · exact fun _ => none (.inl rfl)
    · exact fun _ => none (.inr rfl)

/-! ## Strings and characters -/

theorem hexGroup?_eq_of_sameLetters (count : Nat) (same : SameLetters text text') :
    hexGroup? count text' = hexGroup? count text := by
  have digits := List.forall₂_take count same
  have all : (text'.take count).all Text.isHexDigit = (text.take count).all Text.isHexDigit := by
    generalize text.take count = digits, text'.take count = digits' at digits
    induction digits with
    | nil => rfl
    | cons letter _ ih =>
      rw [List.all_cons, List.all_cons, letter.isHexDigit_eq, ih]
  unfold hexGroup?
  dsimp only
  rw [all, Text.SameLetters.digitsValue_eq digits, digits.length_eq]

theorem hexGroupLength_eq_of_sameLetters (count : Nat) (same : SameLetters text text') :
    hexGroupLength count text' = hexGroupLength count text := by
  have digits : SameLetters (text.take count) (text'.take count) := List.forall₂_take count same
  exact (digits.takeWhile SameLetter.isHexDigit_eq).length_eq.symm

end Lexeme

/-- Texts with the same letters that are the same for so many characters. -/
structure Text.Agree (count : Nat) (text text' : List Char) : Prop where
  letters : SameLetters text text'
  front : text'.take count = text.take count

/-- The first characters of texts that agree on them. -/
theorem Text.Agree.cons {count : Nat} {c : Char} {rest text' : List Char}
    (agree : Agree (count + 1) (c :: rest) text') :
    ∃ rest', text' = c :: rest' ∧ Agree count rest rest' := by
  rcases agree with ⟨letters, front⟩
  cases letters with
  | @cons _ c' _ rest' letter behind =>
    obtain ⟨rfl, further⟩ := List.cons.inj front
    exact ⟨rest', rfl, behind, further⟩

theorem Text.Agree.mono {count count' : Nat} {text text' : List Char}
    (agree : Agree count text text') (le : count' ≤ count) : Agree count' text text' := by
  refine ⟨agree.letters, ?_⟩
  have shorter := congrArg (List.take count') agree.front
  rwa [List.take_take, List.take_take, Nat.min_eq_left le] at shorter

/-- How many characters a word or a fault depends on, the case of letters
included.  Two faults are found at a character that is not read any more. -/
def Scanned.reach (scanned : Scanned) : Nat :=
  match scanned.result with
  | .error .openUnicodeRun => scanned.length + 1
  | .error (.unknownCharacterEscape _) => scanned.length + 1
  | _ => scanned.length

theorem Scanned.length_le_reach (scanned : Scanned) : scanned.length ≤ scanned.reach := by
  unfold reach
  split <;> omega

namespace Lexeme

variable {text text' rest rest' : List Char} {count : Nat}

theorem le_reach_scanString (inRun : Bool) (text read : List Char) (length : Nat) :
    length ≤ (scanString inRun text read length).reach :=
  Nat.le_trans (isText_scanString inRun text read length).length (Scanned.length_le_reach _)

theorem akin_scanString {inRun : Bool} {read : List Char} {length : Nat}
    (agree : Text.Agree count text text')
    (within : (scanString inRun text read length).reach ≤ length + count) :
    (scanString inRun text read length).Akin (scanString inRun text' read length) := by
  fun_induction scanString inRun text read length generalizing text' count with
  | case1 =>
    cases agree.letters
    exact .refl _
  | case2 inRun behind read length =>
    obtain ⟨_, rfl, -⟩ := agree.letters.starts (by decide)
    cases inRun <;> exact .refl _
  | case3 =>
    obtain ⟨_, rfl, behind⟩ := agree.letters.starts (by decide)
    cases behind
    exact .refl _
  | case4 rest read length ih | case11 rest read length ih =>
    have reached := Nat.le_trans (le_reach_scanString _ rest read (length + 2)) within
    obtain ⟨count, rfl⟩ := Nat.exists_eq_add_of_le' (Nat.add_le_add_iff_left.mp reached)
    obtain ⟨_, rfl, behind⟩ := agree.cons
    obtain ⟨_, rfl, further⟩ := behind.cons
    exact ih further (by rwa [Nat.add_assoc, Nat.add_comm 2])
  | case5 c rest read length noUnicode escaped simple ih =>
    have reached := Nat.le_trans (le_reach_scanString _ rest _ (length + 2)) within
    obtain ⟨count, rfl⟩ := Nat.exists_eq_add_of_le' (Nat.add_le_add_iff_left.mp reached)
    obtain ⟨_, rfl, behind⟩ := agree.cons
    obtain ⟨_, rfl, further⟩ := behind.cons
    rw [scanString_escaped noUnicode simple]
    exact ih further (by rwa [Nat.add_assoc, Nat.add_comm 2])
  | case6 c read length noUnicode simple hex =>
    obtain ⟨_, rfl, behind⟩ := (agree.mono (Nat.add_le_add_iff_left.mp within)).cons
    obtain ⟨_, rfl, further⟩ := behind.cons
    cases further.letters
    simpa [scanString, simple, hex] using Scanned.Akin.refl _
  | case7 c read length noUnicode simple hex d rest code group ih =>
    have reached := Nat.le_trans (le_reach_scanString _ rest _ (length + 3)) within
    obtain ⟨count, rfl⟩ := Nat.exists_eq_add_of_le' (Nat.add_le_add_iff_left.mp reached)
    obtain ⟨_, rfl, behind⟩ := agree.cons
    obtain ⟨_, rfl, further⟩ := behind.cons
    obtain ⟨_, rfl, last⟩ := further.cons
    have akin := ih last (by rwa [Nat.add_assoc, Nat.add_comm 3])
    simpa [scanString, simple, hex, group] using akin
  | case8 c read length noUnicode simple hex d rest group =>
    obtain ⟨_, rfl, behind⟩ := (agree.mono (Nat.add_le_add_iff_left.mp within)).cons
    obtain ⟨_, rfl, further⟩ := behind.cons
    rcases further.letters with _ | ⟨letter, _⟩
    have same : SameLetters [c, d] [c, _] := .cons (.refl c) (.cons letter .nil)
    have none := (hexGroup?_eq_of_sameLetters 2 same).trans group
    simpa [scanString, simple, hex, none] using Scanned.Akin.refl _
  | case9 c rest read length noUnicode simple noHex =>
    obtain ⟨_, rfl, behind⟩ := (agree.mono (Nat.add_le_add_iff_left.mp within)).cons
    obtain ⟨rest', rfl, -⟩ := behind.cons
    cases rest' <;> simpa [scanString, simple, noHex] using Scanned.Akin.refl _
  | case10 c rest read length noQuote noEnd noUnicode noEscape ih =>
    have plain := ne_backslash noEnd noEscape
    have reached := Nat.le_trans (le_reach_scanString _ rest _ (length + 1)) within
    obtain ⟨count, rfl⟩ := Nat.exists_eq_add_of_le' (Nat.add_le_add_iff_left.mp reached)
    obtain ⟨_, rfl, behind⟩ := agree.cons
    rw [scanString]
    · exact ih behind (by rwa [Nat.add_assoc, Nat.add_comm 1])
    · exact noQuote
    · exact fun backslash _ => plain backslash
    · exact fun _ backslash _ => plain backslash
    · exact fun _ _ backslash _ => plain backslash
  | case12 behind read length noUnicode =>
    have reached : length + 2 ≤ length + count := within
    obtain ⟨rest', rfl, agree'⟩ := (agree.mono (Nat.add_le_add_iff_left.mp reached)).cons
    rw [scanString]
    · exact .refl _
    · rintro further rfl
      cases agree'.letters with
      | @cons c _ rest _ _ _ =>
        obtain ⟨_, same, -⟩ := agree'.cons
        cases same
        exact noUnicode _ rfl
  | case13 a b c d rest read length noQuote noRun noEscape code group ih =>
    have reached := Nat.le_trans (le_reach_scanString _ rest _ (length + 4)) within
    obtain ⟨count, rfl⟩ := Nat.exists_eq_add_of_le' (Nat.add_le_add_iff_left.mp reached)
    obtain ⟨_, rfl, behind⟩ := agree.cons
    obtain ⟨_, rfl, further⟩ := behind.cons
    obtain ⟨_, rfl, more⟩ := further.cons
    obtain ⟨_, rfl, last⟩ := more.cons
    rw [scanString, group]
    · exact ih last (by rwa [Nat.add_assoc, Nat.add_comm 4])
    · exact noQuote
    · exact noRun
    · exact noEscape
  | case14 a b c d rest read length noQuote noRun noEscape group =>
    rcases agree.letters with _ | ⟨letter, _ | ⟨letter₂, _ | ⟨letter₃, _ | ⟨letter₄, further⟩⟩⟩⟩
    have same : SameLetters [a, b, c, d] [_, _, _, _] :=
      .cons letter (.cons letter₂ (.cons letter₃ (.cons letter₄ .nil)))
    have plain := mt (letter.eq_iff (by decide)).mp noEscape
    rw [scanString, hexGroup?_eq_of_sameLetters 4 same, group]
    · rw [hexGroupLength_eq_of_sameLetters 4 same]
      exact .refl _
    · exact mt (letter.eq_iff (by decide)).mp noQuote
    · exact fun backslash _ => plain backslash
    · exact plain
  | case15 =>
    rename_i rest read length noQuote noRun noEscape few
    have plain := agree.letters.starts_not (by decide) noEscape
    rw [scanString]
    · rw [hexGroupLength_eq_of_sameLetters 4 agree.letters]
      exact .refl _
    · exact agree.letters.starts_not (by decide) noQuote
    · exact fun behind => plain _
    · exact plain
    · rintro a b c d behind rfl
      rcases agree.letters with _ | ⟨_, _ | ⟨_, _ | ⟨_, _ | ⟨_, _⟩⟩⟩⟩
      exact few _ _ _ _ _ rfl

theorem akin_scanChar_escape (c : Char) (same : SameLetters rest rest') :
    (scanChar ('\\' :: c :: rest)).Akin (scanChar ('\\' :: c :: rest')) := by
  have digits : SameLetters (c :: rest) (c :: rest') := .cons (.refl c) same
  by_cases unicode : c = 'u'
  · subst unicode
    simp only [scanChar, hexGroup?_eq_of_sameLetters 4 same,
      hexGroupLength_eq_of_sameLetters 4 same]
    exact .refl _
  · by_cases simple : c = 'n' ∨ c = 't' ∨ c = '\\'
    · rcases simple with rfl | rfl | rfl <;> exact .refl _
    · simp only [not_or] at simple
      obtain ⟨noReturn, noTab, noBackslash⟩ := simple
      simp only [scanChar, hexGroup?_eq_of_sameLetters 2 digits,
        hexGroupLength_eq_of_sameLetters 2 digits]
      exact .refl _

/-- An escaped character is decided by its first two characters at least. -/
theorem one_lt_of_within_escape {c : Char}
    (within : (scanChar ('\\' :: c :: rest)).reach ≤ count + 1) : 1 < count := by
  generalize escape : '\\' :: c :: rest = text at within
  revert within
  fun_cases scanChar text with
  | case1 | case2 => cases escape
  | case3 | case4 | case5 | case6 | case8 =>
    intro within
    have length := Nat.le_trans (Scanned.length_le_reach _) within
    rw [length_ofCharCode] at length
    omega
  | case7 rest =>
    intro within
    have length : 3 + hexGroupLength 4 rest ≤ count + 1 := within
    omega
  | case9 c rest noReturn noTab noBackslash noUnicode hex =>
    intro within
    have length : 2 + hexGroupLength 2 (c :: rest) ≤ count + 1 := within
    have digit : 0 < hexGroupLength 2 (c :: rest) := by
      rw [hexGroupLength, List.take_succ_cons, List.takeWhile_cons, if_pos hex]
      exact Nat.succ_pos _
    omega
  | case10 =>
    intro within
    exact Nat.le_of_succ_le_succ within
  | case11 c' rest' noEnd _ _ _ _ noEscape =>
    cases escape
    exact absurd rfl (noEscape c rest rfl)

theorem akin_scanChar (agree : Text.Agree count text text')
    (within : (scanChar text).reach ≤ count + 1) : (scanChar text).Akin (scanChar text') := by
  rcases text with _ | ⟨c, rest⟩
  · cases agree.letters
    exact .refl _
  · by_cases backslash : c = '\\'
    · subst backslash
      rcases rest with _ | ⟨c, rest⟩
      · obtain ⟨_, rfl, behind⟩ := agree.letters.starts (by decide)
        cases behind
        exact .refl _
      · obtain ⟨_, rfl, behind⟩ := (agree.mono (one_lt_of_within_escape within)).cons
        obtain ⟨_, rfl, further⟩ := behind.cons
        exact akin_scanChar_escape c further.letters
    · have plain : ∀ rest, scanChar (c :: rest) = ofCharCode c.toNat 2 := by
        simp [scanChar, backslash]
      rw [plain] at within ⊢
      have length := Nat.le_trans (Scanned.length_le_reach _) within
      rw [length_ofCharCode] at length
      obtain ⟨_, rfl, -⟩ := (agree.mono (Nat.le_of_succ_le_succ length)).cons
      rw [plain]
      exact .refl _

/-! ## Operators -/

theorem scanOperator?_eq_of_sameLetters (first : Char) (same : SameLetters rest rest') :
    scanOperator? first rest' = scanOperator? first rest := by
  refine scanOperator?_congr first fun mark isMark => ?_
  cases same with
  | nil => rfl
  | cons letter _ =>
    rw [List.head?_cons, List.head?_cons, Option.some.injEq, Option.some.injEq]
    refine letter.eq_iff ?_
    simp only [List.mem_cons, List.not_mem_nil, or_false] at isMark
    rcases isMark with rfl | rfl | rfl | rfl | rfl <;> decide

/-! ## Words -/

/-- Words other than strings and characters. -/
theorem akin_scan_of_sameLetters (noString : first ≠ '"') (noChar : first ≠ '$')
    (same : SameLetters rest rest') : (scan first rest).Akin (scan first rest') := by
  have noString' : ¬(first == '"') = true := by simpa using noString
  have noChar' : ¬(first == '$') = true := by simpa using noChar
  unfold scan
  rw [scanOperator?_eq_of_sameLetters first same, scanMagic_eq_of_sameLetters same]
  simp only [if_neg noString', if_neg noChar']
  split
  · exact .refl _
  · split
    · exact .refl _
    · split
      · exact akin_scanBarred same .nil
      · split
        · exact .refl _
        · split
          · exact akin_scanNumber first same
          · split
            · exact akin_scanName (.refl first) same
            · exact .refl _

/-- A word on which two texts agree. -/
theorem akin_scan_of_agree (agree : Text.Agree count rest rest')
    (within : (scan first rest).reach ≤ count + 1) : (scan first rest).Akin (scan first rest') := by
  by_cases quote : first = '"'
  · subst quote
    rw [Nat.add_comm] at within
    exact akin_scanString agree within
  · by_cases dollar : first = '$'
    · subst dollar
      exact akin_scanChar agree within
    · exact akin_scan_of_sameLetters quote dollar agree.letters

theorem scan_of_isAlpha (letter : first.isAlpha = true) (rest : List Char) :
    scan first rest = scanName first rest := by
  have start : Text.isNameStart first = true := by
    rw [Text.isNameStart, Text.isLetter_of_isAlpha letter, Bool.true_or]
  rw [scan_of_isAlphanum (by rw [Char.isAlphanum, letter, Bool.true_or]),
    Text.isDigit_of_isAlpha letter, if_neg Bool.false_ne_true, if_pos start]

/-- Names, bare or between bars. -/
theorem akin_scan_name {first' : Char} (named : first = '|' ∨ Text.isNameStart first = true)
    (letter : SameLetter first first') (same : SameLetters rest rest') :
    (scan first rest).Akin (scan first' rest') := by
  rcases letter.eq_or_letters with rfl | ⟨isLetter, isLetter'⟩
  · refine akin_scan_of_sameLetters ?_ ?_ same
    · rintro rfl
      exact absurd named (by decide)
    · rintro rfl
      exact absurd named (by decide)
  · rw [scan_of_isAlpha isLetter, scan_of_isAlpha isLetter']
    exact akin_scanName letter same

end Lexeme

end NewtonScript
