import NewtonScript.Token.Scan

/-!
# Words in front of a line break

A word that ends where its text ends is read the same way when the text goes
on with a new line: no word goes on over the break, and no gap in front of a
word does.
-/

namespace NewtonScript

variable {rest : List Char} {first : Char}

theorem takeWhile_append_newline {p : Char → Bool} (stops : p '\n' = false)
    (text tail : List Char) : (text ++ '\n' :: tail).takeWhile p = text.takeWhile p := by
  induction text with
  | nil => simp [stops]
  | cons c rest ih => simp [List.takeWhile_cons, ih]

theorem dropWhile_append_newline {p : Char → Bool} (stops : p '\n' = false)
    (text tail : List Char) :
    (text ++ '\n' :: tail).dropWhile p = text.dropWhile p ++ '\n' :: tail := by
  induction text with
  | nil => simp [stops]
  | cons c rest ih =>
    simp only [List.cons_append, List.dropWhile_cons, ih]
    split <;> rfl

/-- A mark that does not start a text does not start it when it goes on with
a new line. -/
theorem head_append {mark : Char} (different : mark ≠ '\n')
    (none : ∀ behind, rest = mark :: behind → False) (tail : List Char) :
    ∀ behind, rest ++ '\n' :: tail = mark :: behind → False := by
  intro behind equal
  cases rest with
  | nil => exact different (List.cons.inj equal).1.symm
  | cons d rest => exact none rest (by rw [(List.cons.inj equal).1])

theorem starts_append {c mark : Char} (different : mark ≠ '\n')
    (none : ∀ behind, c = first → rest = mark :: behind → False) (tail : List Char) :
    ∀ behind, c = first → rest ++ '\n' :: tail = mark :: behind → False :=
  fun behind same => head_append different (fun behind => none behind same) tail behind

/-- What neither ends a text as a backslash nor escapes is no backslash. -/
theorem ne_backslash {c : Char} (noEnd : c = '\\' → rest = [] → False)
    (noEscape : ∀ d behind, c = '\\' → rest = d :: behind → False) : c ≠ '\\' := by
  rintro rfl
  cases rest with
  | nil => exact noEnd rfl rfl
  | cons d rest => exact noEscape d rest rfl rfl

/-! ## Gaps -/

namespace Gap

variable {length stop : Nat} {state : GapState} {text : List Char}

/-- A gap that ends in front of a word ends there whatever follows the word, and
one up to the end of the text goes on behind a new line. -/
theorem scan_append {last : Nat} (tail : List Char) (closed : scan state length text = .closed stop)
    (whole : last = length + text.length) :
    scan state length (text ++ '\n' :: tail) =
      if stop < last then .closed stop else scan .blank (stop + 1) tail := by
  fun_induction scan state length text with
  | case1 length rest ih | case2 length rest ih | case6 length c rest ih =>
    exact ih closed (by simp at whole; omega)
  | case3 length c rest noLine noBlock blank ih =>
    rw [List.cons_append, scan, if_pos blank]
    · exact ih closed (by simp at whole; omega)
    · exact starts_append (by decide) noLine tail
    · exact starts_append (by decide) noBlock tail
  | case4 length c rest noLine noBlock word =>
    cases closed
    rw [List.cons_append, scan, if_neg word, if_pos (by simp at whole; omega)]
    · exact starts_append (by decide) noLine tail
    · exact starts_append (by decide) noBlock tail
  | case5 length =>
    cases closed
    rw [List.nil_append, scan, if_pos (by decide), if_neg (by simp [whole])]
    · nofun
    · nofun
  | case7 length =>
    cases closed
    rw [if_neg (by simp [whole])]
    rfl
  | case8 start star length c rest ends ih =>
    rw [List.cons_append, scan, if_pos ends]
    exact ih closed (by simp at whole; omega)
  | case9 start star length c rest inner ih =>
    rw [List.cons_append, scan, if_neg inner]
    exact ih closed (by simp at whole; omega)
  | case10 => cases closed

/-- A gap does not end beyond a place, and a comment that never ends starts
before it. -/
def Within (last : Nat) : Gap → Prop
  | closed length => length ≤ last
  | unclosed start => start < last

theorem within_scan (state : GapState) (length : Nat) (text : List Char)
    (inside : ∀ start star, state = .block start star → start < length) :
    (scan state length text).Within (length + text.length) := by
  fun_induction scan state length text with
  | case4 | case5 | case7 => exact Nat.le_add_right _ _
  | case10 => exact inside _ _ rfl
  | case1 _ _ ih | case2 _ _ ih | case3 _ _ _ _ _ _ ih | case6 _ _ _ ih | case8 _ _ _ _ _ _ ih
  | case9 _ _ _ _ _ _ ih =>
    simp only [List.length_cons, ← Nat.add_assoc, Nat.add_right_comm _ _ 1]
    refine ih ?_
    grind

theorem within_ofText (text : List Char) : (ofText text).Within text.length := by
  have within := within_scan .blank 0 text nofun
  rwa [Nat.zero_add] at within

/-- A gap that starts further on. -/
def add (count : Nat) : Gap → Gap
  | closed length => closed (length + count)
  | unclosed start => unclosed (start + count)

end Gap

/-- The part of a gap that is being read, further on. -/
def GapState.add (count : Nat) : GapState → GapState
  | block start star => block (start + count) star
  | state => state

theorem Gap.scan_add (count : Nat) (state : GapState) (length : Nat) (text : List Char) :
    scan (state.add count) (length + count) text = (scan state length text).add count := by
  fun_induction scan state length text with
  | case1 length rest ih | case2 length rest ih =>
    rwa [Nat.add_right_comm] at ih
  | case3 length c rest noLine noBlock blank ih =>
    rw [Nat.add_right_comm] at ih
    rw [GapState.add, scan, if_pos blank]
    · exact ih
    · exact noLine
    · exact noBlock
    · nofun
  | case4 length c rest noLine noBlock word =>
    rw [GapState.add, scan, if_neg word]
    · rfl
    · exact noLine
    · exact noBlock
    · nofun
  | case5 | case7 | case10 => rfl
  | case6 length c rest ih =>
    rw [Nat.add_right_comm] at ih
    rw [GapState.add, scan]
    · rw [← ih]
      split <;> rfl
    · nofun
  | case8 start star length c rest ends ih =>
    rw [Nat.add_right_comm] at ih
    rw [GapState.add, scan, if_pos ends]
    exact ih
  | case9 start star length c rest inner ih =>
    rw [Nat.add_right_comm] at ih
    rw [GapState.add, scan, if_neg inner]
    exact ih

/-! ## Words -/

namespace Lexeme

variable {length : Nat} {lexeme : Lexeme} {text read : List Char}

theorem scanName_append (first : Char) (rest tail : List Char) :
    scanName first (rest ++ '\n' :: tail) = scanName first rest := by
  unfold scanName
  rw [takeWhile_append_newline (by decide)]

theorem scanHex_append (rest tail : List Char) :
    scanHex (rest ++ '\n' :: tail) = scanHex rest := by
  unfold scanHex
  rw [takeWhile_append_newline (by decide)]

theorem scanMagic_append (rest tail : List Char) :
    scanMagic (rest ++ '\n' :: tail) = scanMagic rest := by
  unfold scanMagic
  rw [takeWhile_append_newline (by decide)]

theorem scanExponent_append (text whole : List Char) (fraction : Option (List Char))
    (rest tail : List Char) :
    scanExponent text whole fraction (rest ++ '\n' :: tail) =
      scanExponent text whole fraction rest := by
  cases rest with
  | nil => rfl
  | cons mark rest =>
    have signed : ((rest ++ '\n' :: tail).take 1).takeWhile (fun c => c == '+' || c == '-') =
        (rest.take 1).takeWhile fun c => c == '+' || c == '-' := by
      cases rest <;> rfl
    have shorter : ((rest.take 1).takeWhile fun c => c == '+' || c == '-').length ≤ rest.length :=
      Nat.le_trans (List.takeWhile_prefix _).length_le (List.length_take_le' 1 rest)
    simp only [List.cons_append, scanExponent, signed]
    rw [List.drop_append_of_le_length shorter, takeWhile_append_newline (by decide)]

theorem scanDecimal_append (first : Char) (rest tail : List Char) :
    scanDecimal first (rest ++ '\n' :: tail) = scanDecimal first rest := by
  unfold scanDecimal
  rw [takeWhile_append_newline (by decide), dropWhile_append_newline (by decide)]
  cases rest.dropWhile Char.isDigit with
  | nil => rfl
  | cons c behind =>
    by_cases point : c = '.'
    · subst point
      simp only [List.cons_append]
      rw [takeWhile_append_newline (by decide), dropWhile_append_newline (by decide),
        scanExponent_append]
    · split
      · rename_i equal
        exact absurd (List.cons.inj equal).1 point
      · split
        · rename_i equal
          exact absurd (List.cons.inj equal).1 point
        · exact scanExponent_append _ _ _ (c :: behind) tail

theorem scanNumber_append (first : Char) (rest tail : List Char) :
    scanNumber first (rest ++ '\n' :: tail) = scanNumber first rest := by
  fun_cases scanNumber first rest with
  | case1 rest => exact scanHex_append rest tail
  | case2 rest => exact scanHex_append rest tail
  | case3 =>
    rename_i noLower noUpper
    rw [scanNumber, scanDecimal_append]
    · exact starts_append (by decide) noLower tail
    · exact starts_append (by decide) noUpper tail

theorem scanBarred_append (ok : (scanBarred text read length).result = .ok lexeme)
    (tail : List Char) : scanBarred (text ++ tail) read length = scanBarred text read length := by
  fun_induction scanBarred text read length with
  | case1 | case3 | case5 => cases ok
  | case2 => rfl
  | case4 c rest read length escaped ih =>
    rw [List.cons_append, List.cons_append, scanBarred, if_pos escaped, ih ok]
  | case6 c rest read length noBar noEnd noEscape ih =>
    have plain := ne_backslash noEnd noEscape
    rw [List.cons_append, scanBarred, ih ok]
    · exact noBar
    · exact fun backslash _ => plain backslash
    · exact fun _ _ backslash _ => plain backslash

theorem scanString_escaped {c escaped : Char} (noUnicode : c = 'u' → False)
    (simple : simpleEscape? c = some escaped) (rest read : List Char) (length : Nat) :
    scanString false ('\\' :: c :: rest) read length =
      scanString false rest (escaped :: read) (length + 2) := by
  cases rest <;> simp [scanString, simple]

theorem scanString_append {inRun : Bool}
    (ok : (scanString inRun text read length).result = .ok lexeme) (tail : List Char) :
    scanString inRun (text ++ tail) read length = scanString inRun text read length := by
  fun_induction scanString inRun text read length with
  | case1 | case3 | case6 | case8 | case9 | case12 | case14 | case15 => cases ok
  | case2 inRun behind read length => cases inRun <;> rfl
  | case4 rest read length ih | case11 rest read length ih => exact ih ok
  | case5 c rest read length noUnicode escaped simple ih =>
    exact (scanString_escaped noUnicode simple _ _ _).trans (ih ok)
  | case7 c read length noUnicode simple hex d rest code group ih =>
    simpa [scanString, simple, hex, group] using ih ok
  | case10 c rest read length noQuote noEnd noUnicode noEscape ih =>
    have plain := ne_backslash noEnd noEscape
    rw [List.cons_append, scanString, ih ok]
    · exact noQuote
    · exact fun backslash _ => plain backslash
    · exact fun _ backslash _ => plain backslash
    · exact fun _ _ backslash _ => plain backslash
  | case13 a b c d rest read length noQuote noRun noEscape code group ih =>
    simp only [List.cons_append]
    rw [scanString, group]
    · exact ih ok
    · exact noQuote
    · exact noRun
    · exact noEscape

theorem hexGroup?_append {count code : Nat} (group : hexGroup? count text = some code)
    (tail : List Char) : hexGroup? count (text ++ tail) = some code ∧ count ≤ text.length := by
  unfold hexGroup? at group ⊢
  have parts : (min count text.length = count ∧
      ∀ digit ∈ text.take count, Text.isHexDigit digit = true) ∧
        Text.digitsValue 16 (text.take count) = code := by
    simpa using group
  have enough : count ≤ text.length := by omega
  rw [List.take_append_of_le_length enough]
  exact ⟨group, enough⟩

theorem scanChar_append (ok : (scanChar text).result = .ok lexeme) (tail : List Char) :
    scanChar (text ++ tail) = scanChar text := by
  revert ok
  fun_cases scanChar text with
  | case1 | case2 | case7 | case9 | case10 => nofun
  | case3 | case4 | case5 => exact fun _ => rfl
  | case6 rest code group =>
    intro _
    simp only [List.cons_append, scanChar, (hexGroup?_append group tail).1]
  | case8 c rest noReturn noTab noBackslash noUnicode hex code group =>
    have same := (hexGroup?_append group tail).1
    rw [List.cons_append] at same
    simp [scanChar, hex, same]
  | case11 c rest noEnd _ _ _ _ noEscape =>
    simp [scanChar, ne_backslash noEnd noEscape]

/-- An operator is decided by its first character and by these behind it. -/
theorem scanOperator?_congr (first : Char) {rest' : List Char}
    (same : ∀ mark ∈ ['=', '<', '>', '?', '&'], rest'.head? = some mark ↔ rest.head? = some mark) :
    scanOperator? first rest' = scanOperator? first rest := by
  have some : ∀ mark ∈ ['=', '<', '>', '?', '&'], ∀ {tail}, rest = mark :: tail →
      ∃ tail, rest' = mark :: tail :=
    fun mark isMark tail starts =>
      List.head?_eq_some_iff.mp ((same mark isMark).mpr (congrArg List.head? starts))
  have none : ∀ mark ∈ ['=', '<', '>', '?', '&'], (∀ tail, rest = mark :: tail → False) →
      ∀ tail, rest' = mark :: tail → False := by
    intro mark isMark noMark tail starts
    obtain ⟨tail, starts⟩ :=
      List.head?_eq_some_iff.mp ((same mark isMark).mp (congrArg List.head? starts))
    exact noMark tail starts
  fun_cases scanOperator? first rest with
  | case4 =>
    rename_i noEqual noLess noGreater
    rw [scanOperator?]
    · exact none _ (by simp) noEqual
    · exact none _ (by simp) noLess
    · exact none _ (by simp) noGreater
  | case7 =>
    rename_i noEqual noGreater
    rw [scanOperator?]
    · exact none _ (by simp) noEqual
    · exact none _ (by simp) noGreater
  | case10 =>
    rename_i noEqual noQuery
    rw [scanOperator?]
    · exact none _ (by simp) noEqual
    · exact none _ (by simp) noQuery
  | case12 =>
    rename_i noAmp
    rw [scanOperator?]
    exact none _ (by simp) noAmp
  | case13 | case14 | case15 | case16 | case17 | case18 => rfl
  | case19 =>
    unfold scanOperator?
    split <;> first | rfl | contradiction
  | _ =>
    obtain ⟨_, rfl⟩ := some _ (by simp) rfl
    rfl

theorem scanOperator?_append (first : Char) (rest tail : List Char) :
    scanOperator? first (rest ++ '\n' :: tail) = scanOperator? first rest := by
  refine scanOperator?_congr first fun mark isMark => ?_
  cases rest with
  | nil => simp [show '\n' ≠ mark by rintro rfl; simp at isMark]
  | cons => rfl

/-- A word that starts with a letter or a digit is a name or a number. -/
theorem scan_of_isAlphanum (start : first.isAlphanum = true) (rest : List Char) :
    scan first rest = if first.isDigit then scanNumber first rest
      else if Text.isNameStart first then scanName first rest
      else .fault (.unrecognizedCharacter first) 1 := by
  have noPunctuation : punctuation? first = none := by
    fun_cases punctuation? first with
    | case10 => rfl
    | _ => exact absurd start (by decide)
  have noOperator : scanOperator? first rest = none := by
    fun_cases scanOperator? first rest with
    | case19 => rfl
    | _ => exact absurd start (by decide)
  have noMark : ∀ mark : Char, mark.isAlphanum = false → ¬(first == mark) = true := by
    intro mark noStart equal
    rw [beq_iff_eq.mp equal, noStart] at start
    cases start
  simp only [scan, noPunctuation, noOperator]
  rw [if_neg (noMark _ (by decide)), if_neg (noMark _ (by decide)),
    if_neg (noMark _ (by decide)), if_neg (noMark _ (by decide))]

/-- A word is read alike when a new line follows the text. -/
theorem scan_append (ok : (scan first rest).result = .ok lexeme) (tail : List Char) :
    scan first (rest ++ '\n' :: tail) = scan first rest := by
  revert ok
  unfold scan
  rw [scanOperator?_append, scanMagic_append, scanNumber_append, scanName_append]
  cases punctuation? first with
  | some mark => exact fun _ => rfl
  | none =>
    cases scanOperator? first rest with
    | some scanned => exact fun _ => rfl
    | none =>
      intro ok
      by_cases quote : first == '"'
      · simp only [if_pos quote] at ok ⊢
        exact scanString_append ok ('\n' :: tail)
      simp only [if_neg quote] at ok ⊢
      by_cases bar : first == '|'
      · simp only [if_pos bar] at ok ⊢
        exact scanBarred_append ok ('\n' :: tail)
      simp only [if_neg bar] at ok ⊢
      by_cases dollar : first == '$'
      · simp only [if_pos dollar] at ok ⊢
        exact scanChar_append ok ('\n' :: tail)
      · simp only [if_neg dollar]

end Lexeme

end NewtonScript
