import NewtonScript.Proofs.Invariant
import NewtonScript.Proofs.Reading.Words
import NewtonScript.Token.Stream

/-!
# Faults of the text

Most faults tell of something that a text asks for and cannot have.  A few tell
that something stands in a wrong place of the tree.  Reading words finds none
of these.
-/

namespace NewtonScript

variable {lexeme : Lexeme}

/-- Whether a fault does not tell that something stands in a wrong place: a
break in no loop, a variable without a slot, a function literal without a
scope. -/
def Fault.Ordinary : Fault → Prop
  | .breakOutsideLoop => False
  | .notLocal _ => False
  | .undeclaredFunction => False
  | _ => True

namespace Lexeme

/-- Whether a word is a name, a reserved word or a literal. -/
def isText : Lexeme → Bool
  | .literal _ | .identifier _ | .keyword _ => true
  | _ => false

/-- Integers are at most as large as the smallest one is in magnitude. -/
def Fits : Lexeme → Prop
  | .literal (.integer value) => value ≤ maxMagnitude
  | _ => True

end Lexeme

/-- At least so much was read, and it is a text that fits and is no longer than
what there is, or has an ordinary fault. -/
structure Scanned.IsText (least most : Nat) (scanned : Scanned) : Prop where
  length : least ≤ scanned.length
  ok : ∀ lexeme, scanned.result = .ok lexeme →
    lexeme.isText = true ∧ lexeme.Fits ∧ scanned.length ≤ most
  error : ∀ fault, scanned.result = .error fault → fault.Ordinary

/-- Something was read of a word that starts a text, and it ends within the text
or has an ordinary fault. -/
structure Scanned.IsWord (first : Char) (rest : List Char) (scanned : Scanned) : Prop where
  length : 0 < scanned.length
  ok : ∀ lexeme, scanned.result = .ok lexeme →
    lexeme.Fits ∧ scanned.length ≤ rest.length + 1 ∧
      ((∃ mark, Lexeme.punctuation? first = some mark ∧ lexeme = .punctuation mark ∧
          scanned.length = 1) ∨
        (∃ op, lexeme = .operator op) ∨ lexeme.isText = true)
  error : ∀ fault, scanned.result = .error fault → fault.Ordinary

namespace Scanned

variable {least most length : Nat}

theorem IsText.mono {most' : Nat} {scanned : Scanned} (text : scanned.IsText length most')
    (long : least ≤ length) (short : most' ≤ most) : scanned.IsText least most :=
  ⟨Nat.le_trans long text.length, fun lexeme ok =>
    (text.ok lexeme ok).imp id (.imp id (Nat.le_trans · short)), text.error⟩

theorem isWord_word {first : Char} {rest : List Char} (fits : lexeme.Fits) (long : 0 < length)
    (short : length ≤ rest.length + 1)
    (kind : (∃ mark, Lexeme.punctuation? first = some mark ∧ lexeme = .punctuation mark ∧
        length = 1) ∨ (∃ op, lexeme = .operator op) ∨ lexeme.isText = true) :
    (word lexeme length).IsWord first rest :=
  ⟨long, by rintro _ ⟨⟩; exact ⟨fits, short, kind⟩, by rintro _ ⟨⟩⟩

theorem IsText.isWord {first : Char} {rest : List Char} {scanned : Scanned}
    (text : scanned.IsText 1 (rest.length + 1)) : scanned.IsWord first rest :=
  ⟨text.length, fun _ ok =>
    have ⟨isText, fits, short⟩ := text.ok _ ok
    ⟨fits, short, .inr (.inr isText)⟩, text.error⟩

theorem isText_word (text : lexeme.isText = true) (fits : lexeme.Fits) (long : least ≤ length)
    (short : length ≤ most) : (word lexeme length).IsText least most :=
  ⟨long, by rintro _ ⟨⟩; exact ⟨text, fits, short⟩, nofun⟩

theorem isText_literal {value : Literal} (fits : (Lexeme.literal value).Fits)
    (long : least ≤ length) (short : length ≤ most) : (literal value length).IsText least most :=
  isText_word rfl fits long short

theorem isText_fault {fault : Fault} (ordinary : fault.Ordinary) (long : least ≤ length) :
    (Scanned.fault fault length).IsText least most :=
  ⟨long, nofun, by rintro _ ⟨⟩; exact ordinary⟩

end Scanned

namespace Lexeme

open Scanned

variable {first : Char} {rest : List Char}

theorem isText_scanBarred (text read : List Char) (length : Nat) :
    (scanBarred text read length).IsText length (length + text.length) := by
  fun_induction scanBarred text read length with
  | case4 _ _ _ _ _ ih | case6 _ _ _ _ _ _ _ ih =>
    exact ih.mono (by omega) (by simp only [List.length_cons]; omega)
  | case2 => exact isText_word rfl trivial (by omega) (by simp)
  | _ => exact isText_fault trivial (by omega)

theorem isText_scanString (inRun : Bool) (text read : List Char) (length : Nat) :
    (scanString inRun text read length).IsText length (length + text.length) := by
  fun_induction scanString inRun text read length with
  | case4 _ _ _ ih | case5 _ _ _ _ _ _ _ ih
  | case7 _ _ _ _ _ _ _ _ _ _ ih | case10 _ _ _ _ _ _ _ _ ih
  | case11 _ _ _ ih | case13 _ _ _ _ _ _ _ _ _ _ _ _ ih =>
    exact ih.mono (by omega) (by simp only [List.length_cons]; omega)
  | case2 => exact isText_literal trivial (by omega) (by simp)
  | _ => exact isText_fault trivial (by omega)

@[simp]
theorem length_ofCharCode (code length : Nat) : (ofCharCode code length).length = length := by
  unfold ofCharCode
  split <;> rfl

theorem isText_scanChar (text : List Char) : (scanChar text).IsText 1 (text.length + 1) := by
  have ofCode : ∀ code {length : Nat}, 1 ≤ length → length ≤ text.length + 1 →
      (ofCharCode code length).IsText 1 (text.length + 1) := by
    intro code length long short
    unfold ofCharCode
    split
    · exact isText_literal trivial long short
    · exact isText_fault trivial long
  revert ofCode
  fun_cases scanChar text with
  | case3 | case4 | case5 | case11 => exact fun ofCode => ofCode _ (by omega) (by simp)
  | case6 _ _ group | case8 _ _ _ _ _ _ _ _ group =>
    have enough := (hexGroup?_append group []).2
    exact fun ofCode => ofCode _ (by omega) (by simp only [List.length_cons] at *; omega)
  | _ => exact fun _ => isText_fault trivial (by omega)

theorem length_takeWhile_le {α : Type} (p : α → Bool) (text : List α) :
    (text.takeWhile p).length ≤ text.length :=
  (List.takeWhile_prefix p).length_le

theorem isText_scanExponent {text whole : List Char} (some : 1 ≤ whole.length)
    (longer : whole.length ≤ text.length) (fraction : Option (List Char)) (rest : List Char) :
    (scanExponent text whole fraction rest).IsText 1 (text.length + rest.length) := by
  have plain : (scanExponent text whole fraction []).IsText 1 text.length := by
    cases fraction with
    | some => exact isText_literal trivial (Nat.le_trans some longer) (Nat.le_refl _)
    | none =>
      change (ofDigits whole).IsText 1 text.length
      unfold ofDigits
      dsimp only
      split
      · rename_i fits
        exact isText_literal fits some longer
      · exact isText_fault trivial some
  cases rest with
  | nil => exact plain
  | cons mark rest =>
    unfold scanExponent
    dsimp only
    split
    · generalize signed : ((rest.take 1).takeWhile fun c => c == '+' || c == '-') = sign
      have signs : sign.length ≤ rest.length := by
        rw [← signed]
        exact Nat.le_trans (length_takeWhile_le _ _) (List.length_take_le' 1 rest)
      have digits := length_takeWhile_le Char.isDigit (rest.drop sign.length)
      rw [List.length_drop] at digits
      split
      · exact isText_fault trivial (by simp only [List.length_append]; omega)
      · refine isText_literal trivial ?_ ?_ <;>
          simp only [List.length_append, List.length_cons] <;> omega
    · exact plain.mono (Nat.le_refl 1) (Nat.le_add_right _ _)

theorem isText_scanNumber (first : Char) (rest : List Char) :
    (scanNumber first rest).IsText 1 (rest.length + 1) := by
  have hex : ∀ rest, (scanHex rest).IsText 1 (rest.length + 2) := by
    intro rest
    have digits := length_takeWhile_le Text.isHexDigit rest
    unfold scanHex
    dsimp only
    split
    · exact isText_fault trivial (by omega)
    · split
      · rename_i fits
        exact isText_literal fits (by omega) (by omega)
      · exact isText_fault trivial (by omega)
  have split : ∀ digits : List Char, (digits.takeWhile Char.isDigit).length +
      (digits.dropWhile Char.isDigit).length = digits.length := by
    intro digits
    rw [← List.length_append, List.takeWhile_append_dropWhile]
  fun_cases scanNumber first rest with
  | case1 rest | case2 rest => exact hex rest
  | case3 =>
    have whole := split rest
    unfold scanDecimal
    split
    · rename_i places found
      have behind := split places
      refine (isText_scanExponent ?_ ?_ _ _).mono (Nat.le_refl 1) ?_
      · simp
      · simp
      · simp only [found, List.length_append, List.length_cons] at whole ⊢
        omega
    · refine (isText_scanExponent ?_ (Nat.le_refl _) _ _).mono (Nat.le_refl 1) ?_
      · simp
      · simp only [List.length_cons]
        omega

theorem isText_scanMagic (rest : List Char) : (scanMagic rest).IsText 1 (rest.length + 1) := by
  have digits := length_takeWhile_le Char.isDigit rest
  unfold scanMagic
  dsimp only
  split
  · exact isText_fault trivial (by omega)
  · split
    · exact isText_literal trivial (by omega) (by omega)
    · exact isText_fault trivial (by omega)

theorem isText_scanName (first : Char) (rest : List Char) :
    (scanName first rest).IsText 1 (rest.length + 1) := by
  have ofText : ∀ text, (ofName text).isText = true ∧ (ofName text).Fits := by
    intro text
    unfold ofName
    dsimp only
    repeat' split
    all_goals exact ⟨rfl, trivial⟩
  exact isText_word (ofText _).1 (ofText _).2 (by simp)
    (Nat.add_le_add_right (length_takeWhile_le Text.isNamePart rest) 1)

/-- A word is a mark of punctuation of one character, an operator or a text. -/
theorem isWord_scan (first : Char) (rest : List Char) : (scan first rest).IsWord first rest := by
  fun_cases scan first rest with
  | case1 mark found =>
    exact isWord_word trivial Nat.one_pos (Nat.le_add_left 1 _) (.inl ⟨mark, found, rfl, rfl⟩)
  | case2 _ scanned found =>
    obtain ⟨op, length, ⟨long, short⟩, rfl⟩ : ∃ op length, (1 ≤ length ∧ length ≤ rest.length + 1) ∧
        scanned = .word (.operator op) length := by
      revert found
      fun_cases scanOperator? first rest with
      | case19 => rintro ⟨⟩
      | _ =>
        rintro ⟨⟩
        exact ⟨_, _, by simp, rfl⟩
    exact isWord_word trivial long short (.inr (.inl ⟨op, rfl⟩))
  | case3 => exact ((isText_scanString _ _ _ _).mono (Nat.le_refl 1) (by omega)).isWord
  | case4 => exact ((isText_scanBarred _ _ _).mono (Nat.le_refl 1) (by omega)).isWord
  | case5 => exact (isText_scanChar _).isWord
  | case6 => exact (isText_scanMagic _).isWord
  | case7 => exact (isText_scanNumber _ _).isWord
  | case8 => exact (isText_scanName _ _).isWord
  | case9 => exact IsText.isWord (isText_fault trivial (Nat.le_refl 1))

/-- No word is the end of a text. -/
theorem result_scan_ne (first : Char) (rest : List Char) :
    (scan first rest).result ≠ .ok .eof := by
  intro ok
  obtain ⟨mark, -, equal, -⟩ | ⟨op, equal⟩ | text := ((isWord_scan first rest).ok _ ok).2.2
  · cases equal
  · cases equal
  · cases text

end Lexeme

/-- A reading that fails finds an ordinary fault in what stands behind a part of
the text that is not all of it. -/
theorem Cursor.scan_eq_error {cursor after : Cursor} {failure : Failure}
    (read : cursor.scan = (.error failure, after)) :
    failure.fault.Ordinary ∧ ∃ gap count, (cursor.skip gap).rest ≠ [] ∧ 0 < count ∧
      after = (cursor.skip gap).skip count ∧ failure.span = (cursor.skip gap).spanTo after := by
  unfold scan at read
  split at read
  · rename_i start unclosed
    cases read
    have more : (cursor.skip start).rest ≠ [] := by
      have within := Gap.within_ofText cursor.rest
      rw [unclosed] at within
      rw [rest_skip]
      exact mt List.drop_eq_nil_iff.mp (Nat.not_le_of_lt within)
    exact ⟨trivial, start, _, more, List.length_pos_iff.mpr more, rfl, rfl⟩
  · rename_i gap _
    dsimp only at read
    split at read
    · cases read
    · rename_i first rest starts
      have word := Lexeme.isWord_scan first rest
      split at read
      · cases read
      · rename_i fault found
        cases read
        exact ⟨word.error _ found, gap, _, by rw [starts]; nofun, word.length, rfl, rfl⟩

namespace TokenStream

variable {stream after : TokenStream} {failure : Failure}

theorem scan_eq_error (run : scan stream = .error failure after) :
    ∃ cursor, stream.cursor.scan = (.error failure, cursor) ∧ after = { stream with cursor } := by
  unfold scan at run
  split at run
  · cases run
  · rename_i cursor read
    cases run
    exact ⟨cursor, read, rfl⟩

/-- A stream fails to give a token where none can be read, or none behind a
separator. -/
theorem next_eq_error (run : next stream = .error failure after) :
    stream.pending = none ∧ (scan stream = .error failure after ∨
      ∃ token middle, scan stream = .ok token middle ∧ scan middle = .error failure after) := by
  obtain run | ⟨_, _, ⟨⟩, run⟩ := run_bind_eq_error run
  · cases run
  cases found : stream.pending with
  | some ahead =>
    rw [found] at run
    cases run
  | none =>
    rw [found] at run
    refine ⟨rfl, ?_⟩
    obtain run | ⟨first, middle, scanned, run⟩ := run_bind_eq_error run
    · exact .inl run
    · split at run
      · obtain run | ⟨following, last, -, run⟩ := run_bind_eq_error run
        · exact .inr ⟨first, middle, scanned, run⟩
        · split at run <;> cases run
      · cases run

theorem ordinary_next (run : next stream = .error failure after) : failure.fault.Ordinary := by
  obtain ⟨-, run | ⟨_, _, -, run⟩⟩ := next_eq_error run <;>
  · obtain ⟨_, read, -⟩ := scan_eq_error run
    exact (Cursor.scan_eq_error read).1

end TokenStream

end NewtonScript
