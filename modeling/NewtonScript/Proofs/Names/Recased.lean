import NewtonScript.Proofs.Names.Spelled

/-!
# Texts with their names recased

A text is a sequence of words with gaps between them, up to its end or to the
first fault.  Two texts are recased when they differ only in the case of
letters in bare and barred names, and behind a fault.  Their words are read
alike, one after the other, so their streams go together.
-/

namespace NewtonScript

open Text (SameLetter SameLetters)

/-- The second text is the first one with other cases for letters of its
names.  Words are read with all that is behind them. -/
inductive Recased : List Char → List Char → Prop where
  | same (text : List Char) : Recased text text
  /-- A reserved word, `nil`, `true` or an identifier, or a name between bars. -/
  | name {gap more more' rest rest' : List Char} {first first' : Char}
      (closed : Gap.ofText (gap ++ first :: (more ++ rest)) = .closed gap.length)
      (named : first = '|' ∨ Text.isNameStart first = true)
      (whole : (Lexeme.scan first (more ++ rest)).length = more.length + 1)
      (letter : SameLetter first first') (letters : SameLetters more more')
      (later : Recased rest rest') :
      Recased (gap ++ first :: (more ++ rest)) (gap ++ first' :: (more' ++ rest'))
  /-- Any word, unchanged. -/
  | word {gap more rest rest' : List Char} {first : Char} {lexeme : Lexeme}
      (closed : Gap.ofText (gap ++ first :: (more ++ rest)) = .closed gap.length)
      (read : (Lexeme.scan first (more ++ rest)).result = .ok lexeme)
      (whole : (Lexeme.scan first (more ++ rest)).length = more.length + 1)
      (later : Recased rest rest') :
      Recased (gap ++ first :: (more ++ rest)) (gap ++ first :: (more ++ rest'))
  /-- A fault; in a string or a character only what is behind it may change. -/
  | refused {gap rest rest' : List Char} {first : Char} {fault : Fault}
      (closed : Gap.ofText (gap ++ first :: rest) = .closed gap.length)
      (refused : (Lexeme.scan first rest).result = .error fault) (letters : SameLetters rest rest')
      (literal : first = '"' ∨ first = '$' →
        rest'.take ((Lexeme.scan first rest).reach - 1) =
          rest.take ((Lexeme.scan first rest).reach - 1)) :
      Recased (gap ++ first :: rest) (gap ++ first :: rest')

theorem Text.SameLetters.append {first first' second second' : List Char}
    (same : SameLetters first first') (behind : SameLetters second second') :
    SameLetters (first ++ second) (first' ++ second') :=
  List.rel_append same behind

theorem Recased.sameLetters {text text' : List Char} (recased : Recased text text') :
    SameLetters text text' := by
  induction recased with
  | same text => exact .refl text
  | name _ _ _ letter letters _ ih =>
    exact (SameLetters.refl _).append (.cons letter (letters.append ih))
  | word _ _ _ _ ih =>
    exact (SameLetters.refl _).append (.cons (.refl _) ((SameLetters.refl _).append ih))
  | refused _ _ letters _ => exact (SameLetters.refl _).append (.cons (.refl _) letters)

/-! ## Cursors -/

namespace Cursor

/-- Cursors at one place of texts with the same letters. -/
structure Abreast (first second : Cursor) : Prop where
  letters : SameLetters first.rest second.rest
  offset : second.offset = first.offset
  line : second.line = first.line

variable {first second : Cursor}

theorem Abreast.skip (abreast : first.Abreast second) (count : Nat) :
    (first.skip count).Abreast (second.skip count) := by
  induction count generalizing first second with
  | zero => exact abreast
  | succ count ih =>
    obtain ⟨rest, offset, line⟩ := first
    obtain ⟨rest', offset', line'⟩ := second
    obtain ⟨letters, rfl, rfl⟩ := abreast
    cases letters with
    | nil => exact ⟨.nil, rfl, rfl⟩
    | cons letter behind =>
      refine ih ⟨behind, ?_, ?_⟩
      · simp only [after, letter.utf8Size_eq]
      · have newline : _ = '\n' ↔ _ = '\n' := letter.eq_iff (by decide)
        simp only [after, newline]

theorem Abreast.spanTo_eq {stop stop' : Cursor} (starts : first.Abreast second)
    (stops : stop.Abreast stop') : second.spanTo stop' = first.spanTo stop := by
  rw [spanTo, spanTo, starts.offset, starts.line, stops.offset]

/-- Cursors at one place of texts of which one is the other recased. -/
structure Recased (first second : Cursor) : Prop where
  text : NewtonScript.Recased first.rest second.rest
  offset : second.offset = first.offset
  line : second.line = first.line

theorem Recased.abreast (recased : first.Recased second) : first.Abreast second :=
  ⟨recased.text.sameLetters, recased.offset, recased.line⟩

/-- Two readings of a token that go together. -/
inductive ReadAlike : Except Failure Token × Cursor → Except Failure Token × Cursor → Prop where
  | token {token token' : Token} {after after' : Cursor}
      (same : token.Same .folded True token') (behind : after.Recased after') :
      ReadAlike (.ok token, after) (.ok token', after')
  | failure {failure failure' : Failure} {after after' : Cursor} (akin : failure.Akin failure') :
      ReadAlike (.error failure, after) (.error failure', after')

theorem ReadAlike.refl (reading : Except Failure Token × Cursor) : ReadAlike reading reading := by
  obtain ⟨failure | token, after⟩ := reading
  · exact .failure ⟨rfl, rfl⟩
  · exact .token ⟨.refl _, rfl, fun _ => trivial⟩ ⟨.same _, rfl, rfl⟩

/-- The token that a word at a cursor makes. -/
def reading (start : Cursor) (scanned : Scanned) : Except Failure Token × Cursor :=
  let stop := start.skip scanned.length
  match scanned.result with
  | .ok lexeme => (.ok ⟨lexeme, start.spanTo stop⟩, stop)
  | .error fault => (.error ⟨fault, start.spanTo stop⟩, stop)

theorem scan_eq_reading {cursor : Cursor} {gap rest : List Char} {c : Char}
    (text : cursor.rest = gap ++ c :: rest) (closed : Gap.ofText cursor.rest = .closed gap.length) :
    cursor.scan = (cursor.skip gap.length).reading (Lexeme.scan c rest) := by
  have starts : (cursor.skip gap.length).rest = c :: rest := by
    rw [rest_skip, text, List.drop_left]
  unfold Cursor.scan
  rw [closed]
  dsimp only
  rw [starts]
  rfl

/-- Words that are read alike make tokens that go together. -/
theorem readAlike_reading {scanned scanned' : Scanned} (abreast : first.Abreast second)
    (akin : scanned.Akin scanned')
    (behind : ∀ lexeme, scanned.result = .ok lexeme →
      NewtonScript.Recased (first.rest.drop scanned.length) (second.rest.drop scanned.length)) :
    ReadAlike (first.reading scanned) (second.reading scanned') := by
  cases akin with
  | @word lexeme lexeme' length same =>
    have stops := abreast.skip length
    refine .token ⟨same, abreast.spanTo_eq stops, fun _ => trivial⟩ ⟨?_, stops.offset, stops.line⟩
    rw [rest_skip, rest_skip]
    exact behind lexeme rfl
  | @fault _ _ length code => exact .failure ⟨code, abreast.spanTo_eq (abreast.skip length)⟩

/-- The same behind a gap. -/
theorem readAlike_of_akin {gap rest rest' : List Char} {c c' : Char}
    (abreast : first.Abreast second) (text : first.rest = gap ++ c :: rest)
    (text' : second.rest = gap ++ c' :: rest')
    (closed : Gap.ofText (gap ++ c :: rest) = .closed gap.length)
    (akin : (Lexeme.scan c rest).Akin (Lexeme.scan c' rest'))
    (behind : ∀ lexeme, (Lexeme.scan c rest).result = .ok lexeme →
      NewtonScript.Recased ((c :: rest).drop (Lexeme.scan c rest).length)
        ((c' :: rest').drop (Lexeme.scan c rest).length)) :
    ReadAlike first.scan second.scan := by
  have closed : Gap.ofText first.rest = .closed gap.length := text ▸ closed
  have closed' : Gap.ofText second.rest = .closed gap.length :=
    (Gap.scan_eq_of_sameLetters abreast.letters).trans closed
  rw [scan_eq_reading text closed, scan_eq_reading text' closed']
  refine readAlike_reading (abreast.skip gap.length) akin ?_
  rwa [rest_skip, rest_skip, text, text', List.drop_left, List.drop_left]

theorem readAlike_scan (recased : first.Recased second) : ReadAlike first.scan second.scan := by
  have abreast := recased.abreast
  obtain ⟨texts, offset, line⟩ := recased
  generalize text : first.rest = front, text' : second.rest = front' at texts
  cases texts with
  | same =>
    have same : second = first := by
      cases first
      cases second
      simp_all
    rw [same]
    exact .refl _
  | name closed named whole letter letters later =>
    have akin := Lexeme.akin_scan_name named letter (letters.append later.sameLetters)
    refine readAlike_of_akin abreast text text' closed akin fun _ _ => ?_
    rw [whole, List.drop_succ_cons, List.drop_succ_cons, List.drop_left]
    rwa [letters.length_eq, List.drop_left]
  | @word _ more rest rest' c _ closed read whole later =>
    have agree : Text.Agree more.length (more ++ rest) (more ++ rest') :=
      ⟨(SameLetters.refl more).append later.sameLetters, by rw [List.take_left, List.take_left]⟩
    have reach : (Lexeme.scan c (more ++ rest)).reach ≤ more.length + 1 := by
      rw [Scanned.reach, read]
      exact Nat.le_of_eq whole
    have akin := Lexeme.akin_scan_of_agree agree reach
    refine readAlike_of_akin abreast text text' closed akin fun _ _ => ?_
    rw [whole, List.drop_succ_cons, List.drop_succ_cons, List.drop_left, List.drop_left]
    exact later
  | @refused _ rest rest' c fault closed refused letters literal =>
    have akin : (Lexeme.scan c rest).Akin (Lexeme.scan c rest') := by
      by_cases quoted : c = '"' ∨ c = '$'
      · exact Lexeme.akin_scan_of_agree ⟨letters, literal quoted⟩ (by omega)
      · exact Lexeme.akin_scan_of_sameLetters (fun quote => quoted (.inl quote))
          (fun dollar => quoted (.inr dollar)) letters
    refine readAlike_of_akin abreast text text' closed akin fun lexeme read => ?_
    rw [refused] at read
    cases read

end Cursor

/-! ## Streams -/

/-- Names that differ in case are interned as one. -/
theorem Lexeme.Same.intern {lexeme lexeme' : Lexeme} {store store' : Store}
    (same : lexeme.Same Symbol.normal lexeme') (stores : store.Akin store') :
    (lexeme.intern store).1.Same Symbol.normal (lexeme'.intern store').1 ∧
      (lexeme.intern store).2.Akin (lexeme'.intern store').2 := by
  cases same with
  | @name first second named =>
    have folded : foldCase second.spelling = foldCase first.spelling := by
      rw [← second.folded_eq, ← first.folded_eq, Symbol.normal_eq_iff.mp named]
    obtain ⟨names, after⟩ := stores.intern folded
    exact ⟨.name (Symbol.same_iff.mp names), after⟩
  | @word lexeme noName =>
    cases lexeme with
    | identifier => cases noName
    | _ => exact ⟨.word rfl, stores⟩

namespace TokenStream

/-- Streams of recased texts, with the same token read ahead. -/
structure Recased (first second : TokenStream) : Prop where
  cursor : first.cursor.Recased second.cursor
  pending : Option.Rel (Token.Same .folded True) first.pending second.pending

/-- Failures go together; what is left behind them is of no interest. -/
def recasedTerms : Terms Failure TokenStream where
  exact := True
  failed failure failure' _ _ := failure.Akin failure'

/-- Streams of recased texts over stores that differ in spellings only. -/
def Together (first second : TokenStream) : Prop :=
  first.Recased second ∧ first.store.Akin second.store

theorem agree_scan : Agree recasedTerms Together scan scan fun token token' after after' =>
    token.Same .folded True token' ∧ after.Together after' := by
  rintro first second ⟨⟨cursors, pendings⟩, stores⟩
  have alike := Cursor.readAlike_scan cursors
  unfold scan
  generalize first.cursor.scan = reading at alike
  generalize second.cursor.scan = reading' at alike
  cases alike with
  | token same behind =>
    obtain ⟨lexemes, after⟩ := same.lexeme.intern stores
    exact fun _ => ⟨_, _, rfl, ⟨lexemes, same.span, fun _ => trivial⟩, ⟨behind, pendings⟩, after⟩
  | failure akin => exact fun _ => ⟨_, _, rfl, akin⟩

/-- What is done behind the next token of the text: a separator that the token
behind it absorbs is left out. -/
def behindToken (token : Token) : ReadM Token := do
  if token.lexeme.isSeparator then
    let following ← scan
    if token.lexeme.absorbedBy following.lexeme then
      return following
    else
      modify fun stream => { stream with pending := some following }
      return token
  else
    return token

theorem next_of_none {stream : TokenStream} (absent : stream.pending = none) :
    next stream = (scan >>= behindToken) stream := by
  rw [next, run_bind_of_ok (run_get stream), absent]
  rfl

theorem agree_behindToken {token token' : Token} (same : token.Same .folded True token') :
    Agree recasedTerms Together (behindToken token) (behindToken token')
      fun token token' after after' =>
        token.Same .folded True token' ∧ after.Together after' := by
  unfold behindToken
  rw [same.lexeme.isSeparator_eq]
  split
  · refine agree_scan.bind fun following following' => ?_
    refine AgreeWhere.of_fact (fun _ _ holds => holds.1) fun alike => ?_
    rw [same.lexeme.absorbedBy_eq alike.lexeme]
    split
    · exact agree_pure fun _ _ holds => holds
    · have kept : ∀ first second : TokenStream, first.Together second →
          Together { first with pending := some following }
            { second with pending := some following' } :=
        fun _ _ together => ⟨⟨together.1.cursor, .some alike⟩, together.2⟩
      exact (agree_modify fun first second holds => kept first second holds.2).bind fun _ _ =>
        agree_pure fun _ _ together => ⟨same, together⟩
  · exact agree_pure fun _ _ together => ⟨same, together⟩

theorem agree_next : Agree recasedTerms Together next next fun token token' after after' =>
    token.Same .folded True token' ∧ after.Together after' := by
  intro first second together
  have ⟨⟨cursors, pendings⟩, stores⟩ := together
  generalize present : first.pending = ahead, present' : second.pending = ahead' at pendings
  cases pendings with
  | some same =>
    rw [next_of_pending present, next_of_pending present']
    exact fun _ => ⟨_, _, rfl, same, ⟨cursors, .none⟩, stores⟩
  | none =>
    rw [next_of_none present, next_of_none present']
    refine (agree_scan.bind fun token token' => ?_) first second together
    exact AgreeWhere.of_fact (fun _ _ holds => holds.1) fun same =>
      (agree_behindToken same).of_related fun _ _ holds => holds.2

end TokenStream

end NewtonScript
