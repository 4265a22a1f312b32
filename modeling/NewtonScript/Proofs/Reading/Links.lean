import NewtonScript.Proofs.Pairing.Paired

/-!
# Two ways to pair parsers

A text is paired with itself at another place, and with a longer text that
goes on behind it with a semicolon on a line of its own.  Nothing is asked of
failures.
-/

namespace NewtonScript

theorem Lexeme.absorbedBy_eof (lexeme : Lexeme) : lexeme.absorbedBy .eof = false := by
  cases lexeme with
  | punctuation mark => cases mark <;> rfl
  | _ => rfl

theorem Lexeme.absorbedBy_semicolon (lexeme : Lexeme) :
    lexeme.absorbedBy (.punctuation .semicolon) = false := by
  cases lexeme with
  | punctuation mark => cases mark <;> rfl
  | _ => rfl

theorem Lexeme.ne_eof_of_isSeparator {lexeme : Lexeme} (separates : lexeme.isSeparator = true) :
    lexeme ≠ .eof := by
  rintro rfl
  cases separates

/-- Tokens for one word at two places are the same. -/
theorem Token.Interned.same {raw raw' token token' : Token} {shift : Shift} {together : Prop}
    (interned : raw.Interned token) (interned' : raw'.Interned token')
    (equal : raw'.lexeme = raw.lexeme) (moved : raw'.span = raw.span.moved shift)
    (ends : raw.lexeme = .eof → together) : token.Same (.moved shift) together token' := by
  refine ⟨interned.lexeme.symm.trans (equal ▸ interned'.lexeme), ?_, ?_⟩
  · rw [interned'.span, moved, interned.span]
  · exact fun eof => ends (interned.lexeme.eq_eof_iff.mp eof)

/-- A cursor in front of a word that does not absorb a semicolon. -/
def Cursor.Opens (cursor : Cursor) : Prop :=
  ∃ raw behind, cursor.Reads raw behind ∧ raw.lexeme.closesSequence = false

/-- The cursor behind a new line and a semicolon that follow the end of a text. -/
def Cursor.behindJoint (finish : Cursor) (tail : List Char) : Cursor :=
  ⟨tail, finish.offset + 2, finish.line + 1⟩

namespace TokenStream

/-! ## At another place -/

/-- Streams of the same text at two places. -/
structure Moved (shift : Shift) (first second : TokenStream) : Prop where
  cursor : second.cursor = first.cursor.moved shift
  pending : Option.Rel (Token.Same (.moved shift) True) first.pending second.pending

theorem Moved.next {shift : Shift} {first second after : TokenStream} {token : Token}
    (moved : Moved shift first second) (run : TokenStream.next first = .ok token after) :
    ∃ token' after', TokenStream.next second = .ok token' after' ∧
      token.Same (.moved shift) True token' ∧ Moved shift after after' := by
  have absence : first.pending = none → second.pending = none := by
    intro absent
    have related := moved.pending
    rw [absent] at related
    cases found : second.pending with
    | none => rfl
    | some =>
      rw [found] at related
      cases related
  cases yields_of_next run with
  | pending present =>
    have related := moved.pending
    rw [present] at related
    cases found : second.pending with
    | none =>
      rw [found] at related
      cases related
    | some token' =>
      rw [found] at related
      cases related with
      | some same => exact ⟨token', _, next_of_pending found, same, moved.cursor, .none⟩
  | word absent reads interned plain =>
    have here := moved.cursor.symm ▸ reads.moved shift
    obtain ⟨token', store, interned', run'⟩ := next_of_word (absence absent) here plain
    exact ⟨token', _, run', interned.same interned' rfl rfl fun _ => trivial, rfl, .none⟩
  | separator absent reads interned separates reads' interned' kept =>
    have here := moved.cursor.symm ▸ reads.moved shift
    obtain ⟨token', following', store, like, like', run'⟩ :=
      next_of_separator (absence absent) here separates (reads'.moved shift)
    rw [kept] at run'
    exact ⟨token', _, run', interned.same like rfl rfl fun _ => trivial, rfl,
      .some (interned'.same like' rfl rfl fun _ => trivial)⟩
  | absorbed absent reads separates reads' interned' dropped =>
    have here := moved.cursor.symm ▸ reads.moved shift
    obtain ⟨token', following', store, like, like', run'⟩ :=
      next_of_separator (absence absent) here separates (reads'.moved shift)
    rw [dropped] at run'
    exact ⟨following', _, run', interned'.same like' rfl rfl fun _ => trivial, rfl, .none⟩

/-! ## In front of a semicolon -/

/-- A stream that stands at a cursor: the token there is read next, if it was
not read ahead. -/
inductive Stands (stream : TokenStream) (cursor : Cursor) : Prop where
  | unread (absent : stream.pending = none) (here : stream.cursor = cursor)
  | read {raw token : Token} (reads : cursor.Reads raw stream.cursor)
      (interned : raw.Interned token) (present : stream.pending = some token)

/-- The streams of a text with the given end and of a text in which a new line,
a semicolon and more follow it. -/
inductive Joined (finish : Cursor) (tail : List Char) (first second : TokenStream) : Prop where
  | unread (absent : first.pending = none) (absent' : second.pending = none)
      (cursor : second.cursor = first.cursor.followed ('\n' :: ';' :: tail))
      (ends : first.cursor.finish = finish)
  | read {token token' : Token} (present : first.pending = some token)
      (present' : second.pending = some token') (same : token.Same (.moved {}) False token')
      (cursor : second.cursor = first.cursor.followed ('\n' :: ';' :: tail))
      (ends : first.cursor.finish = finish)
  | last {token token' : Token} (present : first.pending = some token)
      (present' : second.pending = some token') (eof : token.lexeme = .eof)
      (semicolon : token'.lexeme = .punctuation .semicolon)
      (cursor : second.cursor = finish.behindJoint tail)

section

variable {finish : Cursor} {tail : List Char} {first second after : TokenStream} {token : Token}

theorem Joined.next (opens : (finish.behindJoint tail).Opens)
    (joined : Joined finish tail first second) (run : TokenStream.next first = .ok token after) :
    ∃ token' after', TokenStream.next second = .ok token' after' ∧
      Pairing.Found (.moved {}) False (Joined finish tail) (Stands · (finish.behindJoint tail))
        token token' after after' := by
  cases joined with
  | last present present' eof semicolon cursor =>
    cases (next_of_pending present).symm.trans run
    exact ⟨_, _, next_of_pending present', .ended eof semicolon (.unread rfl cursor)⟩
  | read present present' same cursor ends =>
    cases (next_of_pending present).symm.trans run
    exact ⟨_, _, next_of_pending present', .same same (.unread rfl rfl cursor ends)⟩
  | unread absent absent' cursor ends =>
    cases yields_of_next run with
    | pending found => rw [absent] at found; cases found
    | @word raw _ behind _ _ reads interned plain =>
      by_cases eof : raw.lexeme = .eof
      · have here := cursor.symm ▸ reads.joint eof tail
        rw [ends] at here
        obtain ⟨raw', cursor', reads', opened⟩ := opens
        obtain ⟨token', following, store, like, like', run'⟩ :=
          next_of_separator absent' here rfl reads'
        have kept : Lexeme.absorbedBy (.punctuation .semicolon) raw'.lexeme = false := opened
        rw [kept] at run'
        refine ⟨token', _, run', .ended ?_ ?_ (.read reads' like' rfl)⟩
        · exact interned.lexeme.eq_eof_iff.mpr eof
        · exact like.lexeme.eq_of_noName rfl
      · have here := cursor.symm ▸ reads.beforeNewline eof (';' :: tail)
        obtain ⟨token', store, interned', run'⟩ := next_of_word absent' here plain
        refine ⟨token', _, run', .same ?_ (.unread rfl rfl rfl (reads.finish.trans ends))⟩
        exact interned.same interned' rfl rfl fun equal => eof equal
    | @separator raw raw' _ _ _ _ _ _ reads interned separates reads' interned' kept =>
      have noEnd := Lexeme.ne_eof_of_isSeparator separates
      have here := cursor.symm ▸ reads.beforeNewline noEnd (';' :: tail)
      have ends' := reads.finish.trans ends
      by_cases eof : raw'.lexeme = .eof
      · have there := reads'.joint eof tail
        rw [ends'] at there
        obtain ⟨token', following, store, like, like', run'⟩ :=
          next_of_separator absent' here separates there
        rw [Lexeme.absorbedBy_semicolon] at run'
        refine ⟨token', _, run', .same ?_ (.last rfl rfl ?_ ?_ rfl)⟩
        · exact interned.same like rfl rfl fun equal => noEnd equal
        · exact interned'.lexeme.eq_eof_iff.mpr eof
        · exact like'.lexeme.eq_of_noName rfl
      · have there := reads'.beforeNewline eof (';' :: tail)
        obtain ⟨token', following, store, like, like', run'⟩ :=
          next_of_separator absent' here separates there
        rw [kept] at run'
        refine ⟨token', _, run', .same ?_ (.read rfl rfl ?_ rfl (reads'.finish.trans ends'))⟩
        · exact interned.same like rfl rfl fun equal => noEnd equal
        · exact interned'.same like' rfl rfl fun equal => eof equal
    | @absorbed raw raw' _ _ _ _ _ reads separates reads' interned' dropped =>
      have noEnd := Lexeme.ne_eof_of_isSeparator separates
      have word : raw'.lexeme ≠ .eof := by
        intro eof
        rw [eof, Lexeme.absorbedBy_eof] at dropped
        cases dropped
      have here := cursor.symm ▸ reads.beforeNewline noEnd (';' :: tail)
      have there := reads'.beforeNewline word (';' :: tail)
      obtain ⟨token', following, store, like, like', run'⟩ :=
        next_of_separator absent' here separates there
      rw [dropped] at run'
      refine ⟨following, _, run', .same ?_ (.unread rfl rfl rfl ?_)⟩
      · exact interned'.same like' rfl rfl fun equal => word equal
      · exact reads'.finish.trans (reads.finish.trans ends)

end

end TokenStream

namespace Pairing

/-- Streams that go together as long as the first one can be read. -/
def loose (shift : Shift) (together : Prop) (limit : Nat) {room room' : Nat}
    (roomy : room ≤ room') (Streams : TokenStream → TokenStream → Prop) (Ended : TokenStream → Prop)
    (next : ∀ {first second after : TokenStream} {token : Token}, Streams first second →
      TokenStream.next first = .ok token after →
        ∃ token' after', TokenStream.next second = .ok token' after' ∧
          Found (.moved shift) together Streams Ended token token' after after')
    (withStore : ∀ {first second : TokenStream} (store store' : Store), Streams first second →
      Streams { first with store } { second with store := store' })
    (endedWithStore : ∀ {stream : TokenStream} (store : Store), Ended stream →
      Ended { stream with store }) : Pairing where
  view := .moved shift
  exact := False
  resumes := False
  together := together
  limit := limit
  room := room
  room' := room'
  roomy := roomy
  enough := False.elim
  Streams := Streams
  Ended := Ended
  endless := False.elim
  Stores _ _ := True
  Failures _ _ := True
  next := by
    rintro first second ⟨streams, -⟩
    cases run : TokenStream.next first with
    | ok token after =>
      intro _
      obtain ⟨token', after', run', found⟩ := next streams run
      exact ⟨token', after', run', found, trivial⟩
    | error failure after => exact False.elim
  withStore := withStore
  endedWithStore := endedWithStore
  intern := by
    intro store store' spelling _
    exact ⟨(store.normal_intern spelling).trans (store'.normal_intern spelling).symm, trivial⟩
  newObject _ := ⟨rfl, trivial⟩
  outOfRange _ _ := trivial
  unexpected _ _ _ := trivial

/-- A text and itself at another place. -/
def moved (shift : Shift) (limit : Nat) {room room' : Nat} (roomy : room ≤ room') : Pairing :=
  loose shift True limit roomy (TokenStream.Moved shift) (fun _ => False)
    (by
      intro first second after token moved run
      obtain ⟨token', after', run', same, behind⟩ := moved.next run
      exact ⟨token', after', run', .same same behind⟩)
    (fun _ _ moved => ⟨moved.cursor, moved.pending⟩) fun _ => id

/-- A text and one that goes on behind it, given that the word behind the
semicolon does not absorb it. -/
def joint (finish : Cursor) (tail : List Char) (limit : Nat) {room room' : Nat}
    (roomy : room ≤ room') (opens : (finish.behindJoint tail).Opens) : Pairing :=
  loose {} False limit roomy (TokenStream.Joined finish tail)
    (TokenStream.Stands · (finish.behindJoint tail)) (fun joined run => joined.next opens run)
    (by
      intro first second store store' joined
      cases joined with
      | unread absent absent' cursor ends => exact .unread absent absent' cursor ends
      | read present present' same cursor ends => exact .read present present' same cursor ends
      | last present present' eof semicolon cursor =>
        exact .last present present' eof semicolon cursor)
    (by
      intro stream store stands
      cases stands with
      | unread absent here => exact .unread absent here
      | read reads interned present => exact .read reads interned present)

end Pairing

end NewtonScript
