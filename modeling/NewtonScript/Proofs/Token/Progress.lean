import NewtonScript.Proofs.Reading.Steps
import NewtonScript.Proofs.Reading.Tokens

/-!
# Every reading moves on

A word has at least one character, and so has the part of a faulty word that
was read before the fault was found.  A reading that does not find the end of
the text therefore leaves less of the text, failed or not.  The same holds of
a stream of tokens, when a token that was read ahead counts as one character,
and of a parser, when the tokens that it looks at do.
-/

namespace NewtonScript

/-! ## Cursors -/

namespace Cursor

variable {cursor : Cursor} {count : Nat}

theorem offset_le_skip (count : Nat) (cursor : Cursor) :
    cursor.offset ≤ (cursor.skip count).offset := by
  induction count generalizing cursor with
  | zero => exact Nat.le_refl _
  | succ count ih =>
    obtain ⟨rest, offset, line⟩ := cursor
    cases rest with
    | nil => exact Nat.le_refl _
    | cons c rest =>
      have further : offset + c.utf8Size ≤ _ :=
        ih ((⟨c :: rest, offset, line⟩ : Cursor).after c rest)
      exact Nat.le_trans (Nat.le_add_right offset c.utf8Size) further

theorem offset_lt_skip (some : 0 < count) (more : cursor.rest ≠ []) :
    cursor.offset < (cursor.skip count).offset := by
  obtain ⟨rest, offset, line⟩ := cursor
  cases count with
  | zero => cases some
  | succ count =>
    cases rest with
    | nil => exact absurd rfl more
    | cons c rest =>
      have further : offset + c.utf8Size ≤ _ :=
        offset_le_skip count ((⟨c :: rest, offset, line⟩ : Cursor).after c rest)
      exact Nat.lt_of_lt_of_le (Nat.lt_add_of_pos_right c.utf8Size_pos) further

/-- A cursor further on in the same text. -/
structure Beyond (cursor after : Cursor) : Prop where
  offset : cursor.offset < after.offset
  rest : after.rest.length < cursor.rest.length

theorem beyond_skip (some : 0 < count) (more : cursor.rest ≠ []) :
    cursor.Beyond (cursor.skip count) := by
  refine ⟨offset_lt_skip some more, ?_⟩
  have length := List.length_pos_iff.2 more
  rw [rest_skip, List.length_drop]
  omega

theorem Beyond.of_skip {after : Cursor} (beyond : (cursor.skip count).Beyond after) :
    cursor.Beyond after := by
  refine ⟨Nat.lt_of_le_of_lt (offset_le_skip _ _) beyond.offset, ?_⟩
  have shorter := beyond.rest
  rw [rest_skip, List.length_drop] at shorter
  omega

/-- A reading that fails moves on. -/
theorem beyond_of_fault {after : Cursor} {failure : Failure}
    (read : cursor.scan = (.error failure, after)) : cursor.Beyond after := by
  obtain ⟨-, gap, count, more, some, rfl, -⟩ := scan_eq_error read
  exact (beyond_skip some more).of_skip

/-- A reading that does not find the end moves on. -/
theorem Reads.beyond {token : Token} {after : Cursor} (reads : cursor.Reads token after)
    (word : token.lexeme ≠ .eof) : cursor.Beyond after := by
  cases reads with
  | ended => exact absurd rfl word
  | @word gap first rest lexeme closed starts scanned =>
    have more : (cursor.skip gap).rest ≠ [] := by
      rw [starts]
      nofun
    exact (beyond_skip (Lexeme.isWord_scan first rest).length more).of_skip

end Cursor

/-! ## Streams -/

/-- A token counts unless it is the end. -/
def Token.weight (token : Token) : Nat :=
  if TokenStream.isEnd token then 0 else 1

theorem Token.weight_eof {token : Token} (eof : token.lexeme = .eof) : token.weight = 0 := by
  rw [weight, TokenStream.isEnd, eof, if_pos rfl]

theorem Token.weight_of_ne {token : Token} (other : token.lexeme ≠ .eof) : token.weight = 1 := by
  obtain ⟨lexeme, span⟩ := token
  cases lexeme with
  | eof => exact absurd rfl other
  | _ => rfl

namespace TokenStream

variable {token : Token} {stream after : TokenStream}

/-- What a stream can still give at most. -/
def weight (stream : TokenStream) : Nat :=
  stream.cursor.rest.length + (stream.pending.map Token.weight).getD 0

theorem weight_of_pending (present : stream.pending = some token) :
    stream.weight = stream.cursor.rest.length + token.weight := by
  rw [weight, present]
  rfl

theorem weight_of_none (absent : stream.pending = none) :
    stream.weight = stream.cursor.rest.length := by
  rw [weight, absent]
  rfl

/-- A word is longer than its token counts. -/
theorem spends_of_reads {cursor after : Cursor} {raw : Token} (reads : cursor.Reads raw after)
    (interned : raw.Interned token) : after.rest.length + token.weight ≤ cursor.rest.length := by
  by_cases eof : raw.lexeme = .eof
  · rw [Token.weight_eof (interned.lexeme.eq_eof_iff.mpr eof)]
    cases reads with
    | ended =>
      rw [Cursor.rest_skip, List.length_drop]
      exact Nat.sub_le _ _
    | word _ _ scanned =>
      cases eof
      exact absurd scanned (Lexeme.result_scan_ne _ _)
  · rw [Token.weight_of_ne fun equal => eof (interned.lexeme.eq_eof_iff.mp equal)]
    exact (reads.beyond eof).rest

theorem scan_ok_spends (run : scan stream = .ok token after) :
    after.cursor.rest.length + token.weight ≤ stream.cursor.rest.length ∧
      after.pending = stream.pending := by
  obtain ⟨raw, cursor, store, reads, interned, rfl⟩ := scan_eq_ok run
  exact ⟨spends_of_reads reads interned, rfl⟩

theorem scan_error_spends {failure : Failure} (run : scan stream = .error failure after) :
    after.cursor.rest.length < stream.cursor.rest.length ∧ after.pending = stream.pending := by
  obtain ⟨cursor, read, rfl⟩ := scan_eq_error run
  exact ⟨(Cursor.beyond_of_fault read).rest, rfl⟩

/-- A token that is given is no longer there to be given. -/
theorem next_ok_spends (run : next stream = .ok token after) :
    after.weight + token.weight ≤ stream.weight := by
  cases yields_of_next run with
  | pending present =>
    rw [weight_of_pending present]
    exact Nat.le_refl _
  | word absent reads interned =>
    rw [weight_of_none absent]
    exact spends_of_reads reads interned
  | separator absent reads interned _ reads' interned' =>
    have spent := spends_of_reads reads interned
    have spent' := spends_of_reads reads' interned'
    rw [weight_of_none absent, weight_of_pending rfl]
    dsimp only
    omega
  | absorbed absent reads _ reads' interned' =>
    have spent := spends_of_reads reads ⟨.refl _, rfl⟩
    have spent' := spends_of_reads reads' interned'
    rw [weight_of_none absent, weight_of_none rfl]
    dsimp only
    omega

/-- The tokens that a stream reads fit. -/
theorem next_ok_fits (fits : ∀ ahead ∈ stream.pending, ahead.lexeme.Fits)
    (run : next stream = .ok token after) :
    token.lexeme.Fits ∧ ∀ ahead ∈ after.pending, ahead.lexeme.Fits := by
  have like : ∀ {first second : Lexeme}, first.Like second → first.Fits → second.Fits := by
    rintro _ _ (_ | _) fits
    · trivial
    · exact fits
  have read : ∀ {cursor cursor' : Cursor} {raw token : Token}, cursor.Reads raw cursor' →
      raw.Interned token → token.lexeme.Fits := by
    intro cursor cursor' raw token reads interned
    refine like interned.lexeme ?_
    cases reads with
    | ended => trivial
    | word _ _ scanned => exact ((Lexeme.isWord_scan _ _).ok _ scanned).1
  cases yields_of_next run with
  | pending present => exact ⟨fits _ present, nofun⟩
  | word _ reads interned => exact ⟨read reads interned, nofun⟩
  | separator _ reads interned _ reads' interned' =>
    exact ⟨read reads interned, fun _ ahead => Option.some.inj ahead ▸ read reads' interned'⟩
  | absorbed _ _ _ reads' interned' => exact ⟨read reads' interned', nofun⟩

/-- A failed reading moves on, too. -/
theorem next_error_spends {failure : Failure} (run : next stream = .error failure after) :
    after.weight < stream.weight ∧ after.pending = none := by
  obtain ⟨absent, run | ⟨_, _, scanned, run⟩⟩ := next_eq_error run
  · obtain ⟨spent, kept⟩ := scan_error_spends run
    rw [weight_of_none absent, weight_of_none (kept.trans absent)]
    exact ⟨spent, kept.trans absent⟩
  · obtain ⟨spent, kept⟩ := scan_ok_spends scanned
    obtain ⟨spent', kept'⟩ := scan_error_spends run
    have absent' := kept'.trans (kept.trans absent)
    rw [weight_of_none absent, weight_of_none absent']
    exact ⟨by omega, absent'⟩

end TokenStream

/-! ## Parsers -/

namespace Parser

variable {token : Token} {parser after : Parser} {failure : Failure}

/-- What is left behind the token that a parser looks at. -/
def ahead (parser : Parser) : Nat :=
  parser.tokens.weight + (parser.lookahead.map Token.weight).getD 0

/-- What is left for a parser. -/
def weight (parser : Parser) : Nat :=
  parser.ahead + parser.current.weight

theorem takeNext_ok_spends (run : takeNext parser = .ok token after) :
    after.ahead + token.weight ≤ parser.ahead := by
  rcases takeNext_eq_ok run with ⟨present, rfl⟩ | ⟨absent, tokens, read, rfl⟩
  · simp [ahead, present]
  · have spent := TokenStream.next_ok_spends read
    simpa [ahead, absent] using spent

theorem takeNext_eq_error (run : takeNext parser = .error failure after) :
    parser.lookahead = none ∧ ∃ tokens, TokenStream.next parser.tokens = .error failure tokens ∧
      after = { parser with tokens } := by
  obtain run | ⟨_, _, got, run⟩ := run_bind_eq_error run
  · cases run
  cases got
  cases found : parser.lookahead with
  | some ahead =>
    rw [found] at run
    cases run
  | none =>
    rw [found] at run
    change readToken parser = _ at run
    unfold readToken at run
    split at run
    · cases run
    · rename_i read
      cases run
      exact ⟨rfl, _, read, by rw [found]⟩

theorem advance_eq_ok (run : advance parser = .ok token after) :
    token = parser.current ∧ ∃ next middle, takeNext parser = .ok next middle ∧
      after = { middle with current := next, previous := parser.current.span, expected := [] } := by
  obtain ⟨next, middle, took, run⟩ := run_bind_eq_ok run
  cases run
  have kept : middle.current = parser.current := by
    rcases takeNext_eq_ok took with ⟨-, rfl⟩ | ⟨-, tokens, -, rfl⟩ <;> rfl
  exact ⟨kept, next, middle, took, by rw [kept]⟩

theorem advance_eq_error (run : advance parser = .error failure after) :
    parser.lookahead = none ∧ ∃ tokens, TokenStream.next parser.tokens = .error failure tokens ∧
      after = { parser with tokens } := by
  obtain run | ⟨next, middle, took, run⟩ := run_bind_eq_error run
  · exact takeNext_eq_error run
  · cases run

/-- The token that is consumed is no longer left. -/
theorem advance_ok_spends (run : advance parser = .ok token after) :
    after.weight + parser.current.weight ≤ parser.weight := by
  obtain ⟨-, next, middle, took, rfl⟩ := advance_eq_ok run
  have spent := takeNext_ok_spends took
  change middle.ahead + next.weight + _ ≤ _
  unfold weight
  omega

/-- A failed step towards the next token moves on, too. -/
theorem advance_error_spends (run : advance parser = .error failure after) :
    after.weight < parser.weight := by
  obtain ⟨absent, tokens, read, rfl⟩ := advance_eq_error run
  have spent := (TokenStream.next_error_spends read).1
  simp only [weight, ahead]
  omega

theorem weight_pos (live : parser.current.lexeme ≠ .eof) : 0 < parser.weight := by
  rw [weight, Token.weight_of_ne live]
  exact Nat.succ_pos _

end Parser

end NewtonScript
