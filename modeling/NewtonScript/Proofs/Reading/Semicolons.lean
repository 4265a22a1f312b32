import NewtonScript.Proofs.Reading.Links

/-!
# Semicolons in front of a program

In front of the first command of a program may stand semicolons.  Which of them
a stream reads ahead depends on where it began to read; the word to which they
lead does not, provided that it closes nothing and so absorbs none of them.
-/

namespace NewtonScript

variable {count : Nat} {token : Token} {cursor after : Cursor}

/-! ## Semicolons in front of a word -/

theorem Cursor.Reads.unique {after' : Cursor} {token' : Token} (reads : cursor.Reads token after)
    (reads' : cursor.Reads token' after') : token' = token ∧ after' = after := by
  have same := reads.scan.symm.trans reads'.scan
  cases same
  exact ⟨rfl, rfl⟩

/-- So many semicolons stand in front of another word. -/
inductive Cursor.Leads : Cursor → Nat → Token → Cursor → Prop where
  | here {cursor after : Cursor} {token : Token} (reads : cursor.Reads token after)
      (other : token.lexeme ≠ .punctuation .semicolon) : Leads cursor 0 token after
  | skip {cursor behind after : Cursor} {first token : Token} {count : Nat}
      (reads : cursor.Reads first behind) (semicolon : first.lexeme = .punctuation .semicolon)
      (leads : Leads behind count token after) : Leads cursor (count + 1) token after

theorem Cursor.Leads.moved (leads : cursor.Leads count token after) (shift : Shift) :
    (cursor.moved shift).Leads count ⟨token.lexeme, token.span.moved shift⟩
      (after.moved shift) := by
  induction leads with
  | here reads other => exact .here (reads.moved shift) other
  | skip reads semicolon _ ih =>
    exact .skip (reads.moved shift) semicolon ih

theorem Cursor.Leads.newline {text : List Char} {offset line : Nat}
    (leads : (⟨text, offset + 1, line + 1⟩ : Cursor).Leads count token after) :
    (⟨'\n' :: text, offset, line⟩ : Cursor).Leads count token after := by
  cases leads with
  | here reads other => exact .here reads.newline other
  | skip reads semicolon leads => exact .skip reads.newline semicolon leads

/-- A word that ends a program or starts a command. -/
def Lexeme.IsOpen (lexeme : Lexeme) : Prop :=
  lexeme = .eof ∨ lexeme.startsExpression = true

namespace Lexeme.IsOpen

variable {lexeme : Lexeme}

theorem of_like {first second : Lexeme} (like : first.Like second) (isOpen : second.IsOpen) :
    first.IsOpen := by
  cases like with
  | name => exact .inr rfl
  | word => exact isOpen

theorem beq_semicolon (isOpen : lexeme.IsOpen) : (lexeme == .punctuation .semicolon) = false := by
  rcases isOpen with rfl | starts
  · rfl
  · cases lexeme with
    | punctuation mark => cases mark <;> first | rfl | cases starts
    | _ => rfl

theorem closesSequence_eq_false (isOpen : lexeme.IsOpen) : lexeme.closesSequence = false := by
  rcases isOpen with rfl | starts
  · rfl
  · cases lexeme with
    | keyword word => cases word <;> first | rfl | cases starts
    | punctuation mark => cases mark <;> first | rfl | cases starts
    | _ => rfl

theorem isSeparator_eq_false (isOpen : lexeme.IsOpen) : lexeme.isSeparator = false := by
  rcases isOpen with rfl | starts
  · rfl
  · cases lexeme with
    | punctuation mark => cases mark <;> first | rfl | cases starts
    | _ => rfl

end Lexeme.IsOpen

/-- The first word of a text behind which a word follows that is open. -/
theorem Cursor.Leads.opens (leads : cursor.Leads count token after)
    (isOpen : token.lexeme.IsOpen) : cursor.Opens := by
  cases leads with
  | here reads _ => exact ⟨_, _, reads, isOpen.closesSequence_eq_false⟩
  | skip reads semicolon _ => exact ⟨_, _, reads, by rw [semicolon]; rfl⟩

namespace TokenStream

/-- A stream gives the word at which it stands, unless that is absorbed. -/
theorem next_of_stands {stream : TokenStream} {cursor behind : Cursor} {raw : Token}
    (stands : stream.Stands cursor) (reads : cursor.Reads raw behind)
    (kept : raw.lexeme.isSeparator = true → ∃ raw' after, behind.Reads raw' after ∧
      raw.lexeme.absorbedBy raw'.lexeme = false) :
    ∃ token after, next stream = .ok token after ∧ raw.Interned token ∧ after.Stands behind ∧
      (raw.lexeme.isSeparator = false → after.pending = none ∧ after.cursor = behind) := by
  cases stands with
  | read reads' interned present =>
    obtain ⟨rfl, here⟩ := reads.unique reads'
    exact ⟨_, _, next_of_pending present, interned, .unread rfl here, fun _ => ⟨rfl, here⟩⟩
  | unread absent here =>
    rw [← here] at reads
    cases separates : raw.lexeme.isSeparator with
    | false =>
      obtain ⟨token, store, interned, run⟩ := next_of_word absent reads separates
      exact ⟨token, _, run, interned, .unread rfl rfl, fun _ => ⟨rfl, rfl⟩⟩
    | true =>
      obtain ⟨raw', after, reads', kept⟩ := kept separates
      obtain ⟨token, following, store, interned, interned', run⟩ :=
        next_of_separator absent reads separates reads'
      rw [kept] at run
      exact ⟨token, _, run, interned, .read reads' interned' rfl, nofun⟩

theorem closesSequence_of_absorbedBy {lexeme next : Lexeme}
    (absorbed : lexeme.absorbedBy next = true) : next.closesSequence = true := by
  cases lexeme with
  | punctuation mark =>
    cases mark with
    | semicolon => exact absorbed
    | comma =>
      cases next with
      | punctuation mark => cases mark <;> first | rfl | cases absorbed
      | _ => cases absorbed
    | _ => cases absorbed
  | _ => cases absorbed

/-- What a stream gives is the word at which it stands, or a word that closes a
sequence. -/
theorem stands_of_next {stream after : TokenStream} {cursor : Cursor} {token : Token}
    (stands : stream.Stands cursor) (run : next stream = .ok token after)
    (opened : token.lexeme.closesSequence = false) :
    ∃ raw behind, cursor.Reads raw behind ∧ raw.Interned token ∧ after.Stands behind ∧
      (raw.lexeme.isSeparator = false → after.pending = none ∧ after.cursor = behind) := by
  cases stands with
  | read reads interned present =>
    cases (next_of_pending present).symm.trans run
    exact ⟨_, _, reads, interned, .unread rfl rfl, fun _ => ⟨rfl, rfl⟩⟩
  | unread absent here =>
    rw [← here]
    cases yields_of_next run with
    | pending present => rw [absent] at present; cases present
    | word _ reads interned plain =>
      exact ⟨_, _, reads, interned, .unread rfl rfl, fun _ => ⟨rfl, rfl⟩⟩
    | separator _ reads interned separates reads' interned' _ =>
      refine ⟨_, _, reads, interned, .read reads' interned' rfl, fun plain => ?_⟩
      rw [separates] at plain
      cases plain
    | @absorbed raw raw' _ _ _ _ _ reads _ reads' interned' dropped =>
      have closes := closesSequence_of_absorbedBy dropped
      rw [interned'.lexeme.closesSequence_eq, closes] at opened
      cases opened

end TokenStream

namespace Parser

/-- A parser after steps that change only which tokens it looks at. -/
structure SameCourse (before after : Parser) : Prop where
  functions : after.functions = before.functions
  bound : after.bound = before.bound
  started : after.started = before.started

theorem SameCourse.trans {first second third : Parser} (earlier : SameCourse first second)
    (later : SameCourse second third) : SameCourse first third :=
  ⟨later.functions.trans earlier.functions, later.bound.trans earlier.bound,
    later.started.trans earlier.started⟩

/-- A parser looks at the given word, and nothing behind it was read. -/
structure Arrived (raw : Token) (behind : Cursor) (parser : Parser) : Prop where
  current : raw.Interned parser.current
  absent : parser.lookahead = none
  unread : parser.tokens.pending = none
  here : parser.tokens.cursor = behind

/-- So many semicolons are to be skipped up to the given word. -/
inductive Nearing (raw : Token) (behind : Cursor) : Nat → Parser → Prop where
  | arrived {parser : Parser} (arrived : Arrived raw behind parser) : Nearing raw behind 0 parser
  | before {parser : Parser} {cursor : Cursor} {count : Nat}
      (semicolon : parser.current.lexeme = .punctuation .semicolon)
      (absent : parser.lookahead = none) (stands : parser.tokens.Stands cursor)
      (leads : cursor.Leads count raw behind) : Nearing raw behind (count + 1) parser

theorem accept_of_next {lexeme : Lexeme} {parser : Parser} {token : Token} {tokens : TokenStream}
    (looking : (parser.current.lexeme == lexeme) = true) (absent : parser.lookahead = none)
    (run : TokenStream.next parser.tokens = .ok token tokens) :
    accept lexeme parser = .ok true
      { parser with tokens, lookahead := none, current := token, previous := parser.current.span,
                    expected := [] } := by
  have checked := check_run lexeme parser
  rw [looking] at checked
  rw [accept, run_bind_of_ok checked, if_pos rfl]
  have advanced : advance { parser with expected := parser.expected } = .ok parser.current
      { parser with tokens, lookahead := none, current := token, previous := parser.current.span,
                    expected := [] } := by
    rw [advance, run_bind_of_ok (takeNext_of_none absent run)]
    rfl
  exact run_bind_of_ok advanced _

section

variable {raw : Token} {behind : Cursor} {count : Nat} {parser : Parser}

/-- One semicolon is skipped. -/
theorem Nearing.accept (isOpen : raw.lexeme.IsOpen) (nearing : Nearing raw behind (count + 1) parser) :
    ∃ after, Parser.accept (.punctuation .semicolon) parser = .ok true after ∧
      Nearing raw behind count after ∧ SameCourse parser after := by
  cases nearing with
  | before semicolon absent stands leads =>
    have looking : (parser.current.lexeme == .punctuation .semicolon) = true := by
      rw [semicolon]
      rfl
    cases leads with
    | here reads other =>
      obtain ⟨token, tokens, run, interned, _, fresh⟩ := TokenStream.next_of_stands stands reads
        fun separates => by rw [isOpen.isSeparator_eq_false] at separates; cases separates
      obtain ⟨unread, here⟩ := fresh isOpen.isSeparator_eq_false
      exact ⟨_, accept_of_next looking absent run, .arrived ⟨interned, rfl, unread, here⟩,
        rfl, rfl, rfl⟩
    | skip reads semicolon' leads =>
      obtain ⟨raw', after, reads', opened⟩ := leads.opens isOpen
      obtain ⟨token, tokens, run, interned, stands', _⟩ :=
        TokenStream.next_of_stands stands reads fun _ => ⟨raw', after, reads', by
          rw [semicolon']
          exact opened⟩
      have same := interned.lexeme
      rw [semicolon'] at same
      exact ⟨_, accept_of_next looking absent run,
        .before (same.eq_of_noName rfl) rfl stands' leads, rfl, rfl, rfl⟩

/-- The semicolons are skipped up to the word. -/
theorem Nearing.skip (isOpen : raw.lexeme.IsOpen) (nearing : Nearing raw behind count parser)
    {bound : Nat} (enough : count < bound) :
    ∃ after, skipSemicolons bound parser = .ok () after ∧ Arrived raw behind after ∧
      SameCourse parser after := by
  obtain ⟨bound, rfl⟩ := Nat.exists_eq_add_of_lt enough
  induction count generalizing parser with
  | zero =>
    cases nearing with
    | arrived arrived =>
      have different : (parser.current.lexeme == .punctuation .semicolon) = false := by
        rw [arrived.current.lexeme.beq_eq rfl]
        exact isOpen.beq_semicolon
      exact ⟨_, skipSemicolons_of_ne different _, ⟨arrived.current, arrived.absent, arrived.unread, arrived.here⟩,
        rfl, rfl, rfl⟩
  | succ count ih =>
    obtain ⟨middle, accepted, nearing', same⟩ := nearing.accept isOpen
    obtain ⟨after, skipped, arrived, same'⟩ := ih nearing' (by omega)
    refine ⟨after, ?_, arrived, same.trans same'⟩
    rw [show count + 1 + bound + 1 = (count + bound + 1) + 1 by omega, skipSemicolons,
      run_bind_of_ok accepted]
    exact skipped

end

/-- A parser looks at the word at a cursor. -/
structure Faces (cursor : Cursor) (parser : Parser) (raw : Token) (behind : Cursor) : Prop where
  reads : cursor.Reads raw behind
  current : raw.Interned parser.current
  stands : parser.tokens.Stands behind
  fresh : raw.lexeme.isSeparator = false →
    parser.tokens.pending = none ∧ parser.tokens.cursor = behind

theorem next_of_accept {lexeme : Lexeme} {parser after : Parser}
    (absent : parser.lookahead = none) (run : accept lexeme parser = .ok true after) :
    ∃ token tokens, TokenStream.next parser.tokens = .ok token tokens ∧
      after = { parser with tokens, lookahead := none, current := token,
                            previous := parser.current.span, expected := [] } := by
  obtain ⟨-, _, expected, advanced⟩ := accept_eq_ok run
  obtain ⟨token, last, took, ⟨⟩⟩ := run_bind_eq_ok advanced
  rcases takeNext_eq_ok took with ⟨present, _⟩ | ⟨_, tokens, read, rfl⟩
  · rw [show ({ parser with expected } : Parser).lookahead = none from absent] at present
    cases present
  · exact ⟨token, tokens, read, rfl⟩

/-- Semicolons that are skipped up to an open word lead there. -/
theorem leads_of_skip {cursor : Cursor} {parser after : Parser} {bound : Nat}
    (absent : parser.lookahead = none)
    (faces : parser.current.lexeme.closesSequence = false →
      ∃ raw behind, Faces cursor parser raw behind)
    (run : skipSemicolons bound parser = .ok () after) (isOpen : after.current.lexeme.IsOpen) :
    ∃ count raw behind, cursor.Leads count raw behind ∧ raw.lexeme.IsOpen ∧ count < bound ∧
      Arrived raw behind after ∧ SameCourse parser after := by
  induction bound generalizing cursor parser with
  | zero => cases run
  | succ bound ih =>
    obtain ⟨found, middle, accepted, run⟩ := run_bind_eq_ok run
    obtain ⟨looking, outcome⟩ := accept_eq_ok accepted
    cases found with
    | false =>
      cases run
      subst outcome
      obtain ⟨raw, behind, reads, current, _, fresh⟩ := faces isOpen.closesSequence_eq_false
      have isOpen := isOpen.of_like current.lexeme
      obtain ⟨unread, here⟩ := fresh isOpen.isSeparator_eq_false
      refine ⟨0, raw, behind, .here reads ?_, isOpen, Nat.succ_pos _,
        ⟨current, absent, unread, here⟩, rfl, rfl, rfl⟩
      intro semicolon
      have different := isOpen.beq_semicolon
      rw [semicolon] at different
      cases different
    | true =>
      obtain ⟨token, tokens, read, rfl⟩ := next_of_accept absent accepted
      have semicolon := Lexeme.eq_of_beq_noName rfl looking
      obtain ⟨raw, behind, reads, current, stands, _⟩ := faces (by rw [semicolon]; rfl)
      obtain ⟨count, raw', behind', leads, isOpen, fewer, arrived, same⟩ :=
        ih rfl (fun opened =>
          have ⟨raw', behind', reads', current', stands', fresh⟩ :=
            TokenStream.stands_of_next stands read opened
          ⟨raw', behind', reads', current', stands', fresh⟩) run
      refine ⟨count + 1, raw', behind', .skip reads ?_ leads, isOpen, Nat.succ_lt_succ fewer,
        arrived, same.functions, same.bound, same.started⟩
      have like := current.lexeme.symm
      rw [semicolon] at like
      exact like.eq_of_noName rfl

end Parser

end NewtonScript
