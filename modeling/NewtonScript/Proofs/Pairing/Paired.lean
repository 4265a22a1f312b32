import NewtonScript.Proofs.Agreement
import NewtonScript.Proofs.Token.Progress

/-!
# Parsers that read the same words

Two parsers are paired as long as they look at the same words, up to the
spellings of names, at places that go together.  Under exact terms they also
fail together.  Under loose ones the text of the first parser may end where the
second one has a semicolon; from there on they are on their own.

The first parser's weight, a bound on the tokens that are left, is kept along:
under exact terms every repetition and every nesting has room for that many,
so that no failure is due to the bounds.
-/

namespace NewtonScript

variable {lexeme : Lexeme}

/-- Whether a word is none of those that paired parsers may see differently: a
name, a semicolon, or the end. -/
def Lexeme.isFixed : Lexeme → Bool
  | .eof => false
  | .identifier _ => false
  | .punctuation mark => mark != .semicolon
  | _ => true

theorem Lexeme.ne_eof_of_fixed (fixed : lexeme.isFixed = true) : lexeme ≠ .eof := by
  rintro rfl
  cases fixed

theorem Lexeme.noName_of_fixed (fixed : lexeme.isFixed = true) : lexeme.isName = false := by
  cases lexeme <;> first | rfl | cases fixed

/-- The same token as it is seen.  It is the end of both texts only if they end
together. -/
structure Token.Same (view : View) (together : Prop) (first second : Token) : Prop where
  lexeme : first.lexeme.Same view.name second.lexeme
  span : second.span = view.span first.span
  ends : first.lexeme = .eof → together

/-- What two streams give next: the same token, or the end of the first text
and a semicolon. -/
inductive Pairing.Found (view : View) (together : Prop)
    (Streams : TokenStream → TokenStream → Prop) (Ended : TokenStream → Prop)
    (token token' : Token) (after after' : TokenStream) : Prop where
  | same (same : token.Same view together token') (streams : Streams after after')
  | ended (eof : token.lexeme = .eof) (semicolon : token'.lexeme = .punctuation .semicolon)
      (ended : Ended after')

/-- How two streams of tokens go together, and the stores behind them.  A stream
that is `Ended` has given the semicolon for which the first text has no word,
which does not happen under exact terms.  The weight of the first parser stays
within the limit, and both parsers have room for that much. -/
structure Pairing where
  view : View
  exact : Prop
  /-- Whether the streams go together also behind a failure. -/
  resumes : Prop
  together : Prop
  limit : Nat
  room : Nat
  room' : Nat
  roomy : room ≤ room'
  enough : exact → limit < room
  Streams : TokenStream → TokenStream → Prop
  Ended : TokenStream → Prop
  endless : exact → ∀ stream, ¬Ended stream
  Stores : Store → Store → Prop
  Failures : Failure → Failure → Prop
  next : Agree
    ⟨exact, fun failure failure' after after' => Failures failure failure' ∧
      (resumes → Streams after after' ∧ Stores after.store after'.store)⟩
    (fun first second => Streams first second ∧ Stores first.store second.store)
    TokenStream.next TokenStream.next
    fun token token' after after' =>
      Pairing.Found view together Streams Ended token token' after after' ∧
        Stores after.store after'.store
  withStore : ∀ {first second : TokenStream} (store store' : Store), Streams first second →
    Streams { first with store } { second with store := store' }
  endedWithStore : ∀ {stream : TokenStream} (store : Store), Ended stream →
    Ended { stream with store }
  intern : ∀ {store store' : Store} (spelling : String), Stores store store' →
    view.name (store.intern spelling).1 = view.name (store'.intern spelling).1 ∧
      Stores (store.intern spelling).2 (store'.intern spelling).2
  newObject : ∀ {store store' : Store}, Stores store store' →
    view.object store.nextObject = view.object store'.nextObject ∧
      Stores store.newObject.2 store'.newObject.2
  outOfRange : ∀ text span,
    Failures ⟨.integerOutOfRange text, span⟩ ⟨.integerOutOfRange text, view.span span⟩
  unexpected : ∀ {lexeme lexeme' : Lexeme} (expected : List Expectation) (span : Span),
    lexeme.Same view.name lexeme' →
      Failures ⟨.unexpected lexeme expected, span⟩ ⟨.unexpected lexeme' expected, view.span span⟩

namespace Pairing

open NewtonScript.Parser

/-- What two paired streams give next. -/
abbrev Finds (pairing : Pairing) : Token → Token → TokenStream → TokenStream → Prop :=
  Found pairing.view pairing.together pairing.Streams pairing.Ended

variable {pairing : Pairing}

/-- What is behind the tokens that two parsers look at. -/
inductive Ahead (pairing : Pairing) (first second : Parser) : Prop where
  | unread (absent : first.lookahead = none) (absent' : second.lookahead = none)
      (streams : pairing.Streams first.tokens second.tokens)
  | read {token token' : Token} (present : first.lookahead = some token)
      (present' : second.lookahead = some token')
      (found : pairing.Finds token token' first.tokens second.tokens)

/-- Two parsers look at the same token, or the second one looks at a semicolon
where the first text has ended. -/
inductive Position (pairing : Pairing) (first second : Parser) : Prop where
  | reading (current : first.current.Same pairing.view pairing.together second.current)
      (ahead : pairing.Ahead first second)
  | ended (eof : first.current.lexeme = .eof)
      (semicolon : second.current.lexeme = .punctuation .semicolon)
      (absent' : second.lookahead = none) (ended : pairing.Ended second.tokens)

/-- Two parsers are paired, and so much is left for the first one at most. -/
structure Tied (pairing : Pairing) (n : Nat) (first second : Parser) : Prop where
  weight : first.weight ≤ n
  bound : first.bound = pairing.room
  bound' : second.bound = pairing.room'
  functions : second.functions = pairing.view.function first.functions
  started : first.started = true ∧ second.started = true
  previous : pairing.exact → second.previous = pairing.view.span first.previous
  expected : pairing.exact → second.expected = first.expected
  stores : pairing.Stores first.tokens.store second.tokens.store
  position : pairing.Position first second

/-- Paired parsers that have consumed something. -/
structure Linked (pairing : Pairing) (n : Nat) (first second : Parser) : Prop
    extends Tied pairing n first second where
  within : n < pairing.limit
  placed : second.previous = pairing.view.span first.previous

/-- Paired parsers that have consumed something or are not at the end. -/
structure Ready (pairing : Pairing) (n : Nat) (first second : Parser) : Prop
    extends Tied pairing n first second where
  within : n ≤ pairing.limit
  spent : first.current.lexeme = .eof → n < pairing.limit

/-- Paired parsers that look at a word. -/
structure Live (pairing : Pairing) (n : Nat) (first second : Parser) : Prop
    extends Tied pairing n first second where
  within : n ≤ pairing.limit
  live : first.current.lexeme ≠ .eof

/-- Failures go together, and behind them the parsers are paired. -/
def terms (pairing : Pairing) : Terms Failure Parser where
  exact := pairing.exact
  failed failure failure' first second :=
    pairing.Failures failure failure' ∧ (pairing.resumes → ∃ n, pairing.Ready n first second)

/-- What two parsers see. -/
inductive Sees (pairing : Pairing) : Lexeme → Lexeme → Prop where
  | same {first second : Lexeme} (same : first.Same pairing.view.name second) :
      Sees pairing first second
  | ended : Sees pairing .eof (.punctuation .semicolon)

theorem Sees.beq_eq {word word' : Lexeme} (sees : pairing.Sees word word')
    (fixed : lexeme.isFixed = true) : (word' == lexeme) = (word == lexeme) := by
  cases sees with
  | same same =>
    refine same.beq_eq ?_
    cases lexeme <;> first | rfl | cases fixed
  | ended =>
    cases lexeme with
    | punctuation mark => cases mark <;> first | rfl | cases fixed
    | _ => first | rfl | cases fixed

section

variable {n m : Nat} {first second : Parser}

theorem Linked.mono (linked : pairing.Linked m first second) (le : m ≤ n)
    (short : n < pairing.limit) : pairing.Linked n first second :=
  ⟨{ linked.toTied with weight := Nat.le_trans linked.weight le }, short, linked.placed⟩

theorem Linked.ready (linked : pairing.Linked n first second) : pairing.Ready n first second :=
  ⟨linked.toTied, Nat.le_of_lt linked.within, fun _ => linked.within⟩

theorem Live.ready (live : pairing.Live n first second) : pairing.Ready n first second :=
  ⟨live.toTied, live.within, fun eof => absurd eof live.live⟩

theorem Ready.live_of_lexeme (ready : pairing.Ready n first second)
    (looking : first.current.lexeme = lexeme) (word : lexeme ≠ .eof) :
    pairing.Live n first second := by
  subst looking
  exact ⟨ready.toTied, ready.within, word⟩

theorem Tied.sees (tied : pairing.Tied n first second) :
    pairing.Sees first.current.lexeme second.current.lexeme := by
  cases tied.position with
  | reading current _ => exact .same current.lexeme
  | ended eof semicolon =>
    rw [eof, semicolon]
    exact .ended

theorem Tied.same_of_exact (tied : pairing.Tied n first second) (exact : pairing.exact) :
    first.current.Same pairing.view pairing.together second.current := by
  cases tied.position with
  | reading current _ => exact current
  | ended _ _ _ ended => exact absurd ended (pairing.endless exact _)

/-- Away from the end, paired parsers look at the same tokens. -/
theorem Tied.reading (tied : pairing.Tied n first second) (live : first.current.lexeme ≠ .eof) :
    first.current.Same pairing.view pairing.together second.current ∧
      pairing.Ahead first second := by
  cases tied.position with
  | reading current ahead => exact ⟨current, ahead⟩
  | ended eof => exact absurd eof live

/-- A semicolon is seen by both parsers or by none, unless the first text has
ended. -/
theorem Tied.semicolon_or_ended (tied : pairing.Tied n first second) :
    (second.current.lexeme == .punctuation .semicolon) =
        (first.current.lexeme == .punctuation .semicolon) ∨
      ¬pairing.exact ∧ first.current.lexeme = .eof := by
  cases tied.position with
  | reading current _ => exact .inl (current.lexeme.beq_eq rfl)
  | ended eof _ _ ended => exact .inr ⟨fun exact => pairing.endless exact _ ended, eof⟩

theorem Live.pos (live : pairing.Live n first second) : 0 < n :=
  Nat.lt_of_lt_of_le (weight_pos live.live) live.weight

/-- Only the tokens of two parsers matter for their positions. -/
theorem Position.of_same {first' second' : Parser} (position : pairing.Position first second)
    (current : first'.current = first.current) (current' : second'.current = second.current)
    (lookahead : first'.lookahead = first.lookahead)
    (lookahead' : second'.lookahead = second.lookahead)
    (tokens : first'.tokens = first.tokens) (tokens' : second'.tokens = second.tokens) :
    pairing.Position first' second' := by
  cases position with
  | reading same ahead =>
    refine .reading (by rwa [current, current']) ?_
    cases ahead with
    | unread absent absent' streams =>
      exact .unread (by rwa [lookahead]) (by rwa [lookahead']) (by rwa [tokens, tokens'])
    | read present present' found =>
      exact .read (by rwa [lookahead]) (by rwa [lookahead']) (by rwa [tokens, tokens'])
  | ended eof semicolon absent' ended =>
    exact .ended (by rwa [current]) (by rwa [current']) (by rwa [lookahead']) (by rwa [tokens'])

theorem position_of_found
    (found : pairing.Finds first.current second.current first.tokens second.tokens)
    (absent : first.lookahead = none) (absent' : second.lookahead = none) :
    pairing.Position first second := by
  cases found with
  | same same streams => exact .reading same (.unread absent absent' streams)
  | ended eof semicolon ended => exact .ended eof semicolon absent' ended

end

/-- Bounds with room for all that is left: the first one only runs out under
loose terms. -/
inductive Room (pairing : Pairing) : Nat → Nat → Nat → Prop where
  | none {n bound' : Nat} (loose : ¬pairing.exact) : Room pairing n 0 bound'
  | more {n bound bound' : Nat} (behind : ∀ m, m < n → Room pairing m bound bound') :
      Room pairing n (bound + 1) (bound' + 1)

theorem room_of_le {n bound bound' : Nat} (within : bound ≤ bound')
    (enough : pairing.exact → n < bound) : pairing.Room n bound bound' := by
  induction bound generalizing n bound' with
  | zero => exact .none fun exact => absurd (enough exact) (Nat.not_lt_zero n)
  | succ bound ih =>
    obtain ⟨bound', rfl⟩ := Nat.exists_eq_add_of_le' within
    exact .more fun m less => ih (Nat.le_add_left bound bound') fun exact => by
      have := enough exact
      omega

/-! ## Rules -/

section

variable {inside : Parser → Prop} {α β α' β' : Type} {related : Parser → Parser → Prop}
  {action : ParseM α} {action' : ParseM β} {result : α → β → Parser → Parser → Prop} {n m : Nat}

/-- An action that fails at the end is followed when it is from everywhere
else. -/
theorem agree_of_same
    (tied : ∀ first second, related first second → ∃ n, pairing.Tied n first second)
    (agree : AgreeWhere pairing.terms inside (fun first second => related first second ∧
      first.current.Same pairing.view pairing.together second.current) action action' result)
    (refuses : RefusesAt .eof action) :
    AgreeWhere pairing.terms inside related action action' result := by
  intro first second holds
  obtain ⟨n, given⟩ := tied first second holds
  by_cases eof : first.current.lexeme = .eof
  · by_cases exact : pairing.exact
    · exact agree first second ⟨holds, given.same_of_exact exact⟩
    · cases run : action first with
      | ok value after => exact absurd run (refuses first value after eof)
      | error failure after => exact fun exact' => absurd exact' exact
  · exact agree first second ⟨holds, (given.reading eof).1⟩

/-- Steps that depend on the words looked at. -/
theorem agree_seeing {next : Lexeme → ParseM α} {next' : Lexeme → ParseM β}
    (linked : ∀ first second, related first second →
      pairing.Sees first.current.lexeme second.current.lexeme)
    (behind : ∀ lexeme lexeme', pairing.Sees lexeme lexeme' →
      AgreeWhere pairing.terms inside
        (fun first second => related first second ∧ first.current.lexeme = lexeme)
        (next lexeme) (next' lexeme') result) :
    AgreeWhere pairing.terms inside related (currentLexeme >>= next)
      (currentLexeme >>= next') result :=
  fun first second holds => behind _ _ (linked first second holds) first second ⟨holds, rfl⟩

/-- Steps that depend on the region of the token looked at. -/
theorem agree_spanning {next : Span → ParseM α} {next' : Span → ParseM β}
    (same : ∀ first second, related first second →
      first.current.Same pairing.view pairing.together second.current)
    (behind : ∀ span span', span' = pairing.view.span span →
      AgreeWhere pairing.terms inside related (next span) (next' span') result) :
    AgreeWhere pairing.terms inside related (currentSpan >>= next)
      (currentSpan >>= next') result :=
  fun first second holds => behind _ _ (same first second holds).span first second holds

/-- Repetitions have room for all that is left. -/
theorem agree_bounded {n : Nat} {action : Nat → ParseM α} {action' : Nat → ParseM β}
    (ready : ∀ first second, related first second → pairing.Ready n first second)
    (behind : ∀ bound bound', pairing.Room n bound bound' →
      AgreeWhere pairing.terms inside related (action bound) (action' bound') result) :
    AgreeWhere pairing.terms inside related (bounded action) (bounded action')
      result := by
  intro first second holds
  have given := ready first second holds
  refine behind first.bound second.bound (room_of_le ?_ fun exact => ?_) first second holds
  · rw [given.bound, given.bound']
    exact pairing.roomy
  · rw [given.bound]
    exact Nat.lt_of_le_of_lt given.within (pairing.enough exact)

theorem agree_unexpected (ready : ∀ first second, related first second →
      ∃ k, pairing.Ready k first second) :
    Agree pairing.terms related (Parser.unexpected : ParseM α) (Parser.unexpected : ParseM β)
      result := by
  intro first second holds exact
  obtain ⟨k, given⟩ := ready first second holds
  have same := given.same_of_exact exact
  refine ⟨_, second, rfl, ?_, fun _ => ⟨k, given⟩⟩
  rw [given.expected exact, same.span]
  exact pairing.unexpected _ _ same.lexeme

/-- The first action has no room left, which only happens under loose terms. -/
theorem agree_of_exhausted (loose : ¬pairing.exact)
    (fails : ∀ parser value after, action parser ≠ .ok value after) :
    Agree pairing.terms related action action' result := by
  intro first second holds
  cases run : action first with
  | ok value after => exact absurd run (fails first value after)
  | error failure after => exact fun exact => absurd exact loose

end

section

variable {α β : Type} {n : Nat}

theorem Tied.withExpected {first second : Parser} (tied : pairing.Tied n first second)
    {expected expected' : List Expectation} (same : pairing.exact → expected' = expected) :
    pairing.Tied n { first with expected } { second with expected := expected' } :=
  { tied with
    expected := same
    position := tied.position.of_same rfl rfl rfl rfl rfl rfl }

theorem agree_unexpectedFor (what : Expectation) {related : Parser → Parser → Prop}
    {result : α → β → Parser → Parser → Prop}
    (ready : ∀ first second, related first second → ∃ k, pairing.Ready k first second) :
    Agree pairing.terms related (unexpectedFor what : ParseM α)
      (unexpectedFor what : ParseM β) result := by
  have expected : Agree pairing.terms related (expect what) (expect what)
      fun _ _ first second => ∃ k, pairing.Ready k first second := by
    intro first second holds
    obtain ⟨k, given⟩ := ready first second holds
    rw [expect_run]
    refine fun _ => ⟨(), _, expect_run what second, k, ?_, given.within, given.spent⟩
    exact given.toTied.withExpected fun exact => by rw [given.expected exact]
  exact expected.bind fun _ _ => agree_unexpected fun _ _ => id

/-- What is known of paired parsers whatever they expect. -/
structure Steady (pairing : Pairing) (n : Nat) (related : Parser → Parser → Prop) : Prop where
  ready : ∀ {first second}, related first second → pairing.Ready n first second
  kept : ∀ {first second expected expected'}, related first second →
    (pairing.exact → expected' = expected) →
      related { first with expected } { second with expected := expected' }

theorem steady_ready : pairing.Steady n (pairing.Ready n) :=
  ⟨id, fun ready same => ⟨ready.toTied.withExpected same, ready.within, ready.spent⟩⟩

theorem steady_linked : pairing.Steady n (pairing.Linked n) :=
  ⟨Linked.ready, fun linked same =>
    ⟨linked.toTied.withExpected same, linked.within, linked.placed⟩⟩

/-- A word is looked for alike where both parsers see it or do not. -/
theorem agree_check {related : Parser → Parser → Prop} (steady : pairing.Steady n related)
    (noName : lexeme.isName = false) :
    Agree pairing.terms (fun first second => related first second ∧
        (second.current.lexeme == lexeme) = (first.current.lexeme == lexeme))
      (check lexeme) (check lexeme) fun found found' first second =>
        found' = found ∧ related first second ∧
          (found = true → first.current.lexeme = lexeme) := by
  rintro first second ⟨holds, same⟩
  rw [check_run]
  refine fun _ => ⟨_, _, check_run lexeme second, same, steady.kept holds fun exact => ?_,
    Lexeme.eq_of_beq_noName noName⟩
  rw [same, (steady.ready holds).expected exact]

/-- Fixed words are looked for alike. -/
theorem agree_check_fixed (fixed : lexeme.isFixed = true) :
    Agree pairing.terms (pairing.Linked n) (check lexeme) (check lexeme)
      fun found found' first second => found' = found ∧ pairing.Linked n first second ∧
        (found = true → first.current.lexeme = lexeme) :=
  (agree_check steady_linked (Lexeme.noName_of_fixed fixed)).of_related
    fun _ _ linked => ⟨linked, linked.sees.beq_eq fixed⟩

end

/-! ## Tokens -/

section

variable {parser first second : Parser} {tokens : TokenStream} {n : Nat}

theorem takeNext_eq_ok_of_none {token : Token} (absent : parser.lookahead = none)
    (read : TokenStream.next parser.tokens = .ok token tokens) :
    takeNext parser = .ok token { parser with tokens } := by
  rw [takeNext_of_none absent read]
  simp only [absent]

theorem takeNext_eq_error_of_none {failure : Failure} (absent : parser.lookahead = none)
    (read : TokenStream.next parser.tokens = .error failure tokens) :
    takeNext parser = .error failure { parser with tokens } := by
  have got : (get : ParseM Parser) parser = .ok parser parser := rfl
  rw [takeNext, run_bind_of_ok got]
  unfold readToken
  simp only [read, absent]

/-- Two parsers whose streams have moved on. -/
structure Taken (pairing : Pairing) (first second : Parser) (token token' : Token)
    (middle middle' : Parser) : Prop where
  first : middle = { first with tokens := middle.tokens, lookahead := none }
  second : middle' = { second with tokens := middle'.tokens, lookahead := none }
  found : pairing.Finds token token' middle.tokens middle'.tokens
  stores : pairing.Stores middle.tokens.store middle'.tokens.store

/-- The tokens behind those that paired parsers look at are the same. -/
theorem Ahead.taken (ahead : pairing.Ahead first second)
    (stores : pairing.Stores first.tokens.store second.tokens.store) :
    match takeNext first with
    | .ok token middle => ∃ token' middle', takeNext second = .ok token' middle' ∧
        pairing.Taken first second token token' middle middle'
    | .error failure middle => pairing.exact → ∃ failure' middle',
        takeNext second = .error failure' middle' ∧ pairing.Failures failure failure' ∧
          first.lookahead = none ∧ second.lookahead = none ∧
            middle = { first with tokens := middle.tokens } ∧
              middle' = { second with tokens := middle'.tokens } ∧
                (pairing.resumes → pairing.Streams middle.tokens middle'.tokens ∧
                  pairing.Stores middle.tokens.store middle'.tokens.store) := by
  cases ahead with
  | unread absent absent' streams =>
    have outcome := pairing.next first.tokens second.tokens ⟨streams, stores⟩
    cases read : TokenStream.next first.tokens with
    | ok token tokens =>
      rw [read] at outcome
      obtain ⟨token', tokens', read', found, stores'⟩ := outcome trivial
      rw [takeNext_eq_ok_of_none absent read]
      exact ⟨token', _, takeNext_eq_ok_of_none absent' read', by simp [absent],
        by simp [absent'], found, stores'⟩
    | error failure tokens =>
      rw [read] at outcome
      rw [takeNext_eq_error_of_none absent read]
      intro exact
      obtain ⟨failure', tokens', read', failures, behind⟩ := outcome exact
      exact ⟨failure', _, takeNext_eq_error_of_none absent' read', failures, absent, absent',
        rfl, rfl, behind⟩
  | read present present' found =>
    rw [takeNext_of_some present]
    exact ⟨_, _, takeNext_of_some present', rfl, rfl, found, stores⟩

/-- Behind consumed tokens, paired parsers look at what was found. -/
theorem Taken.linked {middle middle' : Parser} {next next' : Token}
    (taken : pairing.Taken first second next next' middle middle')
    (live : pairing.Live n first second)
    (light : { middle with current := next, previous := first.current.span, expected := [] }.weight
      ≤ n - 1) :
    pairing.Linked (n - 1)
      { middle with current := next, previous := first.current.span, expected := [] }
      { middle' with current := next', previous := second.current.span, expected := [] } := by
  have short : n - 1 < n := Nat.sub_lt live.pos Nat.one_pos
  obtain ⟨isFirst, isSecond, found, stores⟩ := taken
  have span := (live.reading live.live).1.span
  refine ⟨⟨light, ?_, ?_, ?_, ?_, fun _ => span, fun _ => rfl, stores, ?_⟩,
    Nat.lt_of_lt_of_le short live.within, span⟩
  · rw [isFirst]
    exact live.bound
  · rw [isSecond]
    exact live.bound'
  · rw [isFirst, isSecond]
    exact live.functions
  · rw [isFirst, isSecond]
    exact live.started
  · refine position_of_found found ?_ ?_
    · rw [isFirst]
    · rw [isSecond]

theorem advance_of_takeNext {middle : Parser} {next : Token}
    (took : takeNext parser = .ok next middle) (kept : middle.current = parser.current) :
    advance parser = .ok parser.current
      { middle with current := next, previous := parser.current.span, expected := [] } := by
  rw [advance, run_bind_of_ok took, ← kept]
  rfl

/-- Paired parsers of which both fail to read on are still paired. -/
theorem Tied.withTokens (tied : pairing.Tied n first second)
    (current : first.current.Same pairing.view pairing.together second.current)
    (absent : first.lookahead = none) (absent' : second.lookahead = none) {tokens' : TokenStream}
    (light : { first with tokens }.weight ≤ n) (streams : pairing.Streams tokens tokens')
    (stores : pairing.Stores tokens.store tokens'.store) :
    pairing.Tied n { first with tokens } { second with tokens := tokens' } :=
  { tied with
    weight := light
    stores := stores
    position := .reading current (.unread absent absent' streams) }

/-- The same token is consumed. -/
theorem agree_advance : Agree pairing.terms (pairing.Live n) advance advance
    fun token token' first second => token'.span = pairing.view.span token.span ∧
      pairing.Linked (n - 1) first second := by
  intro first second live
  obtain ⟨current, ahead⟩ := live.reading live.live
  have outcome := ahead.taken live.stores
  cases run : advance first with
  | ok token after =>
    intro _
    have spent := advance_ok_spends run
    rw [Token.weight_of_ne live.live] at spent
    have light : after.weight ≤ n - 1 := by
      have := live.weight
      omega
    obtain ⟨rfl, next, middle, took, rfl⟩ := advance_eq_ok run
    rw [took] at outcome
    obtain ⟨next', middle', took', taken⟩ := outcome
    have kept : middle'.current = second.current := by rw [taken.second]
    exact ⟨_, _, advance_of_takeNext took' kept, current.span, taken.linked live light⟩
  | error failure after =>
    intro exact
    have spent := advance_error_spends run
    obtain ⟨absent, tokens, read, rfl⟩ := advance_eq_error run
    rw [takeNext_eq_error_of_none absent read] at outcome
    obtain ⟨failure', middle', took', failures, -, absent', -, isSecond, behind⟩ := outcome exact
    rw [isSecond] at took'
    have failed : advance second =
        .error failure' { second with tokens := middle'.tokens } := by
      change EStateM.bind takeNext _ second = _
      rw [EStateM.bind, took']
    refine ⟨failure', _, failed, failures, fun resumes => ?_⟩
    obtain ⟨streams, stores⟩ := behind resumes
    exact ⟨n, Live.ready ⟨live.toTied.withTokens current absent absent'
      (Nat.le_trans (Nat.le_of_lt spent) live.weight) streams stores, live.within, live.live⟩⟩

end

end Pairing

end NewtonScript
