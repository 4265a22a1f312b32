import NewtonScript.Proofs.Invariant
import NewtonScript.Tree.Parser

/-!
# Steps of a parser

How a parser comes to its next token, what it does to look for a word, and at
which words its actions fail.  No expression starts with a word that starts
none; in particular none starts at the end of a text.
-/

namespace NewtonScript.Parser

variable {lexeme : Lexeme} {token : Token} {parser after : Parser}

/-! ## Tokens -/

theorem takeNext_eq_ok (run : takeNext parser = .ok token after) :
    parser.lookahead = some token ∧ after = { parser with lookahead := none } ∨
      parser.lookahead = none ∧ ∃ tokens, TokenStream.next parser.tokens = .ok token tokens ∧
        after = { parser with tokens, lookahead := none } := by
  obtain ⟨_, _, got, run⟩ := run_bind_eq_ok run
  cases got
  cases found : parser.lookahead with
  | some ahead =>
    rw [found] at run
    cases run
    exact .inl ⟨rfl, rfl⟩
  | none =>
    rw [found] at run
    refine .inr ⟨rfl, ?_⟩
    change readToken parser = _ at run
    unfold readToken at run
    split at run
    · rename_i read
      cases run
      exact ⟨_, read, by rw [found]⟩
    · cases run

theorem takeNext_of_some (found : parser.lookahead = some token) :
    takeNext parser = .ok token { parser with lookahead := none } := by
  have got : (get : ParseM Parser) parser = .ok parser parser := rfl
  rw [takeNext, run_bind_of_ok got, found]
  rfl

theorem takeNext_of_none {tokens : TokenStream} (absent : parser.lookahead = none)
    (read : TokenStream.next parser.tokens = .ok token tokens) :
    takeNext parser = .ok token { parser with tokens, lookahead := none } := by
  have got : (get : ParseM Parser) parser = .ok parser parser := rfl
  rw [takeNext, run_bind_of_ok got]
  unfold readToken
  simp only [read, absent]

/-- Behind a name that is consumed stands the token that was looked at. -/
theorem current_of_identifier {name : Symbol} (present : parser.lookahead = some token)
    (run : identifier parser = .ok name after) : after.current = token := by
  obtain ⟨_, _, looked, run⟩ := run_bind_eq_ok run
  cases looked
  cases seen : parser.current.lexeme with
  | identifier =>
    rw [seen] at run
    obtain ⟨_, _, advanced, returned⟩ := run_bind_eq_ok run
    cases returned
    rw [advance, run_bind_of_ok (takeNext_of_some present)] at advanced
    cases advanced
    rfl
  | _ =>
    rw [seen] at run
    cases run

/-! ## Words that are looked for -/

/-- What is expected after something else was tried. -/
def expecting (what : Expectation) (expected : List Expectation) : List Expectation :=
  if expected.contains what then expected else expected ++ [what]

theorem expect_run (what : Expectation) (parser : Parser) :
    expect what parser =
      .ok () { parser with expected := expecting what parser.expected } := by
  change EStateM.Result.ok () (if parser.expected.contains what then parser else
    { parser with expected := parser.expected ++ [what] }) = _
  unfold expecting
  split <;> rfl

/-- Looking for a word changes nothing but what is expected. -/
theorem check_run (lexeme : Lexeme) (parser : Parser) :
    check lexeme parser = .ok (parser.current.lexeme == lexeme)
      { parser with
        expected := if parser.current.lexeme == lexeme then parser.expected
          else expecting (.word lexeme) parser.expected } := by
  change (if parser.current.lexeme == lexeme then pure true
    else do expect (.word lexeme); return false : ParseM Bool) parser = _
  cases parser.current.lexeme == lexeme with
  | true => rfl
  | false =>
    rw [if_neg Bool.false_ne_true, run_bind_of_ok (expect_run _ parser)]
    rfl

theorem accept_of_ne (different : (parser.current.lexeme == lexeme) = false) :
    accept lexeme parser =
      .ok false { parser with expected := expecting (.word lexeme) parser.expected } := by
  have checked := check_run lexeme parser
  rw [different] at checked
  rw [accept, run_bind_of_ok checked]
  rfl

/-- A word is accepted where it is looked at, and the next token is taken. -/
theorem accept_eq_ok {found : Bool} (run : accept lexeme parser = .ok found after) :
    (parser.current.lexeme == lexeme) = found ∧ if found then
        ∃ token expected, advance { parser with expected } = .ok token after
      else after = { parser with expected := expecting (.word lexeme) parser.expected } := by
  cases looking : parser.current.lexeme == lexeme with
  | false =>
    cases (accept_of_ne looking).symm.trans run
    exact ⟨rfl, rfl⟩
  | true =>
    have checked := check_run lexeme parser
    rw [looking] at checked
    rw [accept, run_bind_of_ok checked] at run
    obtain ⟨token, _, advanced, ⟨⟩⟩ := run_bind_eq_ok run
    exact ⟨rfl, token, _, advanced⟩

/-! ## Refusals -/

section

variable {α β : Type}

/-- An action that fails where the given word is looked at. -/
def RefusesAt (lexeme : Lexeme) (action : ParseM α) : Prop :=
  ∀ parser value after, parser.current.lexeme = lexeme → action parser ≠ .ok value after

theorem RefusesAt.bind {action : ParseM α} (refuses : RefusesAt lexeme action)
    (next : α → ParseM β) : RefusesAt lexeme (action >>= next) := by
  intro parser value after looking run
  obtain ⟨found, middle, run, _⟩ := run_bind_eq_ok run
  exact refuses parser found middle looking run

theorem RefusesAt.seeing {next : Lexeme → ParseM α} (refuses : RefusesAt lexeme (next lexeme)) :
    RefusesAt lexeme (currentLexeme >>= next) := by
  intro parser value after looking run
  change next parser.current.lexeme parser = _ at run
  rw [looking] at run
  exact refuses parser value after looking run

theorem RefusesAt.spanning {next : Span → ParseM α}
    (refuses : ∀ span, RefusesAt lexeme (next span)) : RefusesAt lexeme (currentSpan >>= next) :=
  fun parser => refuses parser.current.span parser

theorem RefusesAt.bounded {action : Nat → ParseM α}
    (refuses : ∀ bound, RefusesAt lexeme (action bound)) :
    RefusesAt lexeme (Parser.bounded action) :=
  fun parser => refuses parser.bound parser

theorem refusesAt_unexpected (lexeme : Lexeme) : RefusesAt lexeme (unexpected : ParseM α) := by
  rintro _ _ _ _ ⟨⟩

theorem refusesAt_unexpectedFor (lexeme : Lexeme) (what : Expectation) :
    RefusesAt lexeme (unexpectedFor what : ParseM α) := by
  rintro _ _ _ _ ⟨⟩

theorem refusesAt_consume {word : Lexeme} (different : (lexeme == word) = false) :
    RefusesAt lexeme (consume word) := by
  rintro parser value after looking run
  have checked := check_run word parser
  rw [looking, different] at checked
  rw [consume, run_bind_of_ok checked] at run
  cases run

theorem refusesAt_identifier : RefusesAt .eof identifier :=
  .seeing (refusesAt_unexpectedFor _ _)

end

section

variable {expr : ParseM Node}

theorem refusesAt_sequenceItems (refuses : RefusesAt .eof expr) (ends : Keyword) (bound : Nat)
    (found : List Node) : RefusesAt .eof (sequenceItems expr ends bound found) := by
  cases bound with
  | zero => exact refusesAt_unexpected _
  | succ bound => exact .seeing (refuses.bind _)

theorem refusesAt_exprSequence (refuses : RefusesAt .eof expr) (ends : Keyword) :
    RefusesAt .eof (exprSequence expr ends) :=
  .spanning fun _ => .bind (.bounded fun bound => refusesAt_sequenceItems refuses ends bound []) _

theorem refusesAt_handlers (bound : Nat) : RefusesAt .eof (handlers expr bound []) := by
  cases bound with
  | zero => exact refusesAt_unexpected _
  | succ bound =>
    intro parser value after eof run
    rw [handlers, run_bind_of_ok (check_run (.keyword .kwOnException) parser), eof] at run
    have refuses : RefusesAt .eof (consume (.keyword .kwOnException)) := refusesAt_consume rfl
    refine refuses.bind _ _ value after ?_ run
    exact eof

theorem refusesAt_annotated {α : Type} {next : Option Symbol → ParseM α}
    (refuses : RefusesAt .eof (next none)) : RefusesAt .eof (annotation? >>= next) := by
  intro parser value after eof run
  have looked : atIdentifier parser = .ok false parser := by
    have seen : currentLexeme parser = .ok parser.current.lexeme parser := rfl
    rw [atIdentifier, run_bind_of_ok seen, eof]
    rfl
  have absent : annotation? parser = .ok none parser := by
    rw [annotation?, run_bind_of_ok looked]
    rfl
  rw [run_bind_of_ok absent] at run
  exact refuses parser value after eof run

theorem refusesAt_primary (starts : lexeme.startsExpression = false) :
    RefusesAt lexeme (primary expr) := by
  refine .spanning fun start => .seeing ?_
  cases lexeme with
  | eof => exact refusesAt_unexpectedFor _ _
  | identifier => cases starts
  | literal => cases starts
  | keyword word => cases word <;> first | exact refusesAt_unexpectedFor _ _ | cases starts
  | operator op => cases op <;> first | exact refusesAt_unexpectedFor _ _ | cases starts
  | punctuation mark => cases mark <;> first | exact refusesAt_unexpectedFor _ _ | cases starts

theorem monadic?_eq_none (starts : lexeme.startsExpression = false) : lexeme.monadic? = none := by
  cases lexeme with
  | keyword word => cases word <;> first | rfl | cases starts
  | operator op => cases op <;> first | rfl | cases starts
  | _ => rfl

theorem refusesAt_operations {operand : ParseM Node} (starts : lexeme.startsExpression = false)
    (refuses : RefusesAt lexeme operand) (bound : Nat) :
    RefusesAt lexeme (operations operand bound {}) := by
  cases bound with
  | zero => exact refusesAt_unexpectedFor _ _
  | succ bound =>
    intro parser value after looking run
    obtain ⟨operators, middle, read, rest⟩ := run_bind_eq_ok run
    have kept : operators = [] ∧ middle = parser := by
      change monadicOperators parser.bound [] parser = _ at read
      cases limit : parser.bound with
      | zero =>
        rw [limit] at read
        cases read
      | succ limit' =>
        have seen : currentLexeme parser = .ok parser.current.lexeme parser := rfl
        rw [limit, monadicOperators, run_bind_of_ok seen, looking, monadic?_eq_none starts] at read
        cases read
        exact ⟨rfl, rfl⟩
    obtain ⟨rfl, rfl⟩ := kept
    exact (refuses.bind _).bind _ middle value after looking rest

/-- No expression starts with a word that starts none. -/
theorem refusesAt_expression (starts : lexeme.startsExpression = false) (depth : Nat) :
    RefusesAt lexeme (expression depth) := by
  cases depth with
  | zero => exact refusesAt_unexpectedFor _ _
  | succ depth =>
    exact .bounded fun bound =>
      refusesAt_operations starts ((refusesAt_primary starts).bind _) bound

end

/-! ## Commands -/

/-- The end of a command. -/
def commandEnd (command : Node) : ParseM (Option Node) := do
  if ← accept (.punctuation .semicolon) then
    return some command
  else if ← check .eof then
    return some command
  else
    unexpected

/-- A command behind the semicolons in front of it. -/
def commandTail : ParseM (Option Node) := do
  match ← currentLexeme with
  | .eof => return none
  | _ =>
    let command ← bounded expression
    commandEnd command

theorem prime_of_started (started : parser.started = true) : prime parser = .ok () parser := by
  change (if !parser.started then _ else pure () : ParseM Unit) parser = _
  rw [started]
  rfl

theorem started_of_prime (run : prime parser = .ok () after) : after.started = true := by
  cases began : parser.started with
  | true =>
    cases (prime_of_started began).symm.trans run
    exact began
  | false =>
    change (if !parser.started then _ else pure () : ParseM Unit) parser = _ at run
    rw [began] at run
    obtain ⟨token, middle, read, ⟨⟩⟩ := run_bind_eq_ok run
    rfl

theorem skipSemicolons_of_ne
    (different : (parser.current.lexeme == .punctuation .semicolon) = false) (bound : Nat) :
    skipSemicolons (bound + 1) parser = .ok ()
      { parser with expected := expecting (.word (.punctuation .semicolon)) parser.expected } := by
  rw [skipSemicolons, run_bind_of_ok (accept_of_ne different)]
  rfl

/-- Where the text ends, a command ends. -/
theorem commandEnd_of_eof (eof : parser.current.lexeme = .eof) (command : Node) :
    ∃ expected, commandEnd command parser = .ok (some command) { parser with expected } := by
  have refused := accept_of_ne
    (show (parser.current.lexeme == .punctuation .semicolon) = false by rw [eof]; rfl)
  rw [commandEnd, run_bind_of_ok refused, if_neg (by decide), run_bind_of_ok (check_run .eof _), eof]
  exact ⟨_, rfl⟩

theorem commandTail_of_eof (eof : parser.current.lexeme = .eof) :
    commandTail parser = .ok none parser := by
  change (match parser.current.lexeme with
    | .eof => return none
    | _ => bounded expression >>= commandEnd : ParseM (Option Node)) parser = _
  rw [eof]
  rfl

theorem commandTail_of_ne (different : parser.current.lexeme ≠ .eof) :
    commandTail parser = (bounded expression >>= commandEnd) parser := by
  change (match parser.current.lexeme with
    | .eof => return none
    | _ => bounded expression >>= commandEnd : ParseM (Option Node)) parser = _
  cases seen : parser.current.lexeme with
  | eof => exact absurd seen different
  | _ => rfl

theorem nextCommand_eq_ok {found : Option Node} (started : parser.started = true)
    (run : nextCommand parser = .ok found after) :
    ∃ middle, skipSemicolons parser.bound parser = .ok () middle ∧
      commandTail middle = .ok found after := by
  rw [nextCommand, run_bind_of_ok (prime_of_started started)] at run
  obtain ⟨_, middle, skipped, run⟩ := run_bind_eq_ok run
  exact ⟨middle, skipped, run⟩

theorem nextCommand_of_skip {middle : Parser} (started : parser.started = true)
    (skipped : skipSemicolons parser.bound parser = .ok () middle) :
    nextCommand parser = commandTail middle := by
  rw [nextCommand, run_bind_of_ok (prime_of_started started)]
  exact run_bind_of_ok skipped _

theorem commands_of_eof {bound : Nat} {found all : List Node} (started : parser.started = true)
    (eof : parser.current.lexeme = .eof) (run : commands bound found parser = .ok all after) :
    all = found.reverse ∧ after.functions = parser.functions := by
  cases bound with
  | zero => cases run
  | succ bound =>
    obtain ⟨next, middle, read, run⟩ := run_bind_eq_ok run
    obtain ⟨first, skipped, tail⟩ := nextCommand_eq_ok started read
    have kept : first.current.lexeme = .eof ∧ first.functions = parser.functions := by
      cases limit : parser.bound with
      | zero =>
        rw [limit] at skipped
        cases skipped
      | succ limit' =>
        have different : (parser.current.lexeme == .punctuation .semicolon) = false := by
          rw [eof]
          rfl
        rw [limit] at skipped
        cases (skipSemicolons_of_ne different limit').symm.trans skipped
        exact ⟨eof, rfl⟩
    cases (commandTail_of_eof kept.1).symm.trans tail
    cases run
    exact ⟨rfl, kept.2⟩

end NewtonScript.Parser
