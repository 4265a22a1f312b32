import NewtonScript.Proofs.Pairing.Commands
import NewtonScript.Proofs.Reading.Semicolons
import NewtonScript.Proofs.Tree.Numbered

/-!
# Programs one behind the other

Two programs that can be read can be read as one, with a semicolon on a line
of its own between them.  The commands of the longer program are those of the
first one and, moved, those of the second one.

Commands of the first program are read alike up to its end, where the longer
one has the semicolon.  The semicolons in front of the second program are
skipped in both, one more in the longer program; from the first other word on,
the commands of the second program are read alike.
-/

namespace NewtonScript

namespace Parser

/-- A command can be read only from an open word. -/
theorem isOpen_of_commandTail {parser after : Parser} {found : Option Node}
    (run : commandTail parser = .ok found after) : parser.current.lexeme.IsOpen := by
  by_cases eof : parser.current.lexeme = .eof
  · exact .inl eof
  · refine .inr ?_
    rw [commandTail_of_ne eof] at run
    cases starts : parser.current.lexeme.startsExpression with
    | true => rfl
    | false =>
      exact absurd run ((RefusesAt.bounded (refusesAt_expression starts)).bind _ parser found
        after rfl)

end Parser

namespace Pairing

open NewtonScript.Parser

/-! ## Commands -/

section

variable {pairing : Pairing} {n : Nat}

/-- The semicolons in front of a command are skipped alike, as long as the
first text has some. -/
theorem Tied.skip (loose : ¬pairing.exact) {first second after : Parser} {bound bound' extra : Nat}
    (tied : pairing.Tied n first second) (short : n < pairing.limit)
    (run : skipSemicolons bound first = .ok () after) (enough : bound + extra ≤ bound') :
    ∃ m left middle, m ≤ n ∧ extra < left ∧
      skipSemicolons bound' second = skipSemicolons left middle ∧
        pairing.Tied m after middle ∧
          (after.current.lexeme == .punctuation .semicolon) = false := by
  induction bound generalizing n first second bound' with
  | zero => cases run
  | succ bound ih =>
    obtain ⟨bound', rfl⟩ : ∃ rest, bound' = rest + 1 := ⟨bound' - 1, by omega⟩
    cases looking : first.current.lexeme == .punctuation .semicolon with
    | false =>
      cases (skipSemicolons_of_ne looking bound).symm.trans run
      exact ⟨n, bound' + 1, second, Nat.le_refl n, by omega, rfl,
        tied.withExpected fun exact => absurd exact loose, looking⟩
    | true =>
      have live : first.current.lexeme ≠ .eof := by
        rw [Lexeme.eq_of_beq_noName rfl looking]
        nofun
      obtain ⟨found, middle, accepted, run⟩ := run_bind_eq_ok run
      obtain ⟨found', middle', accepted', flags, outcome⟩ :=
        (agree_accept steady_ready (.punctuation .semicolon) rfl nofun).of_ok
          ⟨⟨tied, Nat.le_of_lt short, fun _ => short⟩,
            (tied.reading live).1.lexeme.beq_eq rfl⟩ accepted trivial
      have taken := (accept_eq_ok accepted).1
      rw [looking] at taken
      subst flags taken
      obtain ⟨fewer, linked⟩ := outcome
      obtain ⟨m, left, last, less, more, skipped, tied', different⟩ :=
        ih linked.toTied linked.within run (show bound + extra ≤ bound' by omega)
      refine ⟨m, left, last, by omega, more, ?_, tied', different⟩
      rw [skipSemicolons, run_bind_of_ok accepted']
      exact skipped

/-- A command that the first text goes on behind is ended alike. -/
theorem Linked.commandEnd {first second after : Parser} {command command' : Node}
    {found : Option Node} (linked : pairing.Linked n first second)
    (live : first.current.lexeme ≠ .eof) (run : Parser.commandEnd command first = .ok found after) :
    found = some command ∧ ∃ m after', m ≤ n ∧
      Parser.commandEnd command' second = .ok (some command') after' ∧
        pairing.Tied m after after' := by
  obtain ⟨taken, middle, accepted, run⟩ := run_bind_eq_ok run
  obtain ⟨taken', middle', accepted', flags, outcome⟩ :=
    (agree_accept steady_linked (.punctuation .semicolon) rfl nofun).of_ok
      ⟨linked, (linked.reading live).1.lexeme.beq_eq rfl⟩ accepted trivial
  subst flags
  cases taken' with
  | true =>
    cases run
    exact ⟨rfl, n - 1, middle', Nat.sub_le n 1,
      by rw [Parser.commandEnd, run_bind_of_ok accepted']; rfl, outcome.2.toTied⟩
  | false =>
    obtain ⟨-, rfl⟩ := accept_eq_ok accepted
    have different : (first.current.lexeme == .eof) = false := by
      cases seen : first.current.lexeme with
      | eof => exact absurd seen live
      | _ => rfl
    rw [if_neg (by decide), run_bind_of_ok (check_run .eof _), different] at run
    cases run

/-- Behind the semicolons in front of it, a command of the first text is read
alike, up to what ends it. -/
theorem Tied.commandUpTo {start start' after : Parser} {found : Option Node}
    (tied : pairing.Tied n start start') (short : n < pairing.limit)
    (live : start.current.lexeme ≠ .eof) (run : Parser.commandTail start = .ok found after) :
    ∃ m command command' last last', m < n ∧
      Parser.commandEnd command last = .ok found after ∧
        Parser.bounded Parser.expression start' = .ok command' last' ∧
          Parser.commandTail start' = Parser.commandEnd command' last' ∧
            Matches pairing.view command command' ∧ pairing.Linked m last last' := by
  have live' := (tied.reading live).1.lexeme.eq_eof_iff.not.mpr live
  rw [commandTail_of_ne live] at run
  obtain ⟨command, last, parsed, ended⟩ := run_bind_eq_ok run
  obtain ⟨command', last', parsed', alike, m, fewer, linked⟩ :=
    parses_command.of_ok (Live.ready ⟨tied, Nat.le_of_lt short, live⟩) parsed trivial
  refine ⟨m, command, command', last, last', fewer, ended, parsed', ?_, alike, linked⟩
  rw [commandTail_of_ne live', run_bind_of_ok parsed']

end

/-! ## The commands of a text at another place -/

section

variable {shift : Shift} {limit room room' n : Nat} {roomy : room ≤ room'}

theorem Tied.same_of_moved {first second : Parser}
    (tied : (moved shift limit roomy).Tied n first second) :
    first.current.Same (.moved shift) True second.current := by
  cases tied.position with
  | reading current _ => exact current
  | ended _ _ _ ended => exact False.elim ended

theorem Tied.commandTail {first second after : Parser} {found : Option Node}
    (tied : (moved shift limit roomy).Tied n first second) (short : n < limit)
    (run : Parser.commandTail first = .ok found after) :
    ∃ found' after', Parser.commandTail second = .ok found' after' ∧
      (found = none ∧ found' = none ∨ ∃ m command command', m ≤ n ∧ found = some command ∧
        found' = some command' ∧ Matches (.moved shift) command command' ∧
          (moved shift limit roomy).Tied m after after') := by
  have ends := tied.same_of_moved.lexeme.eq_eof_iff
  by_cases eof : first.current.lexeme = .eof
  · cases (commandTail_of_eof eof).symm.trans run
    exact ⟨none, second, commandTail_of_eof (ends.mpr eof), .inl ⟨rfl, rfl⟩⟩
  · obtain ⟨m, command, command', middle, middle', less, run, -, tail', same, linked⟩ :=
      tied.commandUpTo short eof run
    rw [tail']
    by_cases eof' : middle.current.lexeme = .eof
    · obtain ⟨expected, ended⟩ := commandEnd_of_eof eof' command
      obtain ⟨expected', ended'⟩ := commandEnd_of_eof
        (linked.toTied.same_of_moved.lexeme.eq_eof_iff.mpr eof') command'
      cases ended.symm.trans run
      exact ⟨_, _, ended', .inr ⟨m, command, command', Nat.le_of_lt less, rfl, rfl, same,
        linked.toTied.withExpected False.elim⟩⟩
    · obtain ⟨rfl, k, after', fewer, ended', tied'⟩ := linked.commandEnd eof' run
      exact ⟨_, after', ended', .inr ⟨k, command, command', by omega, rfl, rfl, same, tied'⟩⟩

theorem Tied.commands {first second after : Parser} {bound bound' : Nat}
    {found found' base all : List Node} (tied : (moved shift limit roomy).Tied n first second)
    (short : n < limit) (same : Matches (.moved shift) found found') (within : bound ≤ bound')
    (run : Parser.commands bound found first = .ok all after) :
    ∃ all' after', Parser.commands bound' (found' ++ base) second =
      .ok (base.reverse ++ all') after' ∧ Matches (.moved shift) all all' := by
  induction bound generalizing n first second bound' found found' with
  | zero => cases run
  | succ bound ih =>
    obtain ⟨bound', rfl⟩ : ∃ rest, bound' = rest + 1 := ⟨bound' - 1, by omega⟩
    obtain ⟨next, middle, read, run⟩ := run_bind_eq_ok run
    obtain ⟨start, skipped, tail⟩ := nextCommand_eq_ok tied.started.1 read
    have bounds : first.bound + 0 ≤ second.bound := by
      rw [tied.bound, tied.bound']
      exact roomy
    obtain ⟨m, left, last, less, more, skips, tied', different⟩ := tied.skip id short skipped bounds
    obtain ⟨left, rfl⟩ := Nat.exists_eq_add_of_lt more
    have skipped' := skipSemicolons_of_ne
      ((tied'.same_of_moved.lexeme.beq_eq rfl).trans different) (0 + left)
    obtain ⟨next', middle', tail', outcome⟩ :=
      (tied'.withExpected False.elim).commandTail (by omega) tail
    rw [Parser.commands, run_bind_of_ok
      ((nextCommand_of_skip tied.started.2 (skips.trans skipped')).trans tail')]
    rcases outcome with ⟨rfl, rfl⟩ | ⟨k, command, command', fewer, rfl, rfl, commandSame, tied''⟩
    · cases run
      exact ⟨_, _, congrArg (EStateM.Result.ok · _) List.reverse_append, same.reverse⟩
    · exact ih tied'' (by omega) (commandSame.cons same) (Nat.le_of_succ_le_succ within) run

/-- A program behind the commands of another one. -/
theorem Tied.commandsFrom {start arrival after last : Parser} {next : Option Node}
    {bound left : Nat} {all base : List Node}
    (tied : (moved shift limit roomy).Tied n start arrival) (short : n < limit)
    (rest : (match next with
      | some command => Parser.commands bound [command]
      | none => return [] : ParseM (List Node)) after = .ok all last)
    (tail : Parser.commandTail start = .ok next after) (enough : bound ≤ left) :
    ∃ all' last', (do
        match ← Parser.commandTail with
        | some command => Parser.commands left (command :: base)
        | none => return base.reverse : ParseM (List Node)) arrival =
          .ok (base.reverse ++ all') last' ∧ Matches (.moved shift) all all' := by
  obtain ⟨next', after', tail', outcome⟩ := tied.commandTail short tail
  rw [run_bind_of_ok tail']
  rcases outcome with ⟨rfl, rfl⟩ | ⟨m, command, command', less, rfl, rfl, same, tied'⟩
  · cases rest
    exact ⟨[], after', congrArg (EStateM.Result.ok · after') (List.append_nil _).symm, rfl⟩
  · exact tied'.commands (by omega) (same.cons Matches.nil) enough rest

end

/-! ## The commands in front of a semicolon -/

/-- A parser that comes to the given word when it skips semicolons, with so many
function literals read and room for so many tokens. -/
structure Approaching (raw : Token) (behind : Cursor) (count room : Nat) (parser arrival : Parser) :
    Prop where
  started : parser.started = true
  skips : skipSemicolons parser.bound parser = .ok () arrival
  arrived : Arrived raw behind arrival
  functions : arrival.functions = count
  bound : room ≤ arrival.bound
  started' : arrival.started = true

section

variable {finish : Cursor} {tail : List Char} {limit room room' extra n : Nat}
  {roomy : room ≤ room'} {opens : (finish.behindJoint tail).Opens} {raw : Token} {behind : Cursor} {ahead : Nat}

/-- At the end of its text, a parser is paired with one in front of the
semicolon. -/
theorem Tied.nearing {first second : Parser}
    (tied : (joint finish tail limit roomy opens).Tied n first second)
    (eof : first.current.lexeme = .eof) (leads : (finish.behindJoint tail).Leads ahead raw behind) :
    Nearing raw behind (ahead + 1) second := by
  cases tied.position with
  | reading current _ => exact False.elim (current.ends eof)
  | ended _ semicolon absent stands => exact .before semicolon absent stands leads

/-- What one command of the first text is in the longer one: none when the other
parser approaches the second text, else the same command, behind which the
parsers are paired or the other one approaches the second text. -/
theorem Tied.nextCommand (leads : (finish.behindJoint tail).Leads ahead raw behind)
    (isOpen : raw.lexeme.IsOpen) (enough : ahead < extra) (spare : room + extra ≤ room')
    {first second after : Parser} {found : Option Node}
    (tied : (joint finish tail limit roomy opens).Tied n first second) (short : n < limit)
    (run : Parser.nextCommand first = .ok found after) :
    (found = none ∧ ∃ arrival, Approaching raw behind after.functions extra second arrival) ∨
      ∃ command command' after', found = some command ∧
        Parser.nextCommand second = .ok (some command') after' ∧
          Matches (.moved {}) command command' ∧
            ((∃ m, m ≤ n ∧ (joint finish tail limit roomy opens).Tied m after after') ∨
              after.started = true ∧ after.current.lexeme = .eof ∧ ∃ arrival,
                Approaching raw behind after.functions extra after' arrival) := by
  obtain ⟨start, skipped, rest⟩ := nextCommand_eq_ok tied.started.1 run
  have bounds : first.bound + extra ≤ second.bound := by
    rw [tied.bound, tied.bound']
    exact spare
  obtain ⟨m, left, start', less, more, skipped', tied', different⟩ :=
    tied.skip id short skipped bounds
  have spacious : ∀ {k : Nat} {first second : Parser},
      (joint finish tail limit roomy opens).Tied k first second → extra ≤ second.bound := by
    intro k first second tied
    rw [tied.bound']
    exact Nat.le_trans (Nat.le_add_left extra room) spare
  by_cases eof : start.current.lexeme = .eof
  · -- The first text has no more commands: all semicolons up to the word are skipped.
    cases (commandTail_of_eof eof).symm.trans rest
    obtain ⟨arrival, arrives, arrived, same⟩ :=
      (tied'.nearing eof leads).skip isOpen (show ahead + 1 < left by omega)
    refine .inl ⟨rfl, arrival, tied.started.2, skipped'.trans arrives, arrived, ?_, ?_, ?_⟩
    · exact same.functions.trans tied'.functions
    · exact same.bound ▸ spacious tied'
    · exact same.started.trans tied'.started.2
  · obtain ⟨left, rfl⟩ := Nat.exists_eq_add_of_lt more
    have skipped'' := skipSemicolons_of_ne
      (((tied'.reading eof).1.lexeme.beq_eq rfl).trans different) (extra + left)
    obtain ⟨k, command, command', last, last', fewer, ended, -, tail', alike, linked⟩ :=
      (tied'.withExpected False.elim).commandUpTo (show m < limit by omega) eof rest
    have next : Parser.nextCommand second = Parser.commandEnd command' last' := by
      rw [nextCommand_of_skip tied.started.2 (skipped'.trans skipped''), tail']
    rw [next]
    by_cases eof'' : last.current.lexeme = .eof
    · -- The first text ends with this command: the semicolon ends it in the longer one.
      obtain ⟨expected, ended'⟩ := commandEnd_of_eof eof'' command
      cases ended'.symm.trans ended
      obtain ⟨middle, accepted, nearing, same⟩ := (linked.toTied.nearing eof'' leads).accept isOpen
      have ended'' : Parser.commandEnd command' last' = .ok (some command') middle := by
        rw [Parser.commandEnd, run_bind_of_ok accepted]
        rfl
      have roomier : extra ≤ middle.bound := same.bound ▸ spacious linked.toTied
      obtain ⟨arrival, arrives, arrived, same'⟩ :=
        nearing.skip isOpen (Nat.lt_of_lt_of_le enough roomier)
      have started := same.started.trans linked.started.2
      refine .inr ⟨command, command', middle, rfl, ended'', alike, .inr ⟨linked.started.1,
        eof'', arrival, started, arrives, arrived, ?_, ?_, same'.started.trans started⟩⟩
      · exact (same.trans same').functions.trans linked.functions
      · exact same'.bound ▸ roomier
    · obtain ⟨rfl, j, after', _, ended', tied''⟩ := linked.commandEnd eof'' ended
      exact .inr ⟨command, command', after', rfl, ended', alike, .inl ⟨j, by omega, tied''⟩⟩

/-- Behind the commands of the first text, the other parser approaches the
commands of the second one. -/
theorem Tied.commandsUpTo (leads : (finish.behindJoint tail).Leads ahead raw behind)
    (isOpen : raw.lexeme.IsOpen) (enough : ahead < extra) (spare : room + extra ≤ room')
    {first second after : Parser} {bound bound' : Nat} {found found' all : List Node}
    (tied : (joint finish tail limit roomy opens).Tied n first second) (short : n < limit)
    (same : Matches (.moved {}) found found') (within : bound + extra ≤ bound')
    (run : Parser.commands bound found first = .ok all after) :
    ∃ left found'' middle arrival, extra < left ∧
      Parser.commands bound' found' second = Parser.commands left found'' middle ∧
        Matches (.moved {}) all found''.reverse ∧
          Approaching raw behind after.functions extra middle arrival := by
  induction bound generalizing n first second bound' found found' with
  | zero => cases run
  | succ bound ih =>
    obtain ⟨bound', rfl⟩ : ∃ rest, bound' = rest + 1 := ⟨bound' - 1, by omega⟩
    obtain ⟨next, middle, read, run⟩ := run_bind_eq_ok run
    rcases tied.nextCommand leads isOpen enough spare short read with
      ⟨rfl, arrival, approaching⟩ |
        ⟨command, command', middle', rfl, read', commandSame, outcome⟩
    · cases run
      exact ⟨bound' + 1, found', second, arrival, by omega, rfl, same.reverse, approaching⟩
    · rw [Parser.commands, run_bind_of_ok read']
      rcases outcome with ⟨m, less, tied'⟩ | ⟨started, eof, arrival, approaching⟩
      · exact ih tied' (by omega) (commandSame.cons same) (show bound + extra ≤ bound' by omega) run
      · obtain ⟨rfl, kept⟩ := commands_of_eof started eof run
        have more : extra < bound' := by
          cases bound with
          | zero => cases run
          | succ bound => omega
        refine ⟨bound', command' :: found', middle', arrival, more, rfl,
          (commandSame.cons same).reverse, ?_⟩
        rwa [kept]

end

end Pairing

namespace Parser

variable {store : Store} {token : Token} {text : String} {after : Parser} {tokens : TokenStream}

/-! ## Programs -/

/-- The parser that looks at the first token of a text. -/
def primed (text : String) (token : Token) (tokens : TokenStream) : Parser :=
  { tokens, current := token, started := true, bound := text.toList.length + 3 }

theorem prime_of_next (read : TokenStream.next (.ofString text store) = .ok token tokens) :
    prime (.ofString text store) = .ok () (primed text token tokens) :=
  @prime_of_ok (.ofString text store) rfl _ _ read

theorem next_of_prime (run : prime (.ofString text store) = .ok () after) :
    ∃ token tokens, TokenStream.next (.ofString text store) = .ok token tokens := by
  cases read : TokenStream.next (.ofString text store) with
  | ok token tokens => exact ⟨token, tokens, rfl⟩
  | error => cases (@prime_of_error (.ofString text store) rfl _ _ read).symm.trans run

theorem program_of_commands {found : List Node} {last : Parser}
    (read : TokenStream.next (.ofString text store) = .ok token tokens)
    (run : commands (text.toList.length + 3) [] (primed text token tokens) = .ok found last) :
    ∃ tree after, program (.ofString text store) = .ok tree after ∧ tree.expr = .begin found := by
  have run : bounded (fun bound => commands bound []) (primed text token tokens) =
    .ok found last := run
  have looked : currentSpan (primed text token tokens) = .ok token.span (primed text token tokens) :=
    rfl
  rw [program, run_bind_of_ok (prime_of_next read), run_bind_of_ok looked, run_bind_of_ok run]
  cases found with
  | nil => exact ⟨_, _, rfl, rfl⟩
  | cons => exact ⟨_, _, rfl, rfl⟩

/-- A program is the sequence of its commands. -/
theorem program_eq_ok {tree : Node} (run : program (.ofString text store) = .ok tree after) :
    ∃ token tokens found last, TokenStream.next (.ofString text store) = .ok token tokens ∧
      commands (text.toList.length + 3) [] (primed text token tokens) = .ok found last ∧
        tree.expr = .begin found := by
  obtain ⟨_, first, primes, rest⟩ := run_bind_eq_ok run
  obtain ⟨token, tokens, read⟩ := next_of_prime primes
  cases (prime_of_next read).symm.trans primes
  obtain ⟨_, _, ⟨⟩, rest⟩ := run_bind_eq_ok rest
  obtain ⟨found, last, ran, _⟩ := run_bind_eq_ok rest
  obtain ⟨tree', after', run', expr⟩ := program_of_commands read ran
  cases run'.symm.trans run
  exact ⟨token, tokens, found, last, read, ran, expr⟩

/-- The first word of a program that can be read, behind its semicolons. -/
theorem leads_of_commands {next : Option Node}
    (read : TokenStream.next (.ofString text store) = .ok token tokens)
    (run : nextCommand (primed text token tokens) = .ok next after) :
    ∃ count raw behind start, (Cursor.ofString text).Leads count raw behind ∧
      raw.lexeme.IsOpen ∧ count < text.toList.length + 3 ∧ commandTail start = .ok next after ∧
        Arrived raw behind start ∧ SameCourse (primed text token tokens) start := by
  obtain ⟨start, skipped, tail⟩ := nextCommand_eq_ok rfl run
  have stands : (TokenStream.ofString text store).Stands (Cursor.ofString text) := .unread rfl rfl
  obtain ⟨count, raw, behind, leads, isOpen, fewer, arrived, same⟩ :=
    leads_of_skip rfl (fun opened =>
      have ⟨raw, behind, reads, current, stands', fresh⟩ :=
        TokenStream.stands_of_next stands read opened
      ⟨raw, behind, reads, current, stands', fresh⟩) skipped (isOpen_of_commandTail tail)
  exact ⟨count, raw, behind, start, leads, isOpen, fewer, tail, arrived, same⟩

/-- Behind the semicolons, a second text is read alike on its own and behind a
first one. -/
theorem Arrived.tied {shift : Shift} {raw : Token} {behind : Cursor} {limit : Nat}
    {first second : Parser} (arrived : Arrived raw behind first)
    (arrived' : Arrived ⟨raw.lexeme, raw.span.moved shift⟩ (behind.moved shift) second)
    (functions : second.functions = first.functions + shift.functions)
    (roomy : first.bound ≤ second.bound) (started : first.started = true)
    (started' : second.started = true) :
    (Pairing.moved shift limit roomy).Tied first.weight first second := by
  refine ⟨Nat.le_refl _, rfl, rfl, functions, ⟨started, started'⟩, False.elim, False.elim, trivial,
    .reading ?_ (.unread arrived.absent arrived'.absent ⟨?_, ?_⟩)⟩
  · exact arrived.current.same arrived'.current rfl rfl fun _ => trivial
  · rw [arrived.here, arrived'.here]
  · rw [arrived.unread, arrived'.unread]
    exact .none

/-- Two programs can be read as one, with a semicolon on a line of its own
between them.  Its commands are those of the first program and, moved by the
bytes, the lines and the function literals in front of them, those of the
second one. -/
theorem program_append (first second : String) (store : Store) {tree tree' : Node}
    {after after' : Parser} (run : program (.ofString first store) = .ok tree after)
    (run' : program (.ofString second store) = .ok tree' after') :
    ∃ joined last commands commands' all,
      program (.ofString (first ++ "\n;\n" ++ second) store) = .ok joined last ∧
        tree.expr = .begin commands ∧ tree'.expr = .begin commands' ∧ joined.expr = .begin all ∧
          all.map (Node.normal {}) = commands.map (Node.normal {}) ++ commands'.map (Node.normal
            ⟨first.utf8ByteSize + 3, first.toList.count '\n' + 2,
              Node.functionCountOf commands⟩) := by
  obtain ⟨token, tokens, found, last, read, ran, expr⟩ := program_eq_ok run
  obtain ⟨token', tokens', found', last', read', ran', expr'⟩ := program_eq_ok run'
  obtain ⟨next, middle, step, rest⟩ := run_bind_eq_ok ran'
  obtain ⟨ahead, raw, behind, start, leads, isOpen, fewer, tail, arrived, same⟩ :=
    leads_of_commands read' step
  -- The second text, where it stands in the longer one.
  let shift : Shift := ⟨first.utf8ByteSize + 3, first.toList.count '\n' + 2,
    Node.functionCountOf found⟩
  have finish : (Cursor.ofString first).finish =
      ⟨[], first.utf8ByteSize, 1 + first.toList.count '\n'⟩ := by
    rw [Cursor.finish_eq]
    change (⟨[], 0 + String.utf8Len first.toList, 1 + first.toList.count '\n'⟩ : Cursor) = _
    rw [← String.utf8ByteSize_ofList, String.ofList_toList, Nat.zero_add]
  have leads' : ((Cursor.ofString first).finish.behindJoint ('\n' :: second.toList)).Leads ahead
      ⟨raw.lexeme, raw.span.moved shift⟩ (behind.moved shift) := by
    rw [finish]
    refine Cursor.Leads.newline ?_
    have moved := leads.moved shift
    have place : (Cursor.ofString second).moved shift = ⟨second.toList, first.utf8ByteSize + 2 + 1,
        1 + first.toList.count '\n' + 1 + 1⟩ := by
      change (⟨_, 0 + (first.utf8ByteSize + 3), 1 + (first.toList.count '\n' + 2)⟩ : Cursor) = _
      rw [Nat.zero_add]
      rfl
    rwa [place] at moved
  have text : (first ++ "\n;\n" ++ second).toList =
      first.toList ++ '\n' :: ';' :: '\n' :: second.toList := by
    simp
  have length : (first ++ "\n;\n" ++ second).toList.length =
      first.toList.length + (second.toList.length + 3) := by
    rw [text]
    simp
  have opens := leads'.opens isOpen
  have streams : TokenStream.Joined (Cursor.ofString first).finish ('\n' :: second.toList)
      (.ofString first store) (.ofString (first ++ "\n;\n" ++ second) store) :=
    .unread rfl rfl (congrArg (Cursor.mk · 0 1) text) rfl
  obtain ⟨token'', tokens'', read'', begins⟩ := streams.next opens read
  have spare : first.toList.length + 3 + (second.toList.length + 3) ≤
      (first ++ "\n;\n" ++ second).toList.length + 3 := by
    omega
  have tied : (Pairing.joint (Cursor.ofString first).finish ('\n' :: second.toList)
      ((primed first token tokens).weight + 1) (Nat.le_of_add_right_le spare) opens).Tied
      (primed first token tokens).weight (primed first token tokens)
      (primed (first ++ "\n;\n" ++ second) token'' tokens'') :=
    ⟨Nat.le_refl _, rfl, rfl, rfl, ⟨rfl, rfl⟩, False.elim, False.elim, trivial,
      Pairing.position_of_found begins rfl rfl⟩
  obtain ⟨left, base, approach, arrival, more, continues, alike, approaching⟩ :=
    tied.commandsUpTo leads' isOpen fewer spare (Nat.lt_succ_self _) Matches.nil spare ran
  obtain ⟨left, rfl⟩ : ∃ rest, left = rest + 1 := ⟨left - 1, by omega⟩
  have numbered : last.functions = Node.functionCountOf found := by
    have holds := Ledger.count_of_numbering (numbering_of_commands rfl ran)
    rw [Carrier.nodes_list, ← Node.functionCountOf_eq] at holds
    exact holds.trans (Nat.zero_add _)
  have tied' : (Pairing.moved shift (start.weight + 1) _).Tied start.weight start arrival :=
    arrived.tied approaching.arrived
      (by rw [approaching.functions, numbered, same.functions]; exact (Nat.zero_add _).symm)
      (by rw [same.bound]; exact approaching.bound) same.started approaching.started'
  obtain ⟨all', last'', ran'', alike'⟩ := tied'.commandsFrom (Nat.lt_succ_self _) rest tail
    (show second.toList.length + 2 ≤ left by omega)
  obtain ⟨joined, last, ran, all⟩ := program_of_commands read''
    (continues.trans ((run_bind_congr
      (nextCommand_of_skip approaching.started approaching.skips) _).trans ran''))
  refine ⟨joined, last, found, found', base.reverse ++ all', ran, expr, expr', all, ?_⟩
  rw [List.map_append, ← alike.normal, ← alike'.normal]

/-- A program whose only command ends with its text. -/
def setter : String := "f := func(a) a.x := 1\n"

/-- A program with semicolons in front of its two commands. -/
def callers : String := ";; f([x: nil]); g"

theorem program_append_setter :
    ∃ tree tree' after after', program (.ofString setter .empty) = .ok tree after ∧
      program (.ofString callers .empty) = .ok tree' after' ∧
        ∃ joined last commands commands' all,
          program (.ofString (setter ++ "\n;\n" ++ callers) .empty) = .ok joined last ∧
            tree.expr = .begin commands ∧ tree'.expr = .begin commands' ∧
              joined.expr = .begin all ∧
                all.map (Node.normal {}) = commands.map (Node.normal {}) ++
                  commands'.map (Node.normal ⟨25, 3, Node.functionCountOf commands⟩) := by
  have readable : (match program (.ofString setter .empty) with
      | .ok _ _ =>
        match program (.ofString callers .empty) with
        | .ok _ _ => true
        | .error _ _ => false
      | .error _ _ => false) = true := by
    decide +kernel
  have bytes : setter.utf8ByteSize + 3 = 25 := by decide +kernel
  have lines : setter.toList.count '\n' + 2 = 3 := by decide +kernel
  cases run : program (.ofString setter .empty) with
  | error failure after => simp [run] at readable
  | ok tree after =>
    cases run' : program (.ofString callers .empty) with
    | error failure after => simp [run, run'] at readable
    | ok tree' after' =>
      have joined := program_append setter callers .empty run run'
      rw [bytes, lines] at joined
      exact ⟨tree, tree', after, after', rfl, rfl, joined⟩

end Parser

end NewtonScript
