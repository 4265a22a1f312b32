import NewtonScript.Proofs.Pairing.Expressions

/-!
# Commands of paired parsers

Commands are read alike, from the first token on and behind failures.  Every
command and every failure leaves less of the text, so that paired parsers can
be followed to the end of their texts.
-/

namespace NewtonScript

namespace Parser

/-- The next command, once the first token of the text was read. -/
def commandHere : ParseM (Option Node) := do
  bounded skipSemicolons
  commandTail

theorem nextCommand_eq : nextCommand = (do prime; commandHere) := rfl

theorem prime_of_ok {parser : Parser} (unstarted : parser.started = false) {token : Token}
    {tokens : TokenStream} (read : TokenStream.next parser.tokens = .ok token tokens) :
    prime parser = .ok () { parser with tokens, current := token, started := true } := by
  change (if !parser.started then _ else pure () : ParseM Unit) parser = _
  rw [unstarted]
  change EStateM.bind readToken _ parser = _
  simp only [EStateM.bind, readToken, read]
  rfl

theorem prime_of_error {parser : Parser} (unstarted : parser.started = false) {failure : Failure}
    {tokens : TokenStream} (read : TokenStream.next parser.tokens = .error failure tokens) :
    prime parser = .error failure { parser with tokens } := by
  change (if !parser.started then _ else pure () : ParseM Unit) parser = _
  rw [unstarted]
  change EStateM.bind readToken _ parser = _
  simp only [EStateM.bind, readToken, read, unstarted]

theorem skipSemicolons_of_eof {parser : Parser} (eof : parser.current.lexeme = .eof) (bound : Nat) :
    skipSemicolons (bound + 1) parser = .ok ()
      { parser with expected := expecting (.word (.punctuation .semicolon)) parser.expected } :=
  skipSemicolons_of_ne (by rw [eof]; rfl) bound

/-- There is no command at the end. -/
theorem commandHere_of_eof {parser : Parser} (eof : parser.current.lexeme = .eof)
    (room : 0 < parser.bound) : commandHere parser = .ok none
      { parser with expected := expecting (.word (.punctuation .semicolon)) parser.expected } := by
  have skipped := skipSemicolons_of_eof eof (parser.bound - 1)
  rw [Nat.sub_add_cancel room] at skipped
  rw [commandHere, run_bind_of_ok (show bounded skipSemicolons parser = _ from skipped)]
  exact commandTail_of_eof eof

section

variable {parser : Parser}

theorem synchronizeWithin_of_eof (started : parser.started = true)
    (eof : parser.current.lexeme = .eof) (bound : Nat) :
    synchronizeWithin bound parser = parser := by
  cases bound with
  | zero => rfl
  | succ bound => simp only [synchronizeWithin, started, eof, if_true]

theorem synchronizeWithin_of_semicolon (started : parser.started = true)
    (semicolon : parser.current.lexeme = .punctuation .semicolon) (bound : Nat) :
    synchronizeWithin (bound + 1) parser = after advance parser := by
  simp only [synchronizeWithin, started, semicolon, if_true]

theorem synchronizeWithin_of_ne (started : parser.started = true)
    (word : parser.current.lexeme ≠ .eof)
    (other : parser.current.lexeme ≠ .punctuation .semicolon) (bound : Nat) :
    synchronizeWithin (bound + 1) parser = synchronizeWithin bound (after advance parser) := by
  simp only [synchronizeWithin, started, if_true]

theorem synchronizeWithin_of_unstarted (unstarted : parser.started = false) (bound : Nat) :
    synchronizeWithin (bound + 1) parser = synchronizeWithin bound (after prime parser) := by
  simp [synchronizeWithin, unstarted]

theorem after_of_ok {α : Type} {action : ParseM α} {value : α} {next : Parser}
    (run : action parser = .ok value next) : after action parser = next := by
  rw [after, run]

theorem after_of_error {α : Type} {action : ParseM α} {failure : Failure} {next : Parser}
    (run : action parser = .error failure next) : after action parser = next := by
  rw [after, run]

end

end Parser

namespace Pairing

open NewtonScript.Parser

variable {pairing : Pairing} {n m : Nat} {first second : Parser}

/-! ## Limits -/

/-- The same pairing for what is left of the texts. -/
def within (pairing : Pairing) (n : Nat) (le : n ≤ pairing.limit) : Pairing :=
  { pairing with
    limit := n
    enough := fun exact => Nat.lt_of_le_of_lt le (pairing.enough exact) }

theorem Ahead.relimit {other : Pairing} (ahead : pairing.Ahead first second)
    (finds : ∀ token token', pairing.Finds token token' first.tokens second.tokens →
      other.Finds token token' first.tokens second.tokens)
    (streams : pairing.Streams first.tokens second.tokens →
      other.Streams first.tokens second.tokens) : other.Ahead first second := by
  cases ahead with
  | unread absent absent' given => exact .unread absent absent' (streams given)
  | read present present' found => exact .read present present' (finds _ _ found)

/-- Positions do not depend on the limit. -/
theorem Position.into (position : pairing.Position first second) {le : n ≤ pairing.limit} :
    (pairing.within n le).Position first second := by
  cases position with
  | reading current ahead =>
    exact .reading current (ahead.relimit (fun _ _ => id) id)
  | ended eof semicolon absent' ended => exact .ended eof semicolon absent' ended

theorem Position.outOf {le : n ≤ pairing.limit}
    (position : (pairing.within n le).Position first second) : pairing.Position first second := by
  cases position with
  | reading current ahead => exact .reading current (ahead.relimit (fun _ _ => id) id)
  | ended eof semicolon absent' ended => exact .ended eof semicolon absent' ended

theorem Tied.into (tied : pairing.Tied m first second) {le : n ≤ pairing.limit} :
    (pairing.within n le).Tied m first second :=
  ⟨tied.weight, tied.bound, tied.bound', tied.functions, tied.started, tied.previous,
    tied.expected, tied.stores, tied.position.into⟩

theorem Tied.outOf {le : n ≤ pairing.limit} (tied : (pairing.within n le).Tied m first second) :
    pairing.Tied m first second :=
  ⟨tied.weight, tied.bound, tied.bound', tied.functions, tied.started, tied.previous,
    tied.expected, tied.stores, tied.position.outOf⟩

/-! ## The first token -/

/-- Two parsers in front of their first tokens. -/
structure Fresh (pairing : Pairing) (n : Nat) (first second : Parser) : Prop where
  weight : first.weight ≤ n
  bound : first.bound = pairing.room
  bound' : second.bound = pairing.room'
  functions : second.functions = pairing.view.function first.functions
  unstarted : first.started = false ∧ second.started = false
  previous : pairing.exact → second.previous = pairing.view.span first.previous
  expected : pairing.exact → second.expected = first.expected
  stores : pairing.Stores first.tokens.store second.tokens.store
  absent : first.lookahead = none
  absent' : second.lookahead = none
  streams : pairing.Streams first.tokens second.tokens

/-- Two parsers that are paired, in front of their first tokens or behind. -/
inductive Stands (pairing : Pairing) (n : Nat) (first second : Parser) : Prop where
  | fresh (fresh : pairing.Fresh n first second)
  | begun (tied : pairing.Tied n first second)

/-- Paired parsers behind a failure: something was read, or there is a word
that can be skipped. -/
def Behind (pairing : Pairing) (n : Nat) (first second : Parser) : Prop :=
  ∃ m, m ≤ n ∧ pairing.Stands m first second ∧
    (m < n ∨ first.started = true ∧ first.current.lexeme ≠ .eof)

/-- Failures of commands go together, and less is left behind them. -/
def commandTerms (pairing : Pairing) (n : Nat) : Terms Failure Parser where
  exact := pairing.exact
  failed failure failure' first second :=
    pairing.Failures failure failure' ∧ (pairing.resumes → pairing.Behind n first second)

theorem agree_prime : Agree (pairing.commandTerms n) (pairing.Stands n) prime prime
    fun _ _ first second => pairing.Tied n first second := by
  intro first second stands
  cases stands with
  | begun tied =>
    rw [prime_of_started tied.started.1]
    exact fun _ => ⟨(), second, prime_of_started tied.started.2, tied⟩
  | fresh fresh =>
    obtain ⟨unstarted, unstarted'⟩ := fresh.unstarted
    have outcome := pairing.next first.tokens second.tokens ⟨fresh.streams, fresh.stores⟩
    have light := fresh.weight
    simp only [Parser.weight, Parser.ahead, fresh.absent, Option.map_none,
      Option.getD_none] at light
    cases read : TokenStream.next first.tokens with
    | ok token tokens =>
      rw [read] at outcome
      obtain ⟨token', tokens', read', found, stores⟩ := outcome trivial
      have spent := TokenStream.next_ok_spends read
      rw [prime_of_ok unstarted read]
      refine fun _ => ⟨(), _, prime_of_ok unstarted' read', ?_, fresh.bound,
        fresh.bound', fresh.functions, ⟨rfl, rfl⟩, fresh.previous, fresh.expected, stores,
        position_of_found found fresh.absent fresh.absent'⟩
      simp only [Parser.weight, Parser.ahead, fresh.absent, Option.map_none, Option.getD_none]
      omega
    | error failure tokens =>
      rw [read] at outcome
      rw [prime_of_error unstarted read]
      intro exact
      obtain ⟨failure', tokens', read', failures, behind⟩ := outcome exact
      have spent := (TokenStream.next_error_spends read).1
      refine ⟨failure', _, prime_of_error unstarted' read', failures, fun resumes => ?_⟩
      obtain ⟨streams, stores⟩ := behind resumes
      refine ⟨n - 1, Nat.sub_le n 1, .fresh ⟨?_, fresh.bound, fresh.bound', fresh.functions,
        fresh.unstarted, fresh.previous, fresh.expected, stores, fresh.absent, fresh.absent',
          streams⟩, .inl (by omega)⟩
      simp only [Parser.weight, Parser.ahead, fresh.absent, Option.map_none, Option.getD_none]
      omega

/-! ## Commands -/

/-- Semicolons are skipped alike. -/
theorem inside_skipSemicolons {bound bound' : Nat} (room : pairing.Room n bound bound') :
    AgreeWhere pairing.terms pairing.Inside (pairing.Ready n) (skipSemicolons bound)
      (skipSemicolons bound') fun _ _ first second =>
        ∃ m, m ≤ n ∧ pairing.Ready m first second := by
  induction room with
  | none loose => exact fun _ _ _ exact => absurd exact loose
  | @more n _ _ _ ih =>
    intro first second ready
    rcases ready.semicolon_or_ended with alike | ⟨loose, eof⟩
    · refine AgreeWhere.bindSame (agree_accept steady_ready (.punctuation .semicolon) rfl nofun)
        (fun another => ?_) first second ⟨ready, alike⟩
      cases another with
      | false => exact agree_pure fun _ _ holds => ⟨n, Nat.le_refl n, holds⟩
      | true =>
        rintro first second ⟨fewer, linked⟩
        refine (ih (n - 1) fewer).weaken ?_ first second linked.ready
        rintro _ _ _ _ ⟨m, le, given⟩
        exact ⟨m, by omega, given⟩
    · rw [skipSemicolons_of_eof eof]
      exact fun inside => absurd eof (inside.resolve_left loose)

/-- What can be behind a command: its semicolon, or the end. -/
theorem reads_commandEnd (exact : pairing.exact) {command command' : Node}
    (same : Matches pairing.view command command') :
    pairing.Reads n (commandEnd command) (commandEnd command') := by
  refine agree_short fun short => ?_
  refine ((agree_accept steady_linked (.punctuation .semicolon) rfl nofun).of_related
    fun _ _ linked => ⟨linked, (linked.same_of_exact exact).lexeme.beq_eq rfl⟩).bindSame
      fun found => ?_
  cases found with
  | true =>
    exact agree_pure fun _ _ holds => ⟨same.some, holds.2.mono (Nat.sub_le n 1) short⟩
  | false =>
    refine ((agree_check steady_linked rfl).of_related fun _ _ holds => ⟨holds,
      (holds.same_of_exact exact).lexeme.beq_eq rfl⟩).bindSame fun ended => ?_
    cases ended with
    | true => exact agree_pure fun _ _ holds => ⟨same.some, holds.1⟩
    | false => exact agree_unexpected fun _ _ holds => ⟨n, holds.1.ready⟩

theorem parses_command : pairing.Parses n (bounded expression)
    (bounded expression) :=
  agree_bounded (fun _ _ ready => ready) fun _ _ => parses_expression

/-- The same command was found, or none, and less is left behind one. -/
def Finished (pairing : Pairing) (n : Nat) (found found' : Option Node) (first second : Parser) :
    Prop :=
  Matches pairing.view found found' ∧
    ∃ m, m ≤ n ∧ (found.isSome = true → m < n) ∧ pairing.Tied m first second

/-- Behind semicolons, commands are read alike. -/
theorem agree_commandTail (exact : pairing.exact) :
    Agree pairing.terms (pairing.Ready n) commandTail commandTail (pairing.Finished n) := by
  intro first second ready
  have same := (ready.same_of_exact exact).lexeme
  by_cases eof : first.current.lexeme = .eof
  · rw [commandTail_of_eof eof, commandTail_of_eof (same.eq_eof_iff.2 eof)]
    exact fun _ => ⟨none, second, rfl, Matches.nothing, n, Nat.le_refl n, nofun, ready.toTied⟩
  · rw [commandTail_of_ne eof, commandTail_of_ne fun equal => eof (same.eq_eof_iff.1 equal)]
    have reads : pairing.Parses n (bounded expression >>= commandEnd)
        (bounded expression >>= commandEnd) := by
      refine parses_command.spends fun k less command command' same => ?_
      refine (reads_commandEnd exact same).weaken fun _ _ _ _ given => ?_
      exact ⟨given.same, k, less, given.linked⟩
    refine AgreeWhere.weaken reads ?_ first second ready
    rintro _ _ _ _ ⟨same, k, less, linked⟩
    exact ⟨same, k, Nat.le_of_lt less, fun _ => less, linked.toTied⟩

/-- Commands are read alike where there is a word. -/
theorem agree_commandHere_of_live (exact : pairing.exact) :
    Agree pairing.terms (pairing.Live n) commandHere commandHere (pairing.Finished n) := by
  refine AgreeWhere.bindWithin (agree_bounded (fun _ _ live => live.ready)
    fun _ _ room => (inside_skipSemicolons room).of_related fun _ _ live => live.ready)
      (fun given _ => .inl given) (fun _ _ _ _ _ _ => .inl exact) fun _ _ => ?_
  rintro first second ⟨m, le, ready⟩
  refine (agree_commandTail exact).weaken ?_ first second ready
  rintro _ _ _ _ ⟨same, k, less, some, tied⟩
  exact ⟨same, k, by omega, fun found => by have := some found; omega, tied⟩

theorem agree_commandHere (exact : pairing.exact) (le : n ≤ pairing.limit) :
    Agree (pairing.commandTerms n) (pairing.Tied n) commandHere commandHere
      (pairing.Finished n) := by
  intro first second tied
  by_cases eof : first.current.lexeme = .eof
  · have room := Nat.lt_of_le_of_lt (Nat.zero_le _) (pairing.enough exact)
    have room' := Nat.lt_of_lt_of_le room pairing.roomy
    rw [← tied.bound] at room
    rw [← tied.bound'] at room'
    have eof' := (tied.same_of_exact exact).lexeme.eq_eof_iff.2 eof
    rw [commandHere_of_eof eof room]
    refine fun _ => ⟨none, _, commandHere_of_eof eof' room', Matches.nothing, n,
      Nat.le_refl n, nofun, tied.withExpected fun exact => ?_⟩
    rw [tied.expected exact]
  · have agree : Agree (pairing.within n le).terms ((pairing.within n le).Live n)
        commandHere commandHere _ := agree_commandHere_of_live exact
    refine (agree.withTerms (pairing.commandTerms n) id ?_).weaken ?_ first second
      ⟨tied.into, Nat.le_refl n, eof⟩
    · rintro failure failure' first second ⟨failures, behind⟩
      refine ⟨failures, fun resumes => ?_⟩
      obtain ⟨m, ready⟩ := behind resumes
      refine ⟨m, ready.within, .begun ready.toTied.outOf, ?_⟩
      by_cases ended : first.current.lexeme = .eof
      · exact .inl (ready.spent ended)
      · exact .inr ⟨ready.started.1, ended⟩
    · rintro found found' first second ⟨same, m, less, some, tied⟩
      exact ⟨same, m, less, some, tied.outOf⟩

/-- Commands are read alike; less is left behind each of them. -/
theorem agree_nextCommand (exact : pairing.exact) (le : n ≤ pairing.limit) :
    Agree (pairing.commandTerms n) (pairing.Stands n) nextCommand nextCommand
      (pairing.Finished n) :=
  agree_prime.bind fun _ _ => agree_commandHere exact le

/-! ## Behind failures -/

/-- A step to the next token, failed or not, leaves paired parsers and less of
the text. -/
theorem Tied.after_advance (tied : pairing.Tied n first second) (exact : pairing.exact)
    (resumes : pairing.resumes) (le : n ≤ pairing.limit) (live : first.current.lexeme ≠ .eof) :
    pairing.Tied (n - 1) (Parser.after advance first)
      (Parser.after advance second) := by
  have outcome := agree_advance first second ⟨tied, le, live⟩
  cases run : advance first with
  | ok token next =>
    rw [run] at outcome
    obtain ⟨token', next', run', -, linked⟩ := outcome trivial
    rw [after_of_ok run, after_of_ok run']
    exact linked.toTied
  | error failure next =>
    rw [run] at outcome
    obtain ⟨failure', next', run', -, behind⟩ := outcome exact
    obtain ⟨m, ready⟩ := behind resumes
    rw [after_of_error run, after_of_error run']
    have spent := advance_error_spends run
    have light := tied.weight
    exact { ready.toTied with weight := by omega }

theorem Tied.synchronizeWithin (tied : pairing.Tied n first second) (exact : pairing.exact)
    (resumes : pairing.resumes) (le : n ≤ pairing.limit) {bound bound' : Nat} (enough : n ≤ bound)
    (within : bound ≤ bound') :
    ∃ m, m ≤ n ∧ (first.current.lexeme ≠ .eof → m < n) ∧
      pairing.Tied m (synchronizeWithin bound first)
        (synchronizeWithin bound' second) := by
  induction bound generalizing n bound' first second with
  | zero =>
    have eof : first.current.lexeme = .eof := by
      refine Classical.byContradiction fun live => ?_
      have pos := weight_pos live
      have light := tied.weight
      omega
    rw [synchronizeWithin_of_eof
      tied.started.2 ((tied.same_of_exact exact).lexeme.eq_eof_iff.2 eof)]
    exact ⟨n, Nat.le_refl n, fun live => absurd eof live, tied⟩
  | succ bound ih =>
    obtain ⟨bound', rfl⟩ := Nat.exists_eq_add_of_le' within
    have same := (tied.same_of_exact exact).lexeme
    by_cases eof : first.current.lexeme = .eof
    · rw [synchronizeWithin_of_eof tied.started.1 eof,
        synchronizeWithin_of_eof tied.started.2 (same.eq_eof_iff.2 eof)]
      exact ⟨n, Nat.le_refl n, fun live => absurd eof live, tied⟩
    · have pos : 0 < n := Nat.lt_of_lt_of_le (weight_pos eof) tied.weight
      have advanced := tied.after_advance exact resumes le eof
      have semicolons := same.beq_eq (rfl : (Lexeme.punctuation .semicolon).isName = false)
      rw [← Nat.add_assoc]
      by_cases semicolon : first.current.lexeme = .punctuation .semicolon
      · have semicolon' : second.current.lexeme = .punctuation .semicolon :=
          Lexeme.eq_of_beq_noName rfl (semicolons.trans (by rw [semicolon]; rfl))
        rw [synchronizeWithin_of_semicolon tied.started.1 semicolon,
          synchronizeWithin_of_semicolon tied.started.2 semicolon']
        exact ⟨n - 1, Nat.sub_le n 1, fun _ => by omega, advanced⟩
      · have eof' : second.current.lexeme ≠ .eof := fun equal => eof (same.eq_eof_iff.1 equal)
        have other : second.current.lexeme ≠ .punctuation .semicolon := by
          intro equal
          exact semicolon (Lexeme.eq_of_beq_noName rfl (semicolons.symm.trans (by rw [equal]; rfl)))
        rw [synchronizeWithin_of_ne tied.started.1 eof semicolon,
          synchronizeWithin_of_ne tied.started.2 eof' other]
        obtain ⟨m, less, -, after⟩ := ih advanced (by omega) (by omega)
          (Nat.le_add_left bound bound')
        exact ⟨m, by omega, fun _ => by omega, after⟩

/-- Paired parsers go on alike behind a failure. -/
theorem Stands.synchronizeWithin (stands : pairing.Stands n first second) (exact : pairing.exact)
    (resumes : pairing.resumes) (le : n ≤ pairing.limit) {bound bound' : Nat} (enough : n < bound)
    (within : bound ≤ bound') :
    ∃ m, m ≤ n ∧ (first.started = true ∧ first.current.lexeme ≠ .eof → m < n) ∧
      pairing.Stands m (synchronizeWithin bound first)
        (synchronizeWithin bound' second) := by
  induction bound generalizing n bound' first second with
  | zero => exact absurd enough (Nat.not_lt_zero n)
  | succ bound ih =>
    cases stands with
    | begun tied =>
      obtain ⟨m, less, strict, after⟩ :=
        tied.synchronizeWithin exact resumes le (Nat.le_of_lt enough) within
      exact ⟨m, less, fun live => strict live.2, .begun after⟩
    | fresh fresh =>
      obtain ⟨bound', rfl⟩ := Nat.exists_eq_add_of_le' within
      obtain ⟨unstarted, unstarted'⟩ := fresh.unstarted
      have never : ¬(first.started = true ∧ first.current.lexeme ≠ .eof) := by
        rw [unstarted]
        exact fun live => absurd live.1 Bool.false_ne_true
      rw [← Nat.add_assoc, synchronizeWithin_of_unstarted unstarted,
        synchronizeWithin_of_unstarted unstarted']
      have outcome := agree_prime first second (.fresh fresh)
      cases run : prime first with
      | ok value next =>
        rw [run] at outcome
        obtain ⟨value', next', run', tied⟩ := outcome trivial
        rw [after_of_ok run, after_of_ok run']
        obtain ⟨m, less, -, after⟩ := tied.synchronizeWithin exact resumes le
          (Nat.le_of_lt_succ enough) (Nat.le_add_left bound bound')
        exact ⟨m, less, fun live => absurd live never, .begun after⟩
      | error failure next =>
        rw [run] at outcome
        obtain ⟨failure', next', run', -, behind⟩ := outcome exact
        obtain ⟨m, less, stands, rest⟩ := behind resumes
        rw [after_of_error run, after_of_error run']
        have unread : next.started = false := by
          cases read : TokenStream.next first.tokens with
          | ok token tokens => rw [prime_of_ok unstarted read] at run; cases run
          | error failure tokens =>
            rw [prime_of_error unstarted read] at run
            cases run
            exact unstarted
        have fewer : m < n := rest.resolve_right fun live => by
          rw [unread] at live
          exact absurd live.1 Bool.false_ne_true
        obtain ⟨k, fewest, -, after⟩ := ih stands (by omega) (by omega)
          (Nat.le_add_left bound bound')
        exact ⟨k, by omega, fun live => absurd live never, after⟩

/-- Behind a failed command, less is left for paired parsers. -/
theorem Behind.synchronize (behind : pairing.Behind n first second) (exact : pairing.exact)
    (resumes : pairing.resumes) (le : n ≤ pairing.limit) :
    ∃ m, m < n ∧ pairing.Stands m first.synchronize second.synchronize := by
  obtain ⟨m, less, stands, rest⟩ := behind
  have bounds : first.bound = pairing.room ∧ second.bound = pairing.room' := by
    cases stands with
    | fresh fresh => exact ⟨fresh.bound, fresh.bound'⟩
    | begun tied => exact ⟨tied.bound, tied.bound'⟩
  have enough := pairing.enough exact
  rw [Parser.synchronize, Parser.synchronize, bounds.1, bounds.2]
  obtain ⟨k, fewer, strict, after⟩ :=
    stands.synchronizeWithin exact resumes (by omega) (by omega) pairing.roomy
  refine ⟨k, ?_, after⟩
  rcases rest with early | live
  · omega
  · have := strict live
    omega

end Pairing

end NewtonScript
