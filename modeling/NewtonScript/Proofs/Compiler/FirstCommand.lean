import NewtonScript.Proofs.Compiler.Termination
import NewtonScript.Proofs.Names.Compiled
import NewtonScript.Proofs.Reading.Programs

/-!
# What follows a command

A command is compiled alike when a semicolon and more text follow it, whatever
is wrong with that text, as long as its first word can be read and does not
close a sequence: such a word absorbs the semicolon.

No more than that word is read before the command is compiled.  The words in
front of the semicolon end an operand, so that none of them is a separator that
had the semicolon read ahead.
-/

namespace NewtonScript

variable {token : Token}

/-! ## Reading -/

theorem TokenStream.akin_of_next {stream after : TokenStream}
    (run : next stream = .ok token after) : stream.store.Akin after.store := by
  have interning : ∀ store spelling, stream.store.Akin store →
      stream.store.Akin (store.intern spelling).2 :=
    fun store spelling akin => akin.trans (store.akin_intern spelling)
  have kept := preserves_next interning stream (.refl stream.store)
  rw [run] at kept
  exact kept.1

/-! ## Reading ahead -/

theorem Lexeme.isSeparator_iff {word : Lexeme} : word.isSeparator = true ↔
    word = .punctuation .semicolon ∨ word = .punctuation .comma := by
  cases word with
  | punctuation mark => cases mark <;> simp [isSeparator]
  | _ => simp [isSeparator]

theorem Lexeme.isSeparator_of_closesSequence {word : Lexeme}
    (closes : word.closesSequence = true) : word.isSeparator = false := by
  refine eq_false_of_ne_true fun separates => ?_
  rcases isSeparator_iff.mp separates with rfl | rfl <;> cases closes

/-- A stream that has given such words has read one word more behind a separator,
and only there.  Behind separators in a row it may have done so or not. -/
structure TokenStream.ReadAhead (words : List Lexeme) (stream : TokenStream) : Prop where
  separates : stream.pending ≠ none → ∃ front word, words = front ++ [word] ∧
    word.isSeparator = true
  reads : ∀ front word last, words = front ++ [word] ++ [last] → word.isSeparator = false →
    last.isSeparator = true → stream.pending ≠ none

theorem TokenStream.ReadAhead.next {words : List Lexeme} {stream after : TokenStream}
    (ahead : ReadAhead words stream) (run : next stream = .ok token after) :
    ReadAhead (words ++ [token.lexeme]) after := by
  constructor
  · intro present
    refine ⟨words, token.lexeme, rfl, ?_⟩
    cases yields_of_next run with
    | separator _ _ interned separates => exact interned.lexeme.isSeparator_eq.trans separates
    | _ => exact absurd rfl present
  · intro front word last equal plain separates absent
    obtain ⟨rfl, ⟨⟩⟩ := List.append_inj' equal rfl
    cases yields_of_next run with
    | pending present =>
      obtain ⟨_, _, equal, separates'⟩ := ahead.separates (by rw [present]; nofun)
      rw [(List.cons.inj (List.append_inj' equal rfl).2).1, separates'] at plain
      cases plain
    | word _ _ interned plain' =>
      rw [interned.lexeme.isSeparator_eq, plain'] at separates
      cases separates
    | separator => cases absent
    | absorbed _ _ _ _ interned dropped =>
      have closes := interned.lexeme.closesSequence_eq.trans (closesSequence_of_absorbedBy dropped)
      rw [Lexeme.isSeparator_of_closesSequence closes] at separates
      cases separates

/-- The words that a parser has been given behind those that it consumed. -/
def Parser.held (parser : Parser) : List Lexeme :=
  parser.current.lexeme :: (parser.lookahead.map Token.lexeme).toList

theorem Parser.Trail.readAhead {start parser : Parser} {row : List Lexeme}
    (trail : Trail start row parser) (ahead : start.tokens.ReadAhead start.held) :
    parser.tokens.ReadAhead (row ++ parser.held) := by
  induction trail with
  | here => exact ahead
  | @took row parser after token _ run ih =>
    obtain ⟨-, _, _, took, rfl⟩ := advance_eq_ok run
    rcases takeNext_eq_ok took with ⟨present, rfl⟩ | ⟨absent, _, read, rfl⟩
    · simpa [held, present] using ih
    · simpa [held, absent] using ih.next read
  | @looked row parser after word _ run ih =>
    obtain ⟨_, _, took, ⟨⟩⟩ := run_bind_eq_ok run
    rcases takeNext_eq_ok took with ⟨present, rfl⟩ | ⟨absent, _, read, rfl⟩
    · simpa [held, present] using ih
    · simpa [held, absent] using ih.next read
  | aside _ _ _ _ ih => exact ⟨ih.separates, ih.reads⟩

/-- No separator ends an operand. -/
theorem Phase.not_closed_of_separator {phase : Phase} {word here : Lexeme}
    (separates : word.isSeparator = true) : ¬Parser.Walk.Closed (phase.next word) here := by
  rcases Lexeme.isSeparator_iff.mp separates with rfl | rfl <;>
    cases phase <;> rintro (⟨⟨⟩⟩ | ⟨⟨⟩⟩ | ⟨⟨⟩, -⟩)

theorem Parser.Walk.Closed.exists_last {row : List Lexeme} {here : Lexeme}
    (closed : Closed (.behind row) here) :
    ∃ front word, row = front ++ [word] ∧ word.isSeparator = false := by
  rcases List.eq_nil_or_concat' row with rfl | ⟨front, word, rfl⟩
  · rcases closed with ⟨⟨⟩⟩ | ⟨⟨⟩⟩ | ⟨⟨⟩, -⟩
  · refine ⟨front, word, rfl, eq_false_of_ne_true fun separates => ?_⟩
    rw [Phase.behind_snoc] at closed
    exact Phase.not_closed_of_separator separates closed

/-- The first command of a text ends where the word behind a semicolon has been
read. -/
theorem Parser.pending_of_command {text : String} {store : Store} {begun start after : Parser}
    {command : Node} (primed : prime (.ofString text store) = .ok () begun)
    (skipped : bounded skipSemicolons begun = .ok () start) (live : start.current.lexeme ≠ .eof)
    (parsed : bounded expression start = .ok command after)
    (semicolon : after.current.lexeme = .punctuation .semicolon) (absent : after.lookahead = none) :
    ∃ token, after.tokens.pending = some token := by
  obtain ⟨row, trail, closed⟩ := closed_of_command (started_of_prime primed) skipped live parsed
  obtain ⟨token, tokens, read⟩ := next_of_prime primed
  cases (prime_of_next read).symm.trans primed
  have fresh : (TokenStream.ofString text store).ReadAhead [] :=
    ⟨fun present => absurd rfl present, fun front _ _ equal => by simp at equal⟩
  have ahead := trail.readAhead (fresh.next read)
  obtain ⟨front, word, rfl, plain⟩ := closed.exists_last
  simp only [held, semicolon, absent] at ahead
  exact Option.ne_none_iff_exists'.mp (ahead.reads front word _ rfl plain rfl)

namespace Pairing

/-- A text and one that goes on behind it, read from stores that differ only in
the spellings of names. -/
def followed (finish : Cursor) (tail : List Char) (limit : Nat) {room room' : Nat}
    (roomy : room ≤ room') (opens : (finish.behindJoint tail).Opens) : Pairing :=
  { joint finish tail limit roomy opens with
    view := .names Symbol.normal
    Stores := Store.Akin
    next := by
      rintro first second ⟨streams, stores⟩
      cases run : TokenStream.next first with
      | ok token after =>
        obtain ⟨token', after', run', found⟩ := streams.next opens run
        refine fun _ => ⟨token', after', run', ?_, (TokenStream.akin_of_next run).symm.trans
          (stores.trans (TokenStream.akin_of_next run'))⟩
        cases found with
        | same same streams => exact .same ⟨same.lexeme, same.span, same.ends⟩ streams
        | ended eof semicolon ended => exact .ended eof semicolon ended
      | error failure after => exact False.elim
    intern spelling akin := Store.Akin.internNormal akin spelling
    newObject := @Store.Akin.sameObject
    outOfRange := fun _ _ => trivial
    unexpected := fun _ _ _ => trivial }

variable {finish : Cursor} {tail : List Char} {limit room room' n : Nat} {roomy : room ≤ room'}
  {opens : (finish.behindJoint tail).Opens}

/-- Where the first text ends, the semicolon ends the command in the longer one:
the word behind it has been read. -/
theorem Tied.commandEnd_of_eof {first second : Parser}
    (tied : (followed finish tail limit roomy opens).Tied n first second)
    (eof : first.current.lexeme = .eof)
    (ahead : second.current.lexeme = .punctuation .semicolon → second.lookahead = none →
      ∃ token, second.tokens.pending = some token) (command : Node) :
    ∃ after, Parser.commandEnd command second = .ok (some command) after ∧
      first.tokens.store.Akin after.tokens.store := by
  cases tied.position with
  | reading current _ => exact False.elim (current.ends eof)
  | ended _ semicolon absent _ =>
    obtain ⟨token, present⟩ := ahead semicolon absent
    have accepted : Parser.accept (.punctuation .semicolon) second = .ok true _ :=
      Parser.accept_of_next (by rw [semicolon]; rfl) absent (TokenStream.next_of_pending present)
    exact ⟨_, run_bind_of_ok accepted _, tied.stores⟩

/-- The first command of a text is read alike when a semicolon and more
follow. -/
theorem Stands.nextCommand {text : String} {store : Store} {first after : Parser} {command : Node}
    (stands : (followed finish tail limit roomy opens).Stands n first (.ofString text store))
    (short : n < limit) (run : Parser.nextCommand first = .ok (some command) after) :
    ∃ command' after', Parser.nextCommand (.ofString text store) = .ok (some command') after' ∧
      Matches (.names Symbol.normal) command command' ∧
        after.tokens.store.Akin after'.tokens.store := by
  obtain ⟨_, begun, primed, rest⟩ := run_bind_eq_ok run
  obtain ⟨_, begun', primed', tied⟩ := agree_prime.of_ok stands primed trivial
  obtain ⟨_, start, skipped, rest⟩ := run_bind_eq_ok rest
  have bounds : begun.bound + 0 ≤ begun'.bound := by
    rw [tied.bound, tied.bound']
    exact roomy
  obtain ⟨m, left, last, less, more, skips, tied', different⟩ := tied.skip id short skipped bounds
  have live : start.current.lexeme ≠ .eof := by
    intro eof
    cases (Parser.commandTail_of_eof eof).symm.trans rest
  obtain ⟨left, rfl⟩ := Nat.exists_eq_add_of_lt more
  have skipped' := Parser.skipSemicolons_of_ne
    (((tied'.reading live).1.lexeme.beq_eq rfl).trans different) (0 + left)
  have live' := (tied'.reading live).1.lexeme.eq_eof_iff.not.mpr live
  obtain ⟨k, parsed, parsed', middle, middle', fewer, ended, reads, tail', alike, linked⟩ :=
    (tied'.withExpected False.elim).commandUpTo (show m < limit by omega) live rest
  have next : Parser.nextCommand (.ofString text store) = Parser.commandEnd parsed' middle' := by
    rw [Parser.nextCommand, run_bind_of_ok primed', ← tail']
    exact run_bind_of_ok (skips.trans skipped') _
  rw [next]
  by_cases eof : middle.current.lexeme = .eof
  · obtain ⟨expected, ended'⟩ := Parser.commandEnd_of_eof eof parsed
    cases ended'.symm.trans ended
    obtain ⟨after', ended'', stores⟩ := linked.toTied.commandEnd_of_eof eof
      (Parser.pending_of_command primed' (skips.trans skipped') live' reads) parsed'
    exact ⟨parsed', after', ended'', alike, stores⟩
  · obtain ⟨⟨⟩, j, after', _, ended', tied''⟩ := linked.commandEnd eof ended
    exact ⟨parsed', after', ended', alike, tied''.stores⟩

end Pairing

namespace Compiler

section

variable {text : String} {store : Store} {options : Options} {parser : Parser}

end

end Compiler

end NewtonScript
