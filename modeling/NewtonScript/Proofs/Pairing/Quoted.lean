import NewtonScript.Proofs.Pairing.Readers

/-!
# Quoted objects of paired parsers

Literals, names with a class or a type in front of them, and quoted objects
are read alike by paired parsers.
-/

namespace NewtonScript.Pairing

open NewtonScript.Parser

variable {pairing : Pairing} {n : Nat}

/-- A number that is too large is refused at the same place. -/
theorem agree_checkRange {related : Parser → Parser → Prop} (literal : Literal)
    (ready : ∀ first second, related first second → ∃ k, pairing.Ready k first second) :
    Agree pairing.terms related (checkRange literal) (checkRange literal)
      fun _ _ first second => related first second := by
  cases literal with
  | integer number =>
    unfold checkRange
    dsimp only
    split
    · intro first second holds exact
      obtain ⟨k, given⟩ := ready first second holds
      refine ⟨⟨.integerOutOfRange (toString number), second.current.span⟩, second, rfl, ?_,
        fun _ => ⟨k, given⟩⟩
      rw [(given.same_of_exact exact).span]
      exact pairing.outOfRange _ _
    · exact agree_pure fun _ _ => id
  | _ => exact agree_pure fun _ _ => id

theorem reads_literalValue (literal : Literal) :
    pairing.Reads n (literalValue literal) (literalValue literal) := by
  cases literal with
  | string text => exact reads_makeString text
  | _ => exact agree_return rfl

/-- Behind a name that is consumed stands the word that was seen there. -/
theorem agree_identifier_before (lexeme : Lexeme) : Agree pairing.terms
    (fun first second => pairing.Linked n first second ∧
      ∃ token, first.lookahead = some token ∧ token.lexeme = lexeme)
    identifier identifier fun name name' first second =>
      pairing.Gives n name name' first second ∧ first.current.lexeme = lexeme := by
  rintro first second ⟨linked, token, present, looking⟩
  have outcome := reads_identifier first second linked
  cases run : identifier first with
  | ok name after =>
    rw [run] at outcome
    obtain ⟨name', after', run', given⟩ := outcome trivial
    refine fun _ => ⟨name', after', run', given, ?_⟩
    rw [current_of_identifier present run, looking]
  | error failure after =>
    rw [run] at outcome
    exact outcome

/-- Names are looked for in front of another word. -/
theorem agree_peeking {α : Type} [Visible α] {next next' : Lexeme → ParseM α} {none none' : α}
    (without : Matches pairing.view none none')
    (behind : ∀ lexeme lexeme', pairing.Sees lexeme lexeme' →
      Agree pairing.terms (fun first second => pairing.Linked n first second ∧
        ∃ token, first.lookahead = some token ∧ token.lexeme = lexeme)
        (next lexeme) (next' lexeme') (pairing.Gives n)) :
    pairing.Reads n (do if ← atIdentifier then next (← peekLexeme) else return none)
      (do if ← atIdentifier then next' (← peekLexeme) else return none') := by
  refine agree_atIdentifier.bindSame fun found => ?_
  cases found with
  | false => exact (agree_return without).of_related fun _ _ holds => holds.1
  | true =>
    refine (agree_peekLexeme.of_related fun _ _ holds => ⟨holds.1, holds.2 rfl⟩).bind
      fun lexeme lexeme' => ?_
    refine AgreeWhere.of_fact (fun _ _ holds => holds.1) fun sees => ?_
    exact (behind lexeme lexeme' sees).of_related fun _ _ holds => holds.2

theorem reads_className? : pairing.Reads n className? className? := by
  refine agree_short fun short => ?_
  refine agree_peeking Matches.nothing fun lexeme lexeme' sees => ?_
  have without : Agree pairing.terms (fun first second => pairing.Linked n first second ∧
      ∃ token, first.lookahead = some token ∧ token.lexeme = lexeme)
      (pure none : ParseM (Option Symbol)) (pure none) (pairing.Gives n) :=
    (agree_return Matches.nothing).of_related fun _ _ holds => holds.1
  cases sees with
  | ended => exact without
  | same same =>
    cases same with
    | name => exact without
    | word =>
      split
      · refine (agree_identifier_before (.operator .colon)).bind fun name name' => ?_
        refine AgreeWhere.of_fact (fun _ _ holds => holds.1.same) fun named => ?_
        refine agree_behind short (fun _ _ holds =>
          Linked.live_of_lexeme ⟨holds.1.linked, holds.2⟩ nofun) fun m less => ?_
        exact agree_return named.some
      · exact without

theorem reads_annotation? : pairing.Reads n annotation? annotation? := by
  refine agree_peeking Matches.nothing fun lexeme lexeme' sees => ?_
  refine AgreeWhere.of_related ?_ fun _ _ holds => holds.1
  cases sees with
  | ended => exact agree_return Matches.nothing
  | same same =>
    cases same with
    | name =>
      refine reads_identifier.gives fun name name' named => ?_
      exact agree_return named.some
    | word noName =>
      cases lexeme with
      | identifier => cases noName
      | _ => exact agree_return Matches.nothing

theorem takes_slotName : pairing.Takes n slotName slotName := by
  refine takes_identifier.spends fun m less name name' named => ?_
  refine (reads_consume rfl).gives fun _ _ _ => ?_
  exact agree_pure fun _ _ linked => ⟨named, m, less, linked⟩

theorem reads_negativeNumber : pairing.Reads n negativeNumber negativeNumber := by
  refine agree_short fun short => ?_
  refine agree_seeing (fun _ _ linked => linked.sees) fun lexeme lexeme' sees => ?_
  cases sees with
  | ended => exact agree_unexpectedFor _ fun _ _ holds => ⟨n, holds.1.ready⟩
  | same same =>
    cases same with
    | name => exact agree_unexpectedFor _ fun _ _ holds => ⟨n, holds.1.ready⟩
    | word =>
      split
      · refine agree_behind short (fun _ _ holds => Linked.live_of_lexeme holds nofun)
          fun m less => ?_
        exact agree_return rfl
      · refine agree_behind short (fun _ _ holds => Linked.live_of_lexeme holds nofun)
          fun m less => ?_
        exact agree_return rfl
      · exact agree_unexpectedFor _ fun _ _ holds => ⟨n, holds.1.ready⟩

section

variable {object object' : ParseM Value}

theorem reads_quotedArray (inner : pairing.Inner n object object') :
    pairing.Reads n (quotedArray object) (quotedArray object') := by
  refine reads_className?.gives fun className className' named => ?_
  refine (reads_listUntil inner rfl).gives fun elements elements' same => ?_
  cases className with
  | none =>
    cases className' with
    | none => exact (reads_intern _).gives fun name name' named => reads_makeArray named same
    | some => cases named
  | some name =>
    cases className' with
    | none => cases named
    | some name' => exact reads_makeArray (Option.some.inj named) same

theorem reads_quotedFrame (inner : pairing.Inner n object object') :
    pairing.Reads n (quotedFrame object) (quotedFrame object') := by
  have slot : pairing.Inner n (do let name ← slotName; return (name, ← object))
      (do let name ← slotName; return (name, ← object')) := by
    refine ⟨fun m le => ?_, (refusesAt_identifier.bind _).bind _⟩
    refine takes_slotName.spends fun k less name name' named => ?_
    refine (inner.lower (show k ≤ n by omega)).reads.gives fun value value' same => ?_
    exact agree_pure fun _ _ linked => ⟨named.pair same, k, less, linked⟩
  exact (reads_listUntil slot rfl).gives fun slots slots' same => reads_makeFrame same

end

theorem refusesAt_quoted (depth : Nat) : RefusesAt .eof (quoted depth) := by
  cases depth with
  | zero => exact refusesAt_unexpectedFor _ _
  | succ depth => exact .seeing (refusesAt_unexpectedFor _ _)

theorem parses_quoted {depth depth' : Nat} (room : pairing.Room n depth depth') :
    pairing.Parses n (quoted depth) (quoted depth') := by
  induction room with
  | none loose => exact agree_of_exhausted loose (by rintro _ _ _ ⟨⟩)
  | @more n depth depth' _ ih =>
    have inner : ∀ m, m < n → pairing.Inner m (quoted depth) (quoted depth') :=
      fun m less => ⟨fun k le => Parses.takes (ih k (by omega)), refusesAt_quoted depth⟩
    refine agree_seeing (fun _ _ ready => ready.sees) fun lexeme lexeme' sees => ?_
    have refused : Agree pairing.terms (fun first second => pairing.Ready n first second ∧
        first.current.lexeme = lexeme) (unexpectedFor .literal : ParseM Value)
        (unexpectedFor .literal) (pairing.Spends n) :=
      agree_unexpectedFor _ fun _ _ holds => ⟨n, holds.1⟩
    have begins : lexeme ≠ .eof → ∀ {next next' : ParseM Value},
        (∀ m, m < n → pairing.Reads m next next') →
        Agree pairing.terms (fun first second => pairing.Ready n first second ∧
          first.current.lexeme = lexeme) (do let _ ← advance; next)
          (do let _ ← advance; next') (pairing.Spends n) :=
      fun word _ _ behind => (begins_of_advance behind).of_related
        fun _ _ holds => holds.1.live_of_lexeme holds.2 word
    cases sees with
    | ended => exact refused
    | same same =>
      cases same with
      | name named =>
        exact begins nofun fun m less => agree_return (pairing.view.symbol named)
      | word noName =>
        split
        · cases noName
        · refine begins nofun fun m less => ?_
          refine (reads_intern _).gives fun name name' named => ?_
          exact agree_return (pairing.view.symbol named.symbol)
        · refine (agree_checkRange _ fun _ _ holds => ⟨n, holds.1⟩).bind fun _ _ => ?_
          exact begins nofun fun m less => reads_literalValue _
        · exact begins nofun fun m less => (inner m less).reads
        · exact begins nofun fun m less => reads_negativeNumber
        · exact begins nofun fun m less => reads_quotedArray (inner m less)
        · exact begins nofun fun m less => reads_quotedFrame (inner m less)
        · exact refused

end NewtonScript.Pairing
