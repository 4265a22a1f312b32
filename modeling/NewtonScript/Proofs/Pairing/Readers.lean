import NewtonScript.Proofs.Pairing.Paired

/-!
# Readers side by side

Paired parsers that look for words, take names and build nodes do so alike.
What an action consumes is counted: an item of a list takes at least one
token, so that a list has room for all its items.
-/

namespace NewtonScript

namespace Pairing

open NewtonScript.Parser

variable {pairing : Pairing} {n m : Nat}

section

variable {α : Type} [Visible α]

/-- A matching result, behind which the parsers are paired. -/
structure Gives (pairing : Pairing) (n : Nat) (value value' : α) (first second : Parser) :
    Prop where
  same : Matches pairing.view value value'
  linked : pairing.Linked n first second

/-- A matching result, for which something was consumed. -/
structure Spends (pairing : Pairing) (n : Nat) (value value' : α) (first second : Parser) :
    Prop where
  same : Matches pairing.view value value'
  spent : ∃ m, m < n ∧ pairing.Linked m first second

/-- Actions that agree once something was consumed. -/
abbrev Reads (pairing : Pairing) (n : Nat) (action action' : ParseM α) : Prop :=
  Agree pairing.terms (pairing.Linked n) action action' (pairing.Gives n)

/-- Actions that agree and consume something, once something was consumed. -/
abbrev Takes (pairing : Pairing) (n : Nat) (action action' : ParseM α) : Prop :=
  Agree pairing.terms (pairing.Linked n) action action' (pairing.Spends n)

/-- Actions that agree and consume something. -/
abbrev Parses (pairing : Pairing) (n : Nat) (action action' : ParseM α) : Prop :=
  Agree pairing.terms (pairing.Ready n) action action' (pairing.Spends n)

/-- Actions that agree from a word on, which they consume. -/
abbrev Begins (pairing : Pairing) (n : Nat) (action action' : ParseM α) : Prop :=
  Agree pairing.terms (pairing.Live n) action action' (pairing.Spends n)

/-- Actions for the parts of what is read: they agree, consume something and
fail at the end. -/
structure Inner (pairing : Pairing) (n : Nat) (action action' : ParseM α) : Prop where
  takes : ∀ m, m ≤ n → pairing.Takes m action action'
  refuses : RefusesAt .eof action

theorem Inner.lower {action action' : ParseM α} (inner : pairing.Inner n action action')
    (le : m ≤ n) : pairing.Inner m action action' :=
  ⟨fun k within => inner.takes k (Nat.le_trans within le), inner.refuses⟩

theorem Parses.takes {action action' : ParseM α} (parses : pairing.Parses n action action') :
    pairing.Takes n action action' :=
  AgreeWhere.of_related parses fun _ _ linked => linked.ready

theorem Takes.reads {action action' : ParseM α} (takes : pairing.Takes n action action') :
    pairing.Reads n action action' := by
  refine AgreeWhere.of_fact (fun _ _ linked => linked.within) fun short => ?_
  refine AgreeWhere.weaken takes fun _ _ _ _ given => ?_
  obtain ⟨same, m, less, linked⟩ := given
  exact ⟨same, linked.mono (Nat.le_of_lt less) short⟩

theorem Inner.reads {action action' : ParseM α} (inner : pairing.Inner n action action') :
    pairing.Reads n action action' :=
  (inner.takes n (Nat.le_refl n)).reads

end

end Pairing

namespace AgreeWhere

open NewtonScript.Parser (ParseM)

variable {α β γ : Type} [Visible α] {pairing : Pairing} {n m : Nat}
  {related : Parser → Parser → Prop} {inside : Parser → Prop} {action action' : ParseM α}
  {next : α → ParseM β} {next' : α → ParseM γ} {final : β → γ → Parser → Parser → Prop}

/-- Behind matching results, the parsers are paired. -/
theorem gives (agree : Agree pairing.terms related action action' (pairing.Gives n))
    (behind : ∀ value value', Matches pairing.view value value' →
      AgreeWhere pairing.terms inside (pairing.Linked n) (next value) (next' value') final) :
    AgreeWhere pairing.terms inside related (action >>= next) (action' >>= next') final := by
  refine agree.bind fun value value' => ?_
  refine AgreeWhere.of_fact (fun _ _ given => given.same) fun same => ?_
  exact (behind value value' same).of_related fun _ _ given => given.linked

/-- Behind matching results for which something was consumed, less is left. -/
theorem spends (agree : Agree pairing.terms related action action' (pairing.Spends n))
    (behind : ∀ m, m < n → ∀ value value', Matches pairing.view value value' →
      AgreeWhere pairing.terms inside (pairing.Linked m) (next value) (next' value') final) :
    AgreeWhere pairing.terms inside related (action >>= next) (action' >>= next') final := by
  refine agree.bind fun value value' first second given => ?_
  obtain ⟨same, m, less, linked⟩ := given
  exact behind m less value value' same first second linked

end AgreeWhere

namespace Pairing

open NewtonScript.Parser

variable {lexeme : Lexeme} {pairing : Pairing} {n m : Nat}

section

variable {α : Type} [Visible α] {related : Parser → Parser → Prop} {inside : Parser → Prop}
  {action action' : ParseM α}

/-- Behind something consumed, less is left than at first. -/
theorem agree_short {β γ : Type} {action : ParseM β} {action' : ParseM γ}
    {result : β → γ → Parser → Parser → Prop}
    (agree : n < pairing.limit →
      AgreeWhere pairing.terms inside (pairing.Linked n) action action' result) :
    AgreeWhere pairing.terms inside (pairing.Linked n) action action' result :=
  AgreeWhere.of_fact (fun _ _ linked => linked.within) agree

/-- More may be left than is. -/
theorem agree_raise (agree : AgreeWhere pairing.terms inside related action action'
      (pairing.Gives m)) (le : m ≤ n) (short : n < pairing.limit) :
    AgreeWhere pairing.terms inside related action action' (pairing.Gives n) :=
  agree.weaken fun _ _ _ _ given => ⟨given.same, given.linked.mono le short⟩

theorem agree_return {value value' : α} (same : Matches pairing.view value value') :
    AgreeWhere pairing.terms inside (pairing.Linked n) (pure value) (pure value')
      (pairing.Gives n) :=
  agree_pure fun _ _ linked => ⟨same, linked⟩

/-- What is behind a consumed word. -/
theorem agree_advancing {β γ : Type} {next : Token → ParseM β} {next' : Token → ParseM γ}
    {final : β → γ → Parser → Parser → Prop}
    (live : ∀ first second, related first second → pairing.Live n first second)
    (behind : ∀ token token', token'.span = pairing.view.span token.span → n - 1 < n →
      n - 1 < pairing.limit →
        Agree pairing.terms (pairing.Linked (n - 1)) (next token) (next' token') final) :
    Agree pairing.terms related (advance >>= next) (advance >>= next') final := by
  refine AgreeWhere.of_fact (fun _ _ holds => (live _ _ holds).pos) fun pos => ?_
  refine (agree_advance.of_related live).bind fun token token' => ?_
  refine AgreeWhere.of_fact (fun _ _ holds => holds.1) fun same => ?_
  refine AgreeWhere.of_fact (fun _ _ holds => holds.2.within) fun short => ?_
  exact (behind token token' same (Nat.sub_lt pos Nat.one_pos) short).of_related
    fun _ _ holds => holds.2

/-- A form is read from its first word on. -/
theorem begins_of_advance {next next' : ParseM α}
    (behind : ∀ m, m < n → pairing.Reads m next next') :
    pairing.Begins n (do let _ ← advance; next) (do let _ ← advance; next') :=
  agree_advancing (fun _ _ => id) fun _ _ _ less _ =>
    AgreeWhere.weaken (behind _ less) fun _ _ _ _ given => ⟨given.same, n - 1, less, given.linked⟩

/-- What is read behind a word is read once the word was consumed. -/
theorem agree_behind {next next' : ParseM α} (short : n < pairing.limit)
    (live : ∀ first second, related first second → pairing.Live n first second)
    (behind : ∀ m, m < n → pairing.Reads m next next') :
    Agree pairing.terms related (do let _ ← advance; next)
      (do let _ ← advance; next') (pairing.Gives n) :=
  agree_advancing live fun _ _ _ less _ => agree_raise (behind _ less) (Nat.le_of_lt less) short

end

/-! ## Words -/

theorem Linked.live_of_lexeme {first second : Parser}
    (holds : pairing.Linked n first second ∧ first.current.lexeme = lexeme) (word : lexeme ≠ .eof) :
    pairing.Live n first second :=
  holds.1.ready.live_of_lexeme holds.2 word

/-- A word is accepted alike where both parsers see it or do not. -/
theorem agree_accept {related : Parser → Parser → Prop} (steady : pairing.Steady n related)
    (lexeme : Lexeme) (noName : lexeme.isName = false) (word : lexeme ≠ .eof) :
    Agree pairing.terms (fun first second => related first second ∧
        (second.current.lexeme == lexeme) = (first.current.lexeme == lexeme))
      (accept lexeme) (accept lexeme) fun found found' first second =>
        found' = found ∧ if found then n - 1 < n ∧ pairing.Linked (n - 1) first second
          else related first second := by
  refine (agree_check steady noName).bindSame fun found => ?_
  cases found with
  | false => exact agree_pure fun _ _ holds => ⟨rfl, holds.1⟩
  | true =>
    refine agree_advancing
      (fun _ _ holds => (steady.ready holds.1).live_of_lexeme (holds.2 rfl) word)
      fun _ _ _ less _ => ?_
    exact agree_pure fun _ _ linked => ⟨rfl, less, linked⟩

/-- Fixed words are accepted alike. -/
theorem agree_accept_fixed (fixed : lexeme.isFixed = true) :
    Agree pairing.terms (pairing.Linked n) (accept lexeme) (accept lexeme)
      fun found found' first second => found' = found ∧
        if found then n - 1 < n ∧ pairing.Linked (n - 1) first second
        else pairing.Linked n first second :=
  (agree_accept steady_linked lexeme (Lexeme.noName_of_fixed fixed)
    (Lexeme.ne_eof_of_fixed fixed)).of_related fun _ _ linked =>
      ⟨linked, linked.sees.beq_eq fixed⟩

theorem reads_accept (fixed : lexeme.isFixed = true) :
    pairing.Reads n (accept lexeme) (accept lexeme) := by
  refine agree_short fun short => ?_
  refine (agree_accept_fixed fixed).weaken fun found found' _ _ given => ?_
  obtain ⟨rfl, given⟩ := given
  refine ⟨rfl, ?_⟩
  cases found' with
  | false => exact given
  | true => exact given.2.mono (Nat.le_of_lt given.1) short

theorem takes_consume (fixed : lexeme.isFixed = true) :
    pairing.Takes n (consume lexeme) (consume lexeme) := by
  refine (agree_check_fixed fixed).bindSame fun found => ?_
  cases found with
  | false => exact agree_unexpected fun _ _ holds => ⟨n, holds.1.ready⟩
  | true =>
    refine agree_advancing (fun _ _ holds => Linked.live_of_lexeme ⟨holds.1, holds.2 rfl⟩
      (Lexeme.ne_eof_of_fixed fixed)) fun _ _ _ less _ => ?_
    exact agree_pure fun _ _ linked => ⟨rfl, n - 1, less, linked⟩

theorem reads_consume (fixed : lexeme.isFixed = true) :
    pairing.Reads n (consume lexeme) (consume lexeme) :=
  Takes.reads (takes_consume fixed)

theorem takes_identifier : pairing.Takes n identifier identifier := by
  refine agree_seeing (fun _ _ linked => linked.sees) fun lexeme lexeme' sees => ?_
  have refused : ∀ {α : Type} {result : α → α → Parser → Parser → Prop},
      Agree pairing.terms (fun first second => pairing.Linked n first second ∧
        first.current.lexeme = lexeme) (unexpectedFor .identifier)
        (unexpectedFor .identifier) result :=
    agree_unexpectedFor _ fun _ _ holds => ⟨n, holds.1.ready⟩
  cases sees with
  | ended => exact refused
  | same same =>
    cases same with
    | name named =>
      refine agree_advancing (fun _ _ holds => Linked.live_of_lexeme holds nofun)
        fun _ _ _ less _ => ?_
      exact agree_pure fun _ _ linked => ⟨named, n - 1, less, linked⟩
    | word noName =>
      cases lexeme with
      | identifier => cases noName
      | _ => exact refused

theorem reads_identifier : pairing.Reads n identifier identifier :=
  Takes.reads takes_identifier

/-- Whether a name is looked at is found out alike. -/
theorem agree_atIdentifier : Agree pairing.terms (pairing.Linked n) atIdentifier
    atIdentifier fun found found' first second => found' = found ∧
      pairing.Linked n first second ∧ (found = true → pairing.Live n first second) := by
  refine agree_seeing (fun _ _ linked => linked.sees) fun lexeme lexeme' sees => ?_
  cases sees with
  | ended => exact agree_pure fun _ _ holds => ⟨rfl, holds.1, nofun⟩
  | same same =>
    cases same with
    | name =>
      exact agree_pure fun _ _ holds =>
        ⟨rfl, holds.1, fun _ => Linked.live_of_lexeme holds nofun⟩
    | word noName =>
      cases lexeme with
      | identifier => cases noName
      | _ => exact agree_pure fun _ _ holds => ⟨rfl, holds.1, nofun⟩

/-- The tokens behind those that are looked at are seen alike. -/
theorem agree_peekLexeme : Agree pairing.terms
    (fun first second => pairing.Linked n first second ∧ pairing.Live n first second)
    peekLexeme peekLexeme fun lexeme lexeme' first second =>
      pairing.Sees lexeme lexeme' ∧ pairing.Linked n first second ∧
        ∃ token, first.lookahead = some token ∧ token.lexeme = lexeme := by
  rintro first second ⟨linked, live⟩
  obtain ⟨current, ahead⟩ := linked.reading live.live
  have outcome := ahead.taken linked.stores
  have light := linked.weight
  cases took : takeNext first with
  | ok next middle =>
    rw [took] at outcome
    obtain ⟨next', middle', took', isFirst, isSecond, found, stores⟩ := outcome
    have spent := takeNext_ok_spends took
    have run : peekLexeme first =
        .ok next.lexeme { middle with lookahead := some next } := by
      rw [peekLexeme, run_bind_of_ok took]
      rfl
    rw [run]
    refine fun _ =>
      ⟨next'.lexeme, { middle' with lookahead := some next' }, ?_, ?_, ?_, next, rfl, rfl⟩
    · rw [peekLexeme, run_bind_of_ok took']
      rfl
    · cases found with
      | same same => exact .same same.lexeme
      | ended eof semicolon =>
        rw [eof, semicolon]
        exact .ended
    · have lookedAt : middle.current = first.current ∧ middle.lookahead = none := by
        rw [isFirst]
        exact ⟨rfl, rfl⟩
      refine ⟨⟨?_, ?_, ?_, ?_, ?_, ?_, ?_, stores, ?_⟩, linked.within, ?_⟩
      · simp only [Parser.weight, Parser.ahead, lookedAt, Option.map_none, Option.map_some,
          Option.getD_none, Option.getD_some] at spent light ⊢
        omega
      all_goals first | rw [isFirst, isSecond] | rw [isFirst] | rw [isSecond]
      · exact linked.bound
      · exact linked.bound'
      · exact linked.functions
      · exact linked.started
      · exact linked.previous
      · exact linked.expected
      · exact .reading current (.read rfl rfl found)
      · exact linked.placed
  | error failure middle =>
    rw [took] at outcome
    have run : peekLexeme first = .error failure middle := by
      change EStateM.bind takeNext _ first = _
      rw [EStateM.bind, took]
    rw [run]
    intro exact
    obtain ⟨failure', middle', took', failures, absent, absent', isFirst, isSecond, behind⟩ :=
      outcome exact
    have spent := advance_error_spends
      (show advance first = .error failure middle by
        change EStateM.bind takeNext _ first = _
        rw [EStateM.bind, took])
    refine ⟨failure', middle', ?_, failures, fun resumes => ⟨n, Linked.ready ?_⟩⟩
    · change EStateM.bind takeNext _ second = _
      rw [EStateM.bind, took']
    · obtain ⟨streams, stores⟩ := behind resumes
      rw [isFirst] at spent ⊢
      rw [isSecond]
      exact ⟨linked.toTied.withTokens current absent absent' (by omega) streams stores,
        linked.within, linked.placed⟩

/-! ## Nodes -/

section

variable {start start' : Span} (placed : start' = pairing.view.span start)

include placed

theorem reads_spanFrom :
    pairing.Reads n (spanFrom start) (spanFrom start') := by
  intro first second linked _
  refine ⟨_, second, rfl, ?_, linked⟩
  rw [linked.placed, placed, ← pairing.view.join]
  rfl

/-- A node up to the token consumed last. -/
theorem reads_node {expr expr' : Expr}
    (same : expr.seen pairing.view = expr'.seen pairing.view.here) :
    pairing.Reads n (Parser.node expr start) (Parser.node expr' start') := by
  refine (reads_spanFrom placed).gives fun span span' spans => ?_
  exact agree_return (Matches.of_expr same spans.region)

end

theorem agree_newFunction : Agree pairing.terms (pairing.Linked n) newFunction
    newFunction fun id id' first second =>
      id' = pairing.view.function id ∧ pairing.Linked n first second := by
  refine agree_modifyGet fun first second linked =>
    ⟨by rw [linked.functions, pairing.view.next], ?_⟩
  exact ⟨{ linked.toTied with
    functions := by rw [linked.functions, pairing.view.next]
    position := linked.position.of_same rfl rfl rfl rfl rfl rfl }, linked.within, linked.placed⟩

/-! ## The store -/

theorem Found.withStore {token token' : Token} {tokens tokens' : TokenStream}
    (found : pairing.Finds token token' tokens tokens') (store store' : Store) :
    pairing.Finds token token' { tokens with store } { tokens' with store := store' } := by
  cases found with
  | same same streams => exact .same same (pairing.withStore store store' streams)
  | ended eof semicolon ended => exact .ended eof semicolon (pairing.endedWithStore store' ended)

theorem Position.withStore {first second : Parser} (position : pairing.Position first second)
    (store store' : Store) :
    pairing.Position { first with tokens := { first.tokens with store } }
      { second with tokens := { second.tokens with store := store' } } := by
  cases position with
  | reading current ahead =>
    refine .reading current ?_
    cases ahead with
    | unread absent absent' streams =>
      exact .unread absent absent' (pairing.withStore _ _ streams)
    | read present present' found => exact .read present present' (found.withStore _ _)
  | ended eof semicolon absent' ended =>
    exact .ended eof semicolon absent' (pairing.endedWithStore store' ended)

/-- What is made in paired stores matches. -/
theorem reads_withStore {α : Type} [Visible α] {action action' : Store → α × Store}
    (same : ∀ store store', pairing.Stores store store' →
      Matches pairing.view (action store).1 (action' store').1 ∧
        pairing.Stores (action store).2 (action' store').2) :
    pairing.Reads n (Parser.withStore action) (Parser.withStore action') := by
  intro first second linked _
  obtain ⟨results, stores⟩ := same _ _ linked.stores
  exact ⟨_, _, rfl, results, { linked.toTied with
    stores := stores
    position := linked.position.withStore _ _ }, linked.within, linked.placed⟩

theorem reads_intern (spelling : String) : pairing.Reads n
    (Parser.withStore (Store.intern spelling)) (Parser.withStore (Store.intern spelling)) :=
  reads_withStore fun _ _ stores => pairing.intern spelling stores

theorem reads_makeString (text : String) : pairing.Reads n
    (Parser.withStore (Store.makeString text)) (Parser.withStore (Store.makeString text)) := by
  refine reads_withStore fun store store' stores => ?_
  obtain ⟨number, stores⟩ := pairing.newObject stores
  exact ⟨pairing.view.string text number, stores⟩

theorem reads_makeArray {className className' : Symbol} {elements elements' : List Value}
    (named : Matches pairing.view className className')
    (same : Matches pairing.view elements elements') :
    pairing.Reads n (Parser.withStore (Store.makeArray className elements))
      (Parser.withStore (Store.makeArray className' elements')) := by
  refine reads_withStore fun store store' stores => ?_
  obtain ⟨number, stores⟩ := pairing.newObject stores
  exact ⟨pairing.view.array number named.symbol same.values, stores⟩

theorem reads_makeFrame {slots slots' : List (Symbol × Value)}
    (same : Matches pairing.view slots slots') :
    pairing.Reads n (Parser.withStore (Store.makeFrame (slots.map Prod.fst) (slots.map Prod.snd)))
      (Parser.withStore (Store.makeFrame (slots'.map Prod.fst) (slots'.map Prod.snd))) := by
  refine reads_withStore fun store store' stores => ?_
  obtain ⟨number, stores⟩ := pairing.newObject stores
  obtain ⟨number', stores⟩ := pairing.newObject stores
  have pairs : slots.map (Prod.map pairing.view.name pairing.view.value) =
      slots'.map (Prod.map pairing.view.name pairing.view.value) := same
  have names := congrArg (List.map Prod.fst) pairs
  have values := congrArg (List.map Prod.snd) pairs
  rw [List.map_map, List.map_map] at names values
  refine ⟨pairing.view.frame number' number ?_ ?_, stores⟩
  · rw [List.map_map, List.map_map]
    exact names
  · rw [List.map_map, List.map_map]
    exact values

/-! ## Lists -/

section

variable {α : Type} [Visible α] {item item' : ParseM α}

/-- Behind an item, a list stops or goes on. -/
theorem agree_another {inside : Parser → Prop} (short : n < pairing.limit) (less : m < n)
    {another : Bool} {next next' last last' : ParseM (List α)}
    (stops : AgreeWhere pairing.terms inside (pairing.Linked m) last last' (pairing.Gives m))
    (goesOn : ∀ k, k < n →
      AgreeWhere pairing.terms inside (pairing.Linked k) next next' (pairing.Gives k)) :
    AgreeWhere pairing.terms inside (fun first second => if another = true then
        m - 1 < m ∧ pairing.Linked (m - 1) first second else pairing.Linked m first second)
      (if another = true then next else last) (if another = true then next' else last')
      (pairing.Gives n) := by
  cases another with
  | false => exact agree_raise stops (Nat.le_of_lt less) short
  | true =>
    have fewer : m - 1 < n := Nat.lt_of_le_of_lt (Nat.sub_le m 1) less
    exact (agree_raise (goesOn (m - 1) fewer) (Nat.le_of_lt fewer) short).of_related
      fun _ _ holds => holds.2

theorem reads_commaItems (inner : pairing.Inner n item item') {bound bound' : Nat}
    (room : pairing.Room n bound bound') {found found' : List α}
    (same : Matches pairing.view found found') :
    pairing.Reads n (commaItems item bound found)
      (commaItems item' bound' found') := by
  induction room generalizing found found' with
  | none loose => exact agree_of_exhausted loose (by rintro _ _ _ ⟨⟩)
  | @more n _ _ _ ih =>
    refine agree_short fun short => ?_
    refine (inner.takes n (Nat.le_refl n)).spends fun m less next next' nextSame => ?_
    refine (agree_accept_fixed (show (Lexeme.punctuation .comma).isFixed = true from rfl)).bindSame
      fun another => ?_
    exact agree_another short less (agree_return (nextSame.cons same).reverse) fun k less =>
      ih k less (inner.lower (Nat.le_of_lt less)) (nextSame.cons same)

theorem reads_commaList (inner : pairing.Inner n item item') :
    pairing.Reads n (commaList item) (commaList item') := by
  refine agree_bounded (fun _ _ linked => linked.ready) fun bound bound' room => ?_
  exact reads_commaItems inner room Matches.nil

theorem reads_listUntil (inner : pairing.Inner n item item') {close : Punctuation}
    (fixed : (Lexeme.punctuation close).isFixed = true) :
    pairing.Reads n (listUntil item close) (listUntil item' close) := by
  refine (reads_accept fixed).gives fun closed closed' flags => ?_
  cases flags.flag
  cases closed with
  | true => exact agree_return Matches.nil
  | false =>
    refine (reads_commaList inner).gives fun items items' same => ?_
    refine (reads_consume fixed).gives fun _ _ _ => ?_
    exact agree_return same

end

end Pairing

end NewtonScript
