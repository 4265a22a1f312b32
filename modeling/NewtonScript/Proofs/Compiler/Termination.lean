import NewtonScript.Proofs.Pairing.Compilers

/-!
# Compiling comes to an end

Every reading of a word moves on, so that the bounds on repetitions and on
nestings are never reached: with any larger bounds, compiling the commands of
a text gives the same results.  There is at most one result for each character
of the text.
-/

namespace NewtonScript

variable {store : Store}

/-! ## Behind failures -/

namespace Parser

variable {parser : Parser}

/-- The first parser comes to the second one by steps that read the first word
of the text, or pass a word other than a semicolon.  The steps may fail. -/
inductive Skips : Parser → Parser → Prop where
  | here (parser : Parser) : Skips parser parser
  | begin {parser last : Parser} (unstarted : parser.started = false)
      (rest : Skips (after prime parser) last) : Skips parser last
  | word {parser last : Parser} (started : parser.started = true)
      (live : parser.current.lexeme ≠ .eof)
      (other : parser.current.lexeme ≠ .punctuation .semicolon)
      (rest : Skips (after advance parser) last) : Skips parser last

/-- Where a parser goes on behind a failure: at the end of the text; or behind
the next semicolon; or at that semicolon, if there is a failure behind it. -/
inductive Recovers (parser target : Parser) : Prop where
  | ended (skips : parser.Skips target) (started : target.started = true)
      (eof : target.current.lexeme = .eof)
  | passed {last : Parser} {token : Token} (skips : parser.Skips last)
      (started : last.started = true) (semicolon : last.current.lexeme = .punctuation .semicolon)
      (advanced : advance last = .ok token target) (behind : target.previous = last.current.span)
  | stopped {last : Parser} {failure : Failure} (skips : parser.Skips last)
      (started : last.started = true) (semicolon : last.current.lexeme = .punctuation .semicolon)
      (failed : advance last = .error failure target) (current : target.current = last.current)

theorem Recovers.begin {target : Parser} (unstarted : parser.started = false)
    (recovers : (after prime parser).Recovers target) : parser.Recovers target := by
  cases recovers with
  | ended skips started eof => exact .ended (.begin unstarted skips) started eof
  | passed skips started semicolon advanced behind =>
    exact .passed (.begin unstarted skips) started semicolon advanced behind
  | stopped skips started semicolon failed current =>
    exact .stopped (.begin unstarted skips) started semicolon failed current

theorem Recovers.word {target : Parser} (started : parser.started = true)
    (live : parser.current.lexeme ≠ .eof) (other : parser.current.lexeme ≠ .punctuation .semicolon)
    (recovers : (after advance parser).Recovers target) : parser.Recovers target := by
  cases recovers with
  | ended skips started' eof => exact .ended (.word started live other skips) started' eof
  | passed skips started' semicolon advanced behind =>
    exact .passed (.word started live other skips) started' semicolon advanced behind
  | stopped skips started' semicolon failed current =>
    exact .stopped (.word started live other skips) started' semicolon failed current

theorem recovers_of_semicolon (started : parser.started = true)
    (semicolon : parser.current.lexeme = .punctuation .semicolon) :
    parser.Recovers (after advance parser) := by
  cases run : advance parser with
  | ok token next =>
    rw [after_of_ok run]
    refine .passed (.here parser) started semicolon run ?_
    obtain ⟨-, token', middle, -, rfl⟩ := advance_eq_ok run
    rfl
  | error failure next =>
    rw [after_of_error run]
    refine .stopped (.here parser) started semicolon run ?_
    obtain ⟨-, tokens, -, rfl⟩ := advance_eq_error run
    rfl

/-- A step over a word leaves less of the text, failed or not. -/
theorem weight_after_advance (live : parser.current.lexeme ≠ .eof) :
    (after advance parser).weight < parser.weight := by
  cases run : advance parser with
  | ok token next =>
    have spent := advance_ok_spends run
    rw [Token.weight_of_ne live] at spent
    rw [after_of_ok run]
    exact spent
  | error failure next =>
    rw [after_of_error run]
    exact advance_error_spends run

theorem started_after_advance : (after advance parser).started = parser.started := by
  cases run : advance parser with
  | ok token next =>
    obtain ⟨-, token', middle, took, rfl⟩ := advance_eq_ok run
    rw [after_of_ok run]
    rcases takeNext_eq_ok took with ⟨-, rfl⟩ | ⟨-, tokens, -, rfl⟩ <;> rfl
  | error failure next =>
    obtain ⟨-, tokens, -, rfl⟩ := advance_eq_error run
    rw [after_of_error run]

/-- Once the first word was read, as many steps are enough as there is text. -/
theorem recovers_of_started {bound : Nat} (started : parser.started = true)
    (enough : parser.weight ≤ bound) : parser.Recovers (synchronizeWithin bound parser) := by
  induction bound generalizing parser with
  | zero =>
    have eof : parser.current.lexeme = .eof := by
      refine Classical.byContradiction fun live => ?_
      have pos := weight_pos live
      omega
    exact .ended (.here parser) started eof
  | succ bound ih =>
    by_cases eof : parser.current.lexeme = .eof
    · rw [synchronizeWithin_of_eof started eof]
      exact .ended (.here parser) started eof
    · by_cases semicolon : parser.current.lexeme = .punctuation .semicolon
      · rw [synchronizeWithin_of_semicolon started semicolon]
        exact recovers_of_semicolon started semicolon
      · rw [synchronizeWithin_of_ne started eof semicolon]
        have less := weight_after_advance eof
        exact .word started eof semicolon (ih (started_after_advance.trans started) (by omega))

/-- One step more is enough in front of the first word. -/
theorem recovers_synchronizeWithin {bound : Nat} (enough : parser.weight < bound) :
    parser.Recovers (synchronizeWithin bound parser) := by
  induction bound generalizing parser with
  | zero => exact absurd enough (Nat.not_lt_zero _)
  | succ bound ih =>
    cases started : parser.started with
    | true => exact recovers_of_started started (Nat.le_of_lt enough)
    | false =>
      rw [synchronizeWithin_of_unstarted started]
      refine .begin started ?_
      cases read : TokenStream.next parser.tokens with
      | ok token tokens =>
        have spent := TokenStream.next_ok_spends read
        rw [after_of_ok (prime_of_ok started read)]
        refine recovers_of_started rfl ?_
        simp only [weight, ahead] at enough ⊢
        omega
      | error failure tokens =>
        have spent := (TokenStream.next_error_spends read).1
        rw [after_of_error (prime_of_error started read)]
        refine ih ?_
        simp only [weight, ahead] at enough ⊢
        omega

end Parser

/-! ## Larger bounds -/

theorem map_eq_self {α : Type} {change : α → α} {values : List α}
    (same : ∀ value ∈ values, change value = value) : values.map change = values :=
  (List.map_congr_left same).trans (List.map_id' values)

theorem Binding.seen_same {bindings : List Binding}
    (same : ∀ part ∈ bindings.filterMap Binding.value, part.seen .same = part) :
    bindings.map (Binding.seen .same) = bindings := by
  refine map_eq_self fun binding member => ?_
  obtain ⟨name, type, value, span⟩ := binding
  cases value with
  | none => simp [Binding.seen]
  | some value => simp [Binding.seen, same value (List.mem_filterMap.mpr ⟨_, member, rfl⟩)]

theorem Node.seen_same (node : Node) : node.seen .same = node := by
  induction node using Node.induction with
  | step expr span ih =>
    rw [Node.seen]
    cases expr with
    | localDecl => rw [Expr.seen, Binding.seenAll_eq, Binding.seen_same ih]
    | constantDecl => rw [Expr.seen, Binding.seenAll_eq, Binding.seen_same ih]
    | func _ params =>
      have same : params.map (Param.seen .same) = params :=
        map_eq_self fun param _ => by simp [Param.seen]
      simp_all [Expr.seen, Expr.inside]
    | tryCatch body handlers =>
      obtain ⟨own, others⟩ := List.forall_mem_cons.mp ih
      rw [Expr.seen, own, Handler.seenAll_eq, map_eq_self]
      rintro ⟨exception, _⟩ member
      exact congrArg (Handler.mk exception) (others _ (List.mem_map_of_mem member))
    | makeFrame slots =>
      rw [Expr.seen, Slot.seenAll_eq, map_eq_self]
      rintro ⟨name, _⟩ member
      exact congrArg (Slot.mk name) (ih _ (List.mem_map_of_mem member))
    | path _ key => cases key <;> simp_all [Expr.seen, Expr.inside, Expr.children]
    | globalVar _ found | breakLoop found | returnValue found | send found | ifThen _ _ found
    | forLoop _ _ _ found =>
      cases found <;> simp_all [Expr.seen, Expr.inside, Expr.children, map_eq_self]
    | _ => simp_all [Expr.seen, Expr.inside, Expr.children, map_eq_self]

namespace Pairing

/-- The same text, with room for more in the second parser. -/
def roomier (limit room room' : Nat) (enough : limit < room) (roomy : room ≤ room') : Pairing where
  view := .same
  exact := True
  resumes := True
  together := True
  limit := limit
  room := room
  room' := room'
  roomy := roomy
  enough _ := enough
  Streams first second := second.cursor = first.cursor ∧ second.pending = first.pending
  Ended _ := False
  endless _ _ := id
  Stores store store' := store' = store
  Failures failure failure' := failure' = failure ∧ failure.fault.Ordinary
  next := by
    rintro first second ⟨⟨cursors, pendings⟩, stores⟩
    have equal : second = first := by
      cases second
      simp_all
    subst equal
    cases run : TokenStream.next second with
    | ok token after =>
      exact fun _ => ⟨token, after, rfl, .same ⟨.refl _, rfl, fun _ => trivial⟩ ⟨rfl, rfl⟩, rfl⟩
    | error failure after =>
      exact fun _ => ⟨failure, after, rfl, ⟨rfl, TokenStream.ordinary_next run⟩,
        fun _ => ⟨⟨rfl, rfl⟩, rfl⟩⟩
  withStore _ _ streams := streams
  endedWithStore _ := id
  intern := by
    rintro store _ spelling rfl
    exact ⟨rfl, rfl⟩
  newObject := by
    rintro store _ rfl
    exact ⟨rfl, rfl⟩
  outOfRange _ _ := ⟨rfl, trivial⟩
  unexpected := by
    intro lexeme lexeme' expected span same
    cases same with
    | name named =>
      cases named
      exact ⟨rfl, trivial⟩
    | word => exact ⟨rfl, trivial⟩

theorem eq_of_matches {found found' : Option Node} (same : Matches .same found found') :
    found' = found := by
  have equal : found.map (Node.seen .same) = found'.map (Node.seen .same) := same
  rw [funext Node.seen_same, Option.map_id', Option.map_id'] at equal
  exact equal.symm

end Pairing

namespace Parser

/-- Where there is no command the text has ended. -/
theorem eof_of_nextCommand {parser after : Parser} (run : nextCommand parser = .ok none after) :
    after.current.lexeme = .eof := by
  rw [nextCommand_eq] at run
  obtain ⟨_, started, -, run⟩ := run_bind_eq_ok run
  obtain ⟨_, middle, -, run⟩ := run_bind_eq_ok run
  refine Classical.byContradiction fun live => ?_
  by_cases eof : middle.current.lexeme = .eof
  · rw [commandTail_of_eof eof] at run
    cases run
    exact live eof
  · rw [commandTail_of_ne eof] at run
    obtain ⟨command, behind, -, run⟩ := run_bind_eq_ok run
    obtain ⟨found, last, -, run⟩ := run_bind_eq_ok run
    cases found with
    | true => cases run
    | false =>
      obtain ⟨ended, final, -, run⟩ := run_bind_eq_ok run
      cases ended <;> cases run

end Parser

namespace Compiler

/-- The same compiler with other bounds on repetitions and nestings. -/
def withBound (compiler : Compiler) (bound : Nat) : Compiler :=
  { compiler with parser := { compiler.parser with bound } }

section

variable {bound : Nat} {compiler : Compiler} {results : List (Except Failure CodeBlock)}
  {parser : Parser}

theorem compileCommands_of_none (run : Parser.nextCommand compiler.parser = .ok none parser) :
    compileCommands (bound + 1) compiler results = (results, { compiler with parser }) := by
  rw [compileCommands, parse_of_ok run]

theorem compileCommands_of_some {tree : Node} {result : Except Failure CodeBlock}
    {bag : DiagnosticBag} (run : Parser.nextCommand compiler.parser = .ok (some tree) parser)
    (outcome : treeOutcome tree compiler.options parser.tokens.store compiler.bag =
      (result, store, bag)) :
    compileCommands (bound + 1) compiler results =
      compileCommands bound (Compiler.withStore { compiler with parser } store bag)
        (result :: results) := by
  rw [compileCommands, parse_of_ok run]
  dsimp only
  cases result with
  | ok block =>
    have made : compileTree tree { compiler with parser } = _ := compileTree_of_ok outcome
    rw [made]
  | error failure =>
    have made : compileTree tree { compiler with parser } = _ := compileTree_of_error outcome
    rw [made]

theorem compileCommands_of_error {failure : Failure}
    (run : Parser.nextCommand compiler.parser = .error failure parser) :
    compileCommands (bound + 1) compiler results =
      compileCommands bound { compiler with parser := parser.synchronize }
        (.error failure :: results) := by
  rw [compileCommands, parse_of_error run]

end

/-- What two compilers make of the same text: the same results, the same store
and the same reports. -/
structure SameRun (n : Nat) (results : List (Except Failure CodeBlock))
    (run run' : List (Except Failure CodeBlock) × Compiler) : Prop where
  same : run'.1 = run.1
  store : run'.2.store = run.2.store
  bag : run'.2.bag = run.2.bag
  count : run.1.length ≤ n + results.length

theorem sameRun_compileCommands {limit room room' n : Nat} {enough : limit < room}
    {roomy : room ≤ room'} (le : n ≤ limit) {bound bound' : Nat}
    (covers : bound' = bound ∨ n < bound ∧ bound ≤ bound') (first second : Compiler)
    (options : second.options = first.options) (bag : second.bag = first.bag)
    (stands : (Pairing.roomier limit room room' enough roomy).Stands n first.parser second.parser)
    (results : List (Except Failure CodeBlock)) :
    SameRun n results (compileCommands bound first results)
        (compileCommands bound' second results) ∧
      (n < bound → (compileCommands bound first results).2.parser.started = true ∧
        (compileCommands bound first results).2.parser.current.lexeme = .eof) := by
  induction bound generalizing n bound' first second results with
  | zero =>
    rcases covers with rfl | ⟨less, -⟩
    · exact ⟨⟨rfl, stands.stores, bag, Nat.le_add_left _ _⟩,
        fun less => absurd less (Nat.not_lt_zero n)⟩
    · exact absurd less (Nat.not_lt_zero n)
  | succ bound ih =>
    obtain ⟨bound', rfl⟩ : ∃ more, bound' = more + 1 := ⟨bound' - 1, by omega⟩
    have outcome := Pairing.agree_nextCommand trivial le first.parser second.parser stands
    cases run : Parser.nextCommand first.parser with
    | ok found parser =>
      rw [run] at outcome
      obtain ⟨found', parser', run', same, m, less, fewer, tied⟩ := outcome trivial
      cases Pairing.eq_of_matches same
      cases found with
      | none =>
        rw [compileCommands_of_none run, compileCommands_of_none run']
        exact ⟨⟨rfl, tied.stores, bag, Nat.le_add_left _ _⟩,
          fun _ => ⟨tied.started.1, Parser.eof_of_nextCommand run⟩⟩
      | some tree =>
        have fewer := fewer rfl
        obtain ⟨⟨result, store, reports⟩, made⟩ :
            ∃ outcome, treeOutcome tree first.options parser.tokens.store first.bag =
              outcome := ⟨_, rfl⟩
        have made' : treeOutcome tree second.options parser'.tokens.store second.bag =
            (result, store, reports) := by
          rw [options, bag, show parser'.tokens.store = parser.tokens.store from tied.stores, made]
        rw [compileCommands_of_some run made, compileCommands_of_some run' made']
        obtain ⟨sameRun, ended⟩ := ih (n := m) (by omega) (show bound' = bound ∨ _ by omega)
          (Compiler.withStore { first with parser } store reports)
          (Compiler.withStore { second with parser := parser' } store reports) options rfl
          ((Pairing.Stands.begun tied).withStore rfl) (result :: results)
        refine ⟨{ sameRun with count := ?_ }, fun _ => ended (by omega)⟩
        have count := sameRun.count
        rw [List.length_cons] at count
        omega
    | error failure parser =>
      rw [run] at outcome
      obtain ⟨failure', parser', run', ⟨rfl, -⟩, behind⟩ := outcome trivial
      obtain ⟨m, fewer, stands⟩ := (behind trivial).synchronize trivial trivial le
      rw [compileCommands_of_error run, compileCommands_of_error run']
      obtain ⟨sameRun, ended⟩ := ih (n := m) (by omega)
        (show bound' = bound ∨ _ by omega) { first with parser := parser.synchronize }
        { second with parser := parser'.synchronize } options bag stands
        (.error failure' :: results)
      refine ⟨{ sameRun with count := ?_ }, fun _ => ended (by omega)⟩
      have count := sameRun.count
      rw [List.length_cons] at count
      omega

end Compiler

/-! ## Whole texts -/

theorem Pairing.stands_ofString (text : String) (store : Store) {room room' : Nat}
    (enough : text.length < room) (roomy : room ≤ room') :
    (roomier text.length room room' enough roomy).Stands text.length
      { Parser.ofString text store with bound := room }
      { Parser.ofString text store with bound := room' } := by
  exact .fresh ⟨Nat.le_of_eq (Parser.weight_ofString text store), rfl, rfl, rfl, ⟨rfl, rfl⟩,
    fun _ => rfl, fun _ => rfl, rfl, rfl, rfl, ⟨rfl, rfl⟩⟩

/-- A text on its own, with the room that its parser has. -/
def Pairing.alone (text : String) : Pairing :=
  .roomier text.length (text.length + 3) (text.length + 3) (Nat.lt_add_of_pos_right (by decide))
    (Nat.le_refl _)

namespace Parser

/-- The parsers that reading a text command by command comes to.  Between the
commands the store may change. -/
inductive Reaches (start : Parser) : Parser → Prop where
  | start : Reaches start start
  | command {parser next : Parser} {found : Option Node} (reached : Reaches start parser)
      (run : nextCommand parser = .ok found next) : Reaches start next
  | failure {parser next : Parser} {failure : Failure} (reached : Reaches start parser)
      (run : nextCommand parser = .error failure next) : Reaches start next
  | synchronized {parser : Parser} (reached : Reaches start parser) :
      Reaches start parser.synchronize
  | withStore {parser : Parser} (reached : Reaches start parser) (store : Store) :
      Reaches start { parser with tokens := { parser.tokens with store } }

/-- All of these parsers go together with themselves. -/
theorem Reaches.stands {text : String} {parser : Parser}
    (reached : (ofString text store).Reaches parser) :
    ∃ n, n ≤ text.length ∧ (Pairing.alone text).Stands n parser parser := by
  have enough := (Pairing.alone text).enough trivial
  induction reached with
  | start =>
    refine ⟨text.length, Nat.le_refl _, ?_⟩
    have itself : { ofString text store with bound := text.length + 3 } =
        ofString text store := by
      rw [← bound_ofString text store]
    have stands : (Pairing.alone text).Stands text.length
        { ofString text store with bound := text.length + 3 }
        { ofString text store with bound := text.length + 3 } :=
      Pairing.stands_ofString text store enough (Nat.le_refl _)
    rwa [itself] at stands
  | command _ run ih =>
    obtain ⟨n, le, stands⟩ := ih
    obtain ⟨found', next', run', -, m, less, -, tied⟩ :=
      (Pairing.agree_nextCommand trivial le).of_ok stands run trivial
    cases run.symm.trans run'
    exact ⟨m, Nat.le_trans less le, .begun tied⟩
  | failure _ run ih =>
    obtain ⟨n, le, stands⟩ := ih
    obtain ⟨failure', next', run', -, behind⟩ :=
      (Pairing.agree_nextCommand trivial le).of_error stands run trivial
    obtain ⟨m, less, stands, -⟩ := behind trivial
    cases run.symm.trans run'
    exact ⟨m, Nat.le_trans less le, stands⟩
  | @synchronized parser _ ih =>
    obtain ⟨n, le, stands⟩ := ih
    obtain ⟨m, less, -, stands⟩ := stands.synchronizeWithin trivial trivial le
      (Nat.lt_of_le_of_lt le (stands.bound ▸ enough)) (Nat.le_refl parser.bound)
    exact ⟨m, Nat.le_trans less le, stands⟩
  | withStore _ store ih =>
    obtain ⟨n, le, stands⟩ := ih
    exact ⟨n, le, stands.withStore rfl⟩

/-- They have room for what is left of the text. -/
theorem Reaches.weight_lt_bound {text : String} {parser : Parser}
    (reached : (ofString text store).Reaches parser) : parser.weight < parser.bound := by
  obtain ⟨n, le, stands⟩ := reached.stands
  have bound : parser.bound = text.length + 3 := stands.bound
  have light := stands.weight
  omega

end Parser

/-! ## The end -/

theorem TokenStream.offset_lt_of_scan {stream after : TokenStream} {token : Token}
    (run : scan stream = .ok token after) (live : token.lexeme ≠ .eof) :
    stream.cursor.offset < after.cursor.offset := by
  obtain ⟨raw, cursor, store, reads, interned, rfl⟩ := scan_eq_ok run
  exact (reads.beyond fun eof => live (interned.lexeme.eq_eof_iff.mpr eof)).offset

theorem TokenStream.offset_lt_of_scan_error {stream after : TokenStream} {failure : Failure}
    (run : scan stream = .error failure after) : stream.cursor.offset < after.cursor.offset := by
  obtain ⟨cursor, read, rfl⟩ := scan_eq_error run
  exact (Cursor.beyond_of_fault read).offset

namespace Compiler

/-- Compiling each command gives the same with all bounds that cover the text,
and it ends where the text ends. -/
theorem sameRun_compileEach (text : String) (store : Store) (options : Options) {bound bound' : Nat}
    (enough : text.length < bound) (more : bound ≤ bound') :
    SameRun text.length [] (compileEach ((ofString text store options).withBound bound))
        (compileEach ((ofString text store options).withBound bound')) ∧
      (options.firstOnly = false →
        (compileEach ((ofString text store options).withBound bound)).2.parser.started = true ∧
          (compileEach
            ((ofString text store options).withBound bound)).2.parser.current.lexeme = .eof) := by
  have steps : ∀ bound, compileEach ((ofString text store options).withBound bound) =
      ((compileCommands (if options.firstOnly then 1 else bound)
        ((ofString text store options).withBound bound) []).1.reverse,
        (compileCommands (if options.firstOnly then 1 else bound)
          ((ofString text store options).withBound bound) []).2) := fun _ => rfl
  have stands := Pairing.stands_ofString text store enough more
  obtain ⟨sameRun, ended⟩ := sameRun_compileCommands (Nat.le_refl text.length)
    (show (if options.firstOnly then 1 else bound') = (if options.firstOnly then 1 else bound) ∨ _ by
      split
      · exact .inl rfl
      · exact .inr ⟨enough, more⟩)
    ((ofString text store options).withBound bound)
    ((ofString text store options).withBound bound') rfl rfl stands []
  rw [steps]
  refine ⟨⟨congrArg List.reverse sameRun.same, sameRun.store, sameRun.bag, ?_⟩, fun all => ?_⟩
  · rw [List.length_reverse]
    exact sameRun.count
  · rw [all] at ended ⊢
    exact ended enough

/-- Compiling comes to an end on every text.  Every reading of a word that does
not find the end moves on in the text, failed or not; behind a failure a
parser goes on at the end of the text, behind the next semicolon, or at that
semicolon if there is a failure behind it; and there are at most as many
results as there are characters.  No bound on repetitions is ever reached:
larger ones give the same results, the same store and the same reports, and
unless only the first command is wanted the whole text is read. -/
theorem compileEach_ends (text : String) (store : Store) (options : Options) :
    (∀ stream after token, TokenStream.scan stream = .ok token after → token.lexeme ≠ .eof →
      stream.cursor.offset < after.cursor.offset) ∧
    (∀ stream after failure, TokenStream.scan stream = .error failure after →
      stream.cursor.offset < after.cursor.offset) ∧
    (∀ parser, (Parser.ofString text store).Reaches parser →
      parser.Recovers parser.synchronize) ∧
    (compileEach (ofString text store options)).1.length ≤ text.length ∧
    (options.firstOnly = false →
      (compileEach (ofString text store options)).2.parser.started = true ∧
        (compileEach (ofString text store options)).2.parser.current.lexeme = .eof) ∧
    ∀ bound, text.length < bound →
      (compileEach ((ofString text store options).withBound bound)).1 =
          (compileEach (ofString text store options)).1 ∧
        (compileEach ((ofString text store options).withBound bound)).2.store =
          (compileEach (ofString text store options)).2.store ∧
        (compileEach ((ofString text store options).withBound bound)).2.bag =
          (compileEach (ofString text store options)).2.bag := by
  have own : (ofString text store options).withBound (text.length + 3) =
      ofString text store options := by
    rw [← Parser.bound_ofString text store]
    rfl
  have least := Nat.lt_succ_self text.length
  obtain ⟨sameRun, -⟩ := sameRun_compileEach text store options least
    (Nat.le_add_right (text.length + 1) 2)
  obtain ⟨alone, ended⟩ := sameRun_compileEach text store options
    (show text.length < text.length + 3 by omega) (Nat.le_refl _)
  rw [own] at ended alone
  rw [show text.length + 1 + 2 = text.length + 3 from rfl, own] at sameRun
  refine ⟨fun _ _ _ => TokenStream.offset_lt_of_scan,
    fun _ _ _ => TokenStream.offset_lt_of_scan_error,
    fun parser reached => Parser.recovers_synchronizeWithin reached.weight_lt_bound,
    alone.count, ended, fun bound enough => ?_⟩
  obtain ⟨larger, -⟩ := sameRun_compileEach text store options least enough
  exact ⟨larger.same.trans sameRun.same.symm, larger.store.trans sameRun.store.symm,
    larger.bag.trans sameRun.bag.symm⟩

/-- A faulty word, a semicolon and another faulty word. -/
def faulty : String := "#;#"

theorem compileEach_ends_faulty :
    ∃ failure after, TokenStream.scan (.ofString faulty .empty) = .error failure after ∧
      0 < after.cursor.offset ∧
      (Parser.ofString faulty .empty).Recovers (Parser.ofString faulty .empty).synchronize ∧
      (compileEach ((ofString faulty .empty {}).withBound 4)).1.length ≤ 3 := by
  have fails : (given? (TokenStream.scan (.ofString faulty .empty))).isNone = true := by
    decide +kernel
  obtain ⟨-, moves, recovers, count, -, larger⟩ := compileEach_ends faulty .empty {}
  cases run : TokenStream.scan (.ofString faulty .empty) with
  | ok token after => simp [run, given?] at fails
  | error failure after =>
    refine ⟨failure, after, rfl, moves _ _ _ run, recovers _ .start, ?_⟩
    rw [(larger 4 (by decide +kernel)).1]
    exact count

end Compiler

end NewtonScript
