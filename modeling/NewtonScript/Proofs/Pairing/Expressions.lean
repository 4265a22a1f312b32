import NewtonScript.Proofs.Pairing.Forms

/-!
# Expressions of paired parsers

Declarations, functions and the other operands are read alike by paired
parsers.  Nested as deep as there are tokens, expressions have all the room
that they need, so that they are read alike altogether.
-/

namespace NewtonScript.Pairing

open NewtonScript.Parser

variable {pairing : Pairing} {n : Nat} {expr expr' : ParseM Node}

/-! ## Declarations and functions -/

/-- One name of a declaration, with its value; a constant must have one. -/
theorem takes_binding (inner : pairing.Inner n expr expr') (constant : Bool) :
    pairing.Takes n (Parser.binding expr constant) (Parser.binding expr' constant) := by
  refine agree_of_same (fun _ _ linked => ⟨n, linked.toTied⟩) ?_
    (.spanning fun _ => refusesAt_annotated (refusesAt_identifier.bind _))
  refine agree_spanning (fun _ _ holds => holds.2) fun start start' placed => ?_
  refine AgreeWhere.of_related ?_ fun _ _ holds => holds.1
  refine reads_annotation?.gives fun type type' typed => ?_
  refine takes_identifier.spends fun m less name name' named => ?_
  have last : ∀ value value' : Option Node, Matches pairing.view value value' →
      Agree pairing.terms (pairing.Linked m)
        (do return (⟨name, type, value, ← spanFrom start⟩ : Binding))
        (do return ⟨name', type', value', ← spanFrom start'⟩) (pairing.Spends n) := by
    intro value value' same
    refine (reads_spanFrom placed).gives fun span span' spans => ?_
    exact agree_pure fun _ _ linked => ⟨named.binding typed same spans, m, less, linked⟩
  have inner := inner.lower (Nat.le_of_lt less)
  cases constant with
  | true =>
    refine (reads_consume rfl).gives fun _ _ _ => ?_
    exact inner.reads.gives fun value value' same => last (some value) (some value') same.some
  | false => exact (reads_exprBehind inner rfl).gives last

theorem inner_param : pairing.Inner n Parser.param Parser.param := by
  have refuses : RefusesAt .eof Parser.param :=
    .spanning fun _ => refusesAt_annotated (refusesAt_identifier.bind _)
  refine ⟨fun m le => ?_, refuses⟩
  refine agree_of_same (fun _ _ linked => ⟨m, linked.toTied⟩) ?_ refuses
  refine agree_spanning (fun _ _ holds => holds.2) fun start start' placed => ?_
  refine AgreeWhere.of_related ?_ fun _ _ holds => holds.1
  refine reads_annotation?.gives fun type type' typed => ?_
  refine takes_identifier.spends fun k less name name' named => ?_
  refine (reads_spanFrom placed).gives fun span span' spans => ?_
  exact agree_pure fun _ _ linked => ⟨named.param typed spans, k, less, linked⟩

theorem reads_functionTail {start start' : Span} (placed : start' = pairing.view.span start)
    (inner : pairing.Inner n expr expr') (native : Bool)
    {name name' : Option Symbol} (named : Matches pairing.view name name') :
    pairing.Reads n (functionTail expr native name start)
      (functionTail expr' native name' start') := by
  refine (reads_consume rfl).gives fun _ _ _ => ?_
  refine (reads_listUntil inner_param rfl).gives fun params params' paramsSame => ?_
  refine inner.reads.gives fun body body' bodySame => ?_
  refine agree_newFunction.bind fun id id' => ?_
  refine AgreeWhere.of_fact (fun _ _ holds => holds.1) fun numbered => ?_
  refine AgreeWhere.of_related ?_ fun _ _ holds => holds.2
  have same : params.map (Param.seen pairing.view) =
      params'.map (Param.seen pairing.view.here) := paramsSame
  refine reads_node placed ?_
  simp [Expr.seen, numbered, same, bodySame.node, named.symbol?]

section

variable {start start' : Span} (placed : start' = pairing.view.span start)
  (inner : ∀ m, m < n → pairing.Inner m expr expr')

include placed inner

theorem begins_declaration (constant : Bool) :
    pairing.Begins n (declaration expr constant start)
      (declaration expr' constant start') := by
  refine begins_of_advance fun m less => ?_
  have binding : pairing.Inner m (Parser.binding expr constant) (Parser.binding expr' constant) :=
    ⟨fun k le => takes_binding (inner k (by omega)) constant,
      .spanning fun _ => refusesAt_annotated (refusesAt_identifier.bind _)⟩
  refine (reads_commaList binding).gives fun bindings bindings' same => ?_
  have same : bindings.map (Binding.seen pairing.view) =
      bindings'.map (Binding.seen pairing.view.here) := same
  refine reads_node placed ?_
  cases constant <;> simp [Expr.seen, same]

theorem begins_funcForm :
    pairing.Begins n (funcForm expr start) (funcForm expr' start') := by
  refine begins_of_advance fun m less => ?_
  refine (reads_accept rfl).gives fun native native' flags => ?_
  cases flags.flag
  exact reads_functionTail placed (inner m less) native Matches.nothing

theorem begins_globalForm :
    pairing.Begins n (globalForm expr start) (globalForm expr' start') := by
  refine begins_of_advance fun m less => ?_
  refine reads_identifier.gives fun name name' named => ?_
  refine (agree_check_fixed rfl).bindSame fun found => ?_
  cases found with
  | true =>
    refine agree_spanning (fun _ _ holds => (holds.1.reading ?_).1) fun inside inside' within => ?_
    · rw [holds.2 rfl]
      nofun
    · refine AgreeWhere.of_related ?_ fun _ _ holds => holds.1
      refine AgreeWhere.gives (reads_functionTail within (inner m less) false named.some)
        fun function function' same => ?_
      refine reads_node placed ?_
      simp [Expr.seen, named.symbol, same.node]
  | false =>
    refine AgreeWhere.of_related ?_ fun _ _ holds => holds.1
    refine (reads_exprBehind (inner m less) rfl).gives fun value value' same => ?_
    refine reads_node placed ?_
    simp [Expr.seen, named.symbol, same.node?]

theorem begins_breakForm :
    pairing.Begins n (breakForm expr start) (breakForm expr' start') := by
  refine begins_of_advance fun m less => ?_
  refine (reads_optionalExpr (inner m less)).gives fun value value' same => ?_
  refine reads_node placed ?_
  simp [Expr.seen, same.node?]

theorem begins_returnForm :
    pairing.Begins n (returnForm expr start) (returnForm expr' start') := by
  refine begins_of_advance fun m less => ?_
  refine (reads_optionalExpr (inner m less)).gives fun value value' same => ?_
  refine reads_node placed ?_
  simp [Expr.seen, same.node?]

theorem begins_callForm :
    pairing.Begins n (callForm expr start) (callForm expr' start') := by
  refine begins_of_advance fun m less => ?_
  refine (inner m less).reads.gives fun function function' same => ?_
  refine (reads_consume rfl).gives fun _ _ _ => ?_
  refine (reads_arguments (inner m less)).gives fun args args' argsSame => ?_
  refine reads_node placed ?_
  simp [Expr.seen, same.node, argsSame.nodes]

theorem begins_inheritedForm :
    pairing.Begins n (inheritedForm expr start) (inheritedForm expr' start') := by
  refine begins_of_advance fun m less => ?_
  refine (reads_accept rfl).gives fun ifDefined ifDefined' flags => ?_
  cases flags.flag
  have last : pairing.Reads m
      (Parser.message expr >>= fun sent => Parser.node (.resend sent.1 sent.2 ifDefined) start)
      (Parser.message expr' >>= fun sent =>
        Parser.node (.resend sent.1 sent.2 ifDefined) start') := by
    refine (reads_message (inner m less)).gives fun sent sent' matched => ?_
    refine reads_node placed ?_
    simp [Expr.seen, matched.fst.symbol, matched.snd.nodes]
  cases ifDefined with
  | true => exact last
  | false => exact (reads_consume rfl).gives fun _ _ _ => last

theorem begins_keywordForm (word : Keyword) :
    pairing.Begins n (keywordForm expr word start)
      (keywordForm expr' word start') := by
  cases word with
  | kwSelf =>
    refine begins_of_advance fun m less => ?_
    exact agree_return (Matches.of_expr rfl placed)
  | kwIf => exact begins_ifForm placed inner
  | kwWhile => exact begins_whileForm placed inner
  | kwRepeat => exact begins_repeatForm placed inner
  | kwFor => exact begins_forForm placed inner
  | kwForeach => exact begins_foreachForm placed inner
  | kwTry => exact begins_tryForm placed inner
  | kwGlobal => exact begins_globalForm placed inner
  | kwFunc => exact begins_funcForm placed inner
  | kwLoop => exact begins_loopForm placed inner
  | kwBegin => exact begins_beginForm placed inner
  | kwLocal => exact begins_declaration placed inner false
  | kwConstant => exact begins_declaration placed inner true
  | kwBreak => exact begins_breakForm placed inner
  | kwReturn => exact begins_returnForm placed inner
  | kwCall => exact begins_callForm placed inner
  | kwInherited => exact begins_inheritedForm placed inner
  | _ => exact agree_unexpectedFor _ fun _ _ live => ⟨n, live.ready⟩

end

/-! ## Operands -/

theorem parses_primary (inner : ∀ m, m < n → pairing.Inner m expr expr') :
    pairing.Parses n (primary expr) (primary expr') := by
  refine agree_of_same (fun _ _ ready => ⟨n, ready.toTied⟩) ?_ (refusesAt_primary rfl)
  refine agree_spanning (fun _ _ holds => holds.2) fun start start' placed => ?_
  refine AgreeWhere.of_related ?_ fun _ _ holds => holds.1
  refine agree_seeing (fun _ _ ready => ready.sees) fun lexeme lexeme' sees => ?_
  have refused : Agree pairing.terms (fun first second => pairing.Ready n first second ∧
      first.current.lexeme = lexeme) (unexpectedFor .expression : ParseM Node)
      (unexpectedFor .expression) (pairing.Spends n) :=
    agree_unexpectedFor _ fun _ _ holds => ⟨n, holds.1⟩
  have begins : lexeme ≠ .eof → ∀ {form form' : ParseM Node}, pairing.Begins n form form' →
      Agree pairing.terms (fun first second => pairing.Ready n first second ∧
        first.current.lexeme = lexeme) form form' (pairing.Spends n) :=
    fun word _ _ agree => AgreeWhere.of_related agree
      fun _ _ holds => holds.1.live_of_lexeme holds.2 word
  cases sees with
  | ended => exact refused
  | same words =>
    cases words with
    | name named => exact begins nofun (begins_nameOrCall placed inner named)
    | word noName =>
      split
      · refine (agree_checkRange _ fun _ _ holds => ⟨n, holds.1⟩).bind fun _ _ => ?_
        refine begins nofun (begins_of_advance fun m less => ?_)
        refine (reads_literalValue _).gives fun value value' same => ?_
        have literals : (Expr.literal value).seen pairing.view =
            (Expr.literal value').seen pairing.view.here :=
          congrArg Expr.literal same.value
        exact agree_return (Matches.of_expr literals placed)
      · cases noName
      · exact begins nofun (begins_keywordForm placed inner _)
      · exact begins nofun (begins_parenthesized placed inner)
      · exact begins nofun (begins_arrayConstructor placed inner)
      · exact begins nofun (begins_frameConstructor placed inner)
      · refine begins nofun (begins_of_advance fun m less => ?_)
        refine AgreeWhere.gives (agree_bounded (fun _ _ linked => linked.ready)
          fun _ _ room => Takes.reads (Parses.takes (parses_quoted room)))
          fun value value' same => ?_
        exact reads_node placed (congrArg Expr.literal same.value)
      · exact begins nofun (begins_implicitSend placed inner false)
      · exact begins nofun (begins_implicitSend placed inner true)
      · exact refused

theorem parses_operand (inner : ∀ m, m < n → pairing.Inner m expr expr') :
    pairing.Parses n (Parser.operand expr) (Parser.operand expr') := by
  refine (parses_primary inner).spends fun m less object object' same => ?_
  refine AgreeWhere.weaken (agree_bounded (fun _ _ linked => linked.ready)
    fun _ _ room => reads_accesses (inner m less) room same)
    fun _ _ _ _ given => ?_
  exact ⟨given.same, m, less, given.linked⟩

/-- Expressions are read alike. -/
theorem parses_expression {depth depth' : Nat} (room : pairing.Room n depth depth') :
    pairing.Parses n (expression depth) (expression depth') := by
  induction room with
  | none loose => exact agree_of_exhausted loose (by rintro _ _ _ ⟨⟩)
  | @more n depth depth' _ ih =>
    have inner : ∀ m, m < n →
        pairing.Inner m (expression depth) (expression depth') :=
      fun m less => ⟨fun k le => Parses.takes (ih k (by omega)), refusesAt_expression rfl depth⟩
    refine agree_bounded (fun _ _ ready => ready) fun _ _ room => ?_
    exact parses_operations (fun m le => parses_operand fun k less => inner k (by omega)) room
      (Matches.nil.stacks_mk Matches.nil)

end NewtonScript.Pairing
