import NewtonScript.Proofs.Pairing.Operators
import NewtonScript.Proofs.Pairing.Quoted

/-!
# Forms of paired parsers

Calls, paths, constructors, sequences, conditionals and loops are read alike by
paired parsers, given that the expressions inside them are.  A form starts with
a word of its own, so that less is left for the expressions in it.
-/

namespace NewtonScript.Pairing

open NewtonScript.Parser

variable {pairing : Pairing} {n : Nat} {expr expr' : ParseM Node}

theorem Sees.startsExpression_eq {word word' : Lexeme} (sees : pairing.Sees word word') :
    word'.startsExpression = word.startsExpression := by
  cases sees with
  | ended => rfl
  | same same => cases same <;> rfl

/-! ## Calls, paths and constructors -/

section

variable (inner : pairing.Inner n expr expr')
include inner

theorem reads_arguments :
    pairing.Reads n (arguments expr) (arguments expr') :=
  (reads_consume rfl).gives fun _ _ _ => reads_listUntil inner rfl

theorem reads_optionalExpr :
    pairing.Reads n (optionalExpr expr) (optionalExpr expr') := by
  refine agree_seeing (fun _ _ linked => linked.sees) fun lexeme lexeme' sees => ?_
  refine AgreeWhere.of_related ?_ fun _ _ holds => holds.1
  rw [sees.startsExpression_eq]
  split
  · exact inner.reads.gives fun value value' same => agree_return same.some
  · exact agree_return Matches.nothing

theorem reads_exprBehind {lexeme : Lexeme} (fixed : lexeme.isFixed = true) :
    pairing.Reads n (exprBehind expr lexeme) (exprBehind expr' lexeme) := by
  refine (reads_accept fixed).gives fun found found' flags => ?_
  cases flags.flag
  cases found with
  | true => exact inner.reads.gives fun value value' same => agree_return same.some
  | false => exact agree_return Matches.nothing

theorem reads_pathKey :
    pairing.Reads n (pathKey expr) (pathKey expr') := by
  refine (reads_accept rfl).gives fun found found' flags => ?_
  cases flags.flag
  cases found with
  | true =>
    refine inner.reads.gives fun key key' same => ?_
    refine (reads_consume rfl).gives fun _ _ _ => ?_
    exact agree_return (congrArg PathKey.computed same.node)
  | false =>
    refine reads_identifier.gives fun name name' named => ?_
    exact agree_return (congrArg PathKey.slot named.symbol)

theorem reads_message :
    pairing.Reads n (Parser.message expr) (Parser.message expr') := by
  refine reads_identifier.gives fun name name' named => ?_
  refine (reads_arguments inner).gives fun args args' same => ?_
  exact agree_return (named.pair same)

theorem reads_accesses {bound bound' : Nat} (room : pairing.Room n bound bound')
    {object object' : Node} (same : Matches pairing.view object object') :
    pairing.Reads n (accesses expr bound object) (accesses expr' bound' object') := by
  induction room generalizing object object' with
  | none loose => exact agree_of_exhausted loose (by rintro _ _ _ ⟨⟩)
  | @more n bound bound' _ ih =>
    refine agree_short fun short => ?_
    have again : ∀ m, m < n → ∀ object object' : Node, Matches pairing.view object object' →
        pairing.Reads m (accesses expr bound object)
          (accesses expr' bound' object') := fun m less _ _ =>
      ih m less (inner.lower (Nat.le_of_lt less))
    have sends : ∀ m, m < n → ∀ ifDefined, pairing.Reads m
        (Parser.message expr >>= fun sent =>
          Parser.node (.send (some object) sent.1 sent.2 ifDefined) object.span >>=
            accesses expr bound)
        (Parser.message expr' >>= fun sent =>
          Parser.node (.send (some object') sent.1 sent.2 ifDefined) object'.span >>=
            accesses expr' bound') := by
      intro m less ifDefined
      refine (reads_message (inner.lower (Nat.le_of_lt less))).gives fun sent sent' matched => ?_
      refine AgreeWhere.gives (reads_node same.span ?_) (again m less)
      simp [Expr.seen, same.node, matched.fst.symbol, matched.snd.nodes]
    refine agree_seeing (fun _ _ linked => linked.sees) fun lexeme lexeme' sees => ?_
    have stop : Agree pairing.terms (fun first second => pairing.Linked n first second ∧
        first.current.lexeme = lexeme) (pure object) (pure object') (pairing.Gives n) :=
      agree_pure fun _ _ holds => ⟨same, holds.1⟩
    have begins : lexeme ≠ .eof → ∀ {next next' : ParseM Node},
        (∀ m, m < n → pairing.Reads m next next') →
        Agree pairing.terms (fun first second => pairing.Linked n first second ∧
          first.current.lexeme = lexeme) (do let _ ← advance; next)
          (do let _ ← advance; next') (pairing.Gives n) :=
      fun word => agree_behind short fun _ _ holds => Linked.live_of_lexeme holds word
    cases sees with
    | ended => exact stop
    | same words =>
      cases words with
      | name => exact stop
      | word =>
        split
        · refine begins (by rintro ⟨⟩) fun m less => ?_
          refine (reads_pathKey (inner.lower (Nat.le_of_lt less))).gives fun key key' keys => ?_
          refine AgreeWhere.gives (reads_node same.span ?_) (again m less)
          simp only [Expr.seen_path, same.node]
          exact congrArg (Expr.path _) keys
        · exact begins (by rintro ⟨⟩) fun m less => sends m less false
        · exact begins (by rintro ⟨⟩) fun m less => sends m less true
        · refine begins (by rintro ⟨⟩) fun m less => ?_
          refine (inner.lower (Nat.le_of_lt less)).reads.gives
            fun position position' positions => ?_
          refine (reads_consume rfl).gives fun _ _ _ => ?_
          refine AgreeWhere.gives (reads_node same.span ?_) (again m less)
          simp only [Expr.seen, same.node, positions.node]
        · exact stop

/-! ## Sequences and handlers -/

/-- Where a sequence may stop: under loose terms, in front of the end. -/
def Inside (pairing : Pairing) (parser : Parser) : Prop :=
  pairing.exact ∨ parser.current.lexeme ≠ .eof

theorem inside_sequenceItems (ends : Keyword)
    {bound bound' : Nat} (room : pairing.Room n bound bound')
    {found found' : List Node} (same : Matches pairing.view found found') :
    AgreeWhere pairing.terms pairing.Inside (pairing.Linked n)
      (sequenceItems expr ends bound found) (sequenceItems expr' ends bound' found')
      (pairing.Gives n) := by
  induction room generalizing found found' with
  | none loose => exact fun _ _ _ exact => absurd exact loose
  | @more n _ _ _ ih =>
    refine agree_short fun short => ?_
    refine agree_seeing (fun _ _ linked => linked.sees) fun lexeme lexeme' sees => ?_
    refine AgreeWhere.of_related ?_ fun _ _ holds => holds.1
    rw [sees.beq_eq (rfl : (Lexeme.keyword ends).isFixed = true)]
    split
    · exact agree_return same.reverse
    · refine (inner.takes n (Nat.le_refl n)).spends fun m less item item' itemSame => ?_
      intro first second linked
      rcases linked.semicolon_or_ended with alike | ⟨loose, eof⟩
      · refine AgreeWhere.bindSame (agree_accept steady_linked (.punctuation .semicolon) rfl nofun)
          (fun another => ?_) first second ⟨linked, alike⟩
        exact agree_another short less (agree_return (itemSame.cons same).reverse) fun k less =>
          ih k less (inner.lower (Nat.le_of_lt less)) (itemSame.cons same)
      · -- The sequence stops at the end of the first text, where nothing is asked of it.
        have different : (first.current.lexeme == .punctuation .semicolon) = false := by
          rw [eof]
          rfl
        rw [run_bind_of_ok (accept_of_ne different)]
        exact fun inside => absurd eof (inside.resolve_left loose)

theorem inside_exprSequence (ends : Keyword) :
    AgreeWhere pairing.terms pairing.Inside (pairing.Linked n) (exprSequence expr ends)
      (exprSequence expr' ends) (pairing.Gives n) := by
  refine agree_of_same (fun _ _ linked => ⟨n, linked.toTied⟩) ?_
    (refusesAt_exprSequence inner.refuses ends)
  refine agree_spanning (fun _ _ holds => holds.2) fun start start' placed => ?_
  refine AgreeWhere.of_related ?_ fun _ _ holds => holds.1
  refine AgreeWhere.bindWithin (agree_bounded (fun _ _ linked => linked.ready)
    fun _ _ room => inside_sequenceItems inner ends room Matches.nil)
    (fun exact _ => .inl exact) ?_ fun items items' => ?_
  · -- Nothing is consumed behind the last item.
    intro items middle value after run inside
    rw [run_bind_of_ok (check_run (.keyword ends) middle)] at run
    cases run
    exact inside
  · refine AgreeWhere.of_fact (fun _ _ given => given.same) fun same => ?_
    refine AgreeWhere.bind ((agree_check_fixed rfl).of_related fun _ _ given => given.linked)
      fun _ _ => ?_
    refine AgreeWhere.of_related ?_ fun _ _ holds => holds.2.1
    refine AgreeWhere.restrict (reads_node placed ?_)
    simp [Expr.seen, same.nodes]

/-- What fails at the end and stands behind a sequence. -/
theorem agree_behindSequence (ends : Keyword)
    {next next' : Node → ParseM Node} (refuses : ∀ body, RefusesAt .eof (next body))
    (behind : ∀ body body', Matches pairing.view body body' →
      pairing.Reads n (next body) (next' body')) :
    pairing.Reads n (exprSequence expr ends >>= next)
      (exprSequence expr' ends >>= next') := by
  refine (inside_exprSequence inner ends).bindWithin (fun exact _ => .inl exact) ?_
    fun body body' => ?_
  · exact fun body middle value after run _ =>
      .inr fun eof => refuses body middle value after eof run
  · refine AgreeWhere.of_fact (fun _ _ given => given.same) fun same => ?_
    exact AgreeWhere.of_related (behind body body' same) fun _ _ given => given.linked

theorem reads_handlers {bound bound' : Nat} (room : pairing.Room n bound bound')
    {found found' : List Handler} (same : Matches pairing.view found found') :
    pairing.Reads n (Parser.handlers expr bound found) (Parser.handlers expr' bound' found') := by
  induction room generalizing found found' with
  | none loose => exact agree_of_exhausted loose (by rintro _ _ _ ⟨⟩)
  | more _ ih =>
    refine agree_short fun short => ?_
    refine (agree_check_fixed rfl).bindSame fun another => ?_
    refine AgreeWhere.of_related ?_ fun _ _ holds => holds.1
    rw [same.isEmpty_eq]
    split
    · refine (takes_consume rfl).spends fun m less _ _ _ => ?_
      refine reads_identifier.gives fun exception exception' named => ?_
      refine (reads_accept rfl).gives fun _ _ _ => ?_
      refine (inner.lower (Nat.le_of_lt less)).reads.gives fun body body' bodySame => ?_
      exact agree_raise (ih m less (inner.lower (Nat.le_of_lt less))
        ((named.handler bodySame).cons same)) (Nat.le_of_lt less) short
    · exact agree_return same.reverse

end

/-- The part of a `foreach` behind its names. -/
theorem reads_foreachTail {start start' : Span} (placed : start' = pairing.view.span start)
    (inner : pairing.Inner n expr expr') {key key' : Option Symbol}
    {value value' : Symbol} (keyed : Matches pairing.view key key')
    (named : Matches pairing.view value value') :
    pairing.Reads n
      (do
        let deeply ← accept (.keyword .kwDeeply)
        consume (.keyword .kwIn)
        let collection ← expr
        let collect ← accept (.keyword .kwCollect)
        if !collect then
          consume (.keyword .kwDo)
        let body ← expr
        Parser.node (.foreachLoop key value deeply collection collect body) start)
      (do
        let deeply ← accept (.keyword .kwDeeply)
        consume (.keyword .kwIn)
        let collection ← expr'
        let collect ← accept (.keyword .kwCollect)
        if !collect then
          consume (.keyword .kwDo)
        let body ← expr'
        Parser.node (.foreachLoop key' value' deeply collection collect body) start') := by
  refine (reads_accept rfl).gives fun deeply deeply' deep => ?_
  cases deep.flag
  refine (reads_consume rfl).gives fun _ _ _ => ?_
  refine inner.reads.gives fun collection collection' collectionSame => ?_
  refine (reads_accept rfl).gives fun collect collect' flags => ?_
  cases flags.flag
  have last : pairing.Reads n
      (do
        let body ← expr
        Parser.node (.foreachLoop key value deeply collection collect body) start)
      (do
        let body ← expr'
        Parser.node (.foreachLoop key' value' deeply collection' collect body) start') := by
    refine inner.reads.gives fun body body' bodySame => ?_
    refine reads_node placed ?_
    simp [Expr.seen, keyed.symbol?, named.symbol, collectionSame.node, bodySame.node]
  cases collect with
  | true => exact last
  | false => exact (reads_consume rfl).gives fun _ _ _ => last

/-! ## Forms -/

section

variable {start start' : Span} (placed : start' = pairing.view.span start)
  (inner : ∀ m, m < n → pairing.Inner m expr expr')

include placed inner

theorem begins_nameOrCall {name name' : Symbol}
    (named : pairing.view.name name = pairing.view.name name') :
    pairing.Begins n (nameOrCall expr name start)
      (nameOrCall expr' name' start') := by
  refine begins_of_advance fun m less => ?_
  refine agree_seeing (fun _ _ linked => linked.sees) fun lexeme lexeme' sees => ?_
  refine AgreeWhere.of_related ?_ fun _ _ holds => holds.1
  have alone : (Expr.name name).seen pairing.view =
      (Expr.name name').seen pairing.view.here :=
    congrArg Expr.name named
  have stop : pairing.Reads m (pure (⟨.name name, start⟩ : Node)) (pure ⟨.name name', start'⟩) :=
    agree_return (Matches.of_expr alone placed)
  cases sees with
  | ended => exact stop
  | same words =>
    cases words with
    | name => exact stop
    | word =>
      split
      · refine (reads_arguments (inner m less)).gives fun args args' same => ?_
        refine reads_node placed ?_
        simp [Expr.seen, named, same.nodes]
      · exact stop

theorem begins_implicitSend (ifDefined : Bool) :
    pairing.Begins n (implicitSend expr ifDefined start)
      (implicitSend expr' ifDefined start') := by
  refine begins_of_advance fun m less => ?_
  refine (reads_message (inner m less)).gives fun sent sent' matched => ?_
  refine reads_node placed ?_
  simp [Expr.seen, matched.fst.symbol, matched.snd.nodes]

theorem begins_parenthesized :
    pairing.Begins n (parenthesized expr start) (parenthesized expr' start') := by
  refine begins_of_advance fun m less => ?_
  refine (inner m less).reads.gives fun body body' same => ?_
  refine (reads_consume rfl).gives fun _ _ _ => ?_
  exact reads_node placed same.expr

theorem begins_arrayConstructor :
    pairing.Begins n (arrayConstructor expr start)
      (arrayConstructor expr' start') := by
  refine begins_of_advance fun m less => ?_
  refine reads_className?.gives fun className className' named => ?_
  refine (reads_listUntil (inner m less) rfl).gives fun elements elements' same => ?_
  refine reads_node placed ?_
  simp [Expr.seen, named.symbol?, same.nodes]

theorem begins_frameConstructor :
    pairing.Begins n (frameConstructor expr start)
      (frameConstructor expr' start') := by
  refine begins_of_advance fun m less => ?_
  have slot : pairing.Inner m (do let name ← slotName; return (⟨name, ← expr⟩ : Slot))
      (do let name ← slotName; return ⟨name, ← expr'⟩) := by
    refine ⟨fun k le => ?_, (refusesAt_identifier.bind _).bind _⟩
    refine takes_slotName.spends fun j fewer name name' named => ?_
    refine (inner j (by omega)).reads.gives fun value value' same => ?_
    exact agree_pure fun _ _ linked => ⟨named.slot same, j, fewer, linked⟩
  refine (reads_listUntil slot rfl).gives fun slots slots' same => ?_
  have same : slots.map (Slot.seen pairing.view) = slots'.map (Slot.seen pairing.view.here) := same
  refine reads_node placed ?_
  simp [Expr.seen, same]

theorem begins_beginForm :
    pairing.Begins n (beginForm expr start) (beginForm expr' start') := by
  refine begins_of_advance fun m less => ?_
  refine agree_behindSequence (inner m less) .kwEnd
    (fun _ => (refusesAt_consume rfl).bind _) fun body body' same => ?_
  exact (reads_consume rfl).gives fun _ _ _ => reads_node placed same.expr

theorem begins_ifForm :
    pairing.Begins n (ifForm expr start) (ifForm expr' start') := by
  refine begins_of_advance fun m less => ?_
  refine (inner m less).reads.gives fun cond cond' condSame => ?_
  refine (reads_consume rfl).gives fun _ _ _ => ?_
  refine (inner m less).reads.gives fun thenBranch thenBranch' thenSame => ?_
  refine (reads_exprBehind (inner m less) rfl).gives fun elseBranch elseBranch' elseSame => ?_
  refine reads_node placed ?_
  simp [Expr.seen, condSame.node, thenSame.node, elseSame.node?]

theorem begins_tryForm :
    pairing.Begins n (tryForm expr start) (tryForm expr' start') := by
  refine begins_of_advance fun m less => ?_
  refine agree_behindSequence (inner m less) .kwOnException
    (fun _ => .bind (.bounded refusesAt_handlers) _) fun body body' bodySame => ?_
  refine AgreeWhere.gives (agree_bounded (fun _ _ linked => linked.ready)
    fun _ _ room => reads_handlers (inner m less) room Matches.nil)
    fun found found' same => ?_
  have same : found.map (Handler.seen pairing.view) =
      found'.map (Handler.seen pairing.view.here) := same
  refine reads_node placed ?_
  simp [Expr.seen, bodySame.node, same]

theorem begins_loopForm :
    pairing.Begins n (loopForm expr start) (loopForm expr' start') := by
  refine begins_of_advance fun m less => ?_
  refine (inner m less).reads.gives fun body body' same => ?_
  refine reads_node placed ?_
  simp [Expr.seen, same.node]

theorem begins_whileForm :
    pairing.Begins n (whileForm expr start) (whileForm expr' start') := by
  refine begins_of_advance fun m less => ?_
  refine (inner m less).reads.gives fun cond cond' condSame => ?_
  refine (reads_consume rfl).gives fun _ _ _ => ?_
  refine (inner m less).reads.gives fun body body' bodySame => ?_
  refine reads_node placed ?_
  simp [Expr.seen, condSame.node, bodySame.node]

theorem begins_repeatForm :
    pairing.Begins n (repeatForm expr start) (repeatForm expr' start') := by
  refine begins_of_advance fun m less => ?_
  refine agree_behindSequence (inner m less) .kwUntil
    (fun _ => (refusesAt_consume rfl).bind _) fun body body' bodySame => ?_
  refine (reads_consume rfl).gives fun _ _ _ => ?_
  refine (inner m less).reads.gives fun cond cond' condSame => ?_
  refine reads_node placed ?_
  simp [Expr.seen, condSame.node, bodySame.node]

theorem begins_forForm :
    pairing.Begins n (forForm expr start) (forForm expr' start') := by
  refine begins_of_advance fun m less => ?_
  refine reads_identifier.gives fun var var' named => ?_
  refine (reads_consume rfl).gives fun _ _ _ => ?_
  refine (inner m less).reads.gives fun first first' firstSame => ?_
  refine (reads_consume rfl).gives fun _ _ _ => ?_
  refine (inner m less).reads.gives fun limit limit' limitSame => ?_
  refine (reads_exprBehind (inner m less) rfl).gives fun step step' stepSame => ?_
  refine (reads_consume rfl).gives fun _ _ _ => ?_
  refine (inner m less).reads.gives fun body body' bodySame => ?_
  refine reads_node placed ?_
  simp [Expr.seen, named.symbol, firstSame.node, limitSame.node, stepSame.node?, bodySame.node]

theorem begins_foreachForm :
    pairing.Begins n (foreachForm expr start) (foreachForm expr' start') := by
  refine begins_of_advance fun m less => ?_
  refine agree_short fun short => ?_
  refine reads_identifier.gives fun first first' named => ?_
  refine (agree_accept_fixed (show (Lexeme.punctuation .comma).isFixed = true from rfl)).bindSame
    fun comma => ?_
  cases comma with
  | false => exact reads_foreachTail placed (inner m less) Matches.nothing named
  | true =>
    refine AgreeWhere.of_fact (fun _ _ holds => holds.1) fun fewer => ?_
    refine AgreeWhere.of_related ?_ fun _ _ holds => holds.2
    refine reads_identifier.gives fun second second' also => ?_
    exact agree_raise (reads_foreachTail placed ((inner m less).lower (Nat.le_of_lt fewer))
      named.some also) (Nat.le_of_lt fewer) short

end

end NewtonScript.Pairing
