import NewtonScript.Proofs.Pairing.Readers

/-!
# Operators of paired parsers

Views commute with everything that is done to the stacks with which
operators are read.  So operands with operators around them are read alike,
given that operands are.
-/

namespace NewtonScript

/-- A waiting operator as it is seen. -/
def Waiting.seen (view : View) : Waiting → Waiting
  | .dyadic op precedence => .dyadic op precedence
  | .monadic op precedence span => .monadic op precedence (view.span span)

/-- Operands and waiting operators as they are seen. -/
def OperatorStacks.seen (view : View) (pending : OperatorStacks) : OperatorStacks :=
  ⟨pending.operands.map (Node.seen view), pending.operators.map (Waiting.seen view)⟩

instance : Visible Waiting := ⟨Waiting.seen⟩
instance : Visible OperatorStacks := ⟨OperatorStacks.seen⟩

section

variable (view : View)

@[simp]
theorem Waiting.precedence_seen (op : Waiting) : (op.seen view).precedence = op.precedence := by
  cases op <;> rfl

theorem Dyadic.seen_node (op : Dyadic) (lhs rhs : Node) :
    (op.node lhs rhs).seen view = op.node (lhs.seen view) (rhs.seen view) := by
  obtain ⟨lhs, span⟩ := lhs
  obtain ⟨rhs, span'⟩ := rhs
  cases op <;> simp [node, Node.seen, Expr.seen, view.join]

namespace OperatorStacks

theorem seen_apply (op : Waiting) (operands : List Node) :
    (apply op operands).map (Node.seen view) =
      apply (op.seen view) (operands.map (Node.seen view)) := by
  cases op with
  | monadic op precedence span =>
    cases operands with
    | nil => rfl
    | cons operand rest =>
      obtain ⟨expr, region⟩ := operand
      simp [apply, Waiting.seen, Node.seen, Expr.seen, view.join]
  | dyadic op precedence =>
    rcases operands with _ | ⟨rhs, _ | ⟨lhs, rest⟩⟩
    · rfl
    · rfl
    · simp [apply, Waiting.seen, Dyadic.seen_node]

theorem seen_applyWhile (holds : Nat → Bool) (operands : List Node) (operators : List Waiting) :
    (applyWhile holds operands operators).seen view =
      applyWhile holds (operands.map (Node.seen view)) (operators.map (Waiting.seen view)) := by
  induction operators generalizing operands with
  | nil => rfl
  | cons op rest ih =>
    simp only [applyWhile, List.map_cons, Waiting.precedence_seen]
    split
    · rw [ih, seen_apply]
    · rfl

end OperatorStacks

end

namespace Matches

variable {view : View} {pending pending' : OperatorStacks}

theorem monadic (op : UnaryOp) (precedence : Nat) {span span' : Span}
    (placed : span' = view.span span) :
    Matches view (Waiting.monadic op precedence span) (.monadic op precedence span') := by
  subst placed
  rfl

theorem dyadic (op : Dyadic) (precedence : Nat) :
    Matches view (Waiting.dyadic op precedence) (.dyadic op precedence) :=
  rfl

theorem stacks_mk {operands operands' : List Node} {operators operators' : List Waiting}
    (upper : Matches view operands operands') (lower : Matches view operators operators') :
    Matches view (⟨operands, operators⟩ : OperatorStacks) ⟨operands', operators'⟩ := by
  change OperatorStacks.mk _ _ = OperatorStacks.mk _ _
  exact congr (congrArg OperatorStacks.mk upper) lower

theorem operands (same : Matches view pending pending') :
    Matches view pending.operands pending'.operands :=
  congrArg OperatorStacks.operands same

theorem operators (same : Matches view pending pending') :
    Matches view pending.operators pending'.operators :=
  congrArg OperatorStacks.operators same

/-- Waiting operators are applied alike. -/
theorem applyWhile (holds : Nat → Bool) (same : Matches view pending pending') :
    Matches view (OperatorStacks.applyWhile holds pending.operands pending.operators)
      (OperatorStacks.applyWhile holds pending'.operands pending'.operators) := by
  refine (OperatorStacks.seen_applyWhile view _ _ _).trans
    (Eq.trans ?_ (OperatorStacks.seen_applyWhile view.here _ _ _).symm)
  exact congr (congrArg (OperatorStacks.applyWhile holds) same.operands) same.operators

theorem pushExists (same : Matches view pending pending') {span span' : Span}
    (placed : span' = view.span span) :
    Matches view (pending.pushExists span) (pending'.pushExists span') := by
  obtain ⟨operands, operators⟩ := pending
  obtain ⟨operands', operators'⟩ := pending'
  have upper := same.operands
  cases operands with
  | nil =>
    cases operands' with
    | nil => exact same
    | cons => cases upper
  | cons operand rest =>
    cases operands' with
    | nil => cases upper
    | cons operand' rest' =>
      have head : Matches view operand operand' := (List.cons.inj upper).1
      refine stacks_mk (cons (of_expr ?_ ?_) (List.cons.inj upper).2) same.operators
      · exact congrArg Expr.existsTest head.node
      · rw [placed, head.span, view.join]

theorem push (same : Matches view pending pending') {op op' : Waiting}
    (waiting : Matches view op op') : Matches view (pending.push op) (pending'.push op') :=
  stacks_mk same.operands (waiting.cons same.operators)

theorem result? (same : Matches view pending pending') :
    Matches view pending.result? pending'.result? := by
  have applied := (same.applyWhile fun _ => true).operands
  unfold OperatorStacks.result?
  generalize (OperatorStacks.applyWhile _ pending.operands pending.operators).operands =
    operands at applied ⊢
  generalize (OperatorStacks.applyWhile _ pending'.operands pending'.operators).operands =
    operands' at applied ⊢
  match operands, operands', applied with
  | [], [], _ => exact nothing
  | [node], [node'], applied =>
    have head : Matches view node node' := (List.cons.inj applied).1
    exact head.some
  | _ :: _ :: _, _ :: _ :: _, _ => exact nothing
  | [_], _ :: _ :: _, applied => exact absurd (congrArg List.length applied.nodes) (by simp)
  | _ :: _ :: _, [_], applied => exact absurd (congrArg List.length applied.nodes) (by simp)

end Matches

namespace Pairing

open NewtonScript.Parser

variable {pairing : Pairing} {n : Nat}

theorem Sees.monadic?_eq {word word' : Lexeme} (sees : pairing.Sees word word') :
    word'.monadic? = word.monadic? := by
  cases sees with
  | ended => rfl
  | same same => cases same <;> rfl

theorem Sees.dyadic?_eq {word word' : Lexeme} (sees : pairing.Sees word word') :
    word'.dyadic? = word.dyadic? := by
  cases sees with
  | ended => rfl
  | same same => cases same <;> rfl

theorem word_of_monadic? {lexeme : Lexeme} {entry : UnaryOp × Nat}
    (found : lexeme.monadic? = some entry) : lexeme ≠ .eof := by
  rintro rfl
  cases found

theorem word_of_dyadic? {lexeme : Lexeme} {entry : DyadicEntry}
    (found : lexeme.dyadic? = some entry) : lexeme ≠ .eof := by
  rintro rfl
  cases found

theorem agree_monadicOperators {bound bound' : Nat} (room : pairing.Room n bound bound')
    {operators operators' : List Waiting} (same : Matches pairing.view operators operators') :
    Agree pairing.terms (pairing.Ready n) (monadicOperators bound operators)
      (monadicOperators bound' operators') fun found found' first second =>
        Matches pairing.view found found' ∧ ∃ m, m ≤ n ∧ pairing.Ready m first second := by
  induction room generalizing operators operators' with
  | none loose => exact agree_of_exhausted loose (by rintro _ _ _ ⟨⟩)
  | @more n _ _ _ ih =>
    refine agree_seeing (fun _ _ ready => ready.sees) fun lexeme lexeme' sees => ?_
    rw [sees.monadic?_eq]
    cases found : lexeme.monadic? with
    | none => exact agree_pure fun _ _ holds => ⟨same, n, Nat.le_refl n, holds.1⟩
    | some entry =>
      obtain ⟨op, precedence⟩ := entry
      refine agree_advancing
        (fun _ _ holds => holds.1.live_of_lexeme holds.2 (word_of_monadic? found))
        fun token token' placed less _ => ?_
      have again := ih (n - 1) less ((Matches.monadic op precedence placed).cons same)
      refine again.mono (fun _ _ linked => linked.ready) fun _ _ _ _ given => ?_
      obtain ⟨same, m, le, ready⟩ := given
      exact ⟨same, m, by omega, ready⟩

theorem reads_existsOperators {bound bound' : Nat} (room : pairing.Room n bound bound')
    {pending pending' : OperatorStacks} (same : Matches pairing.view pending pending') :
    pairing.Reads n (existsOperators bound pending)
      (existsOperators bound' pending') := by
  induction room generalizing pending pending' with
  | none loose => exact agree_of_exhausted loose (by rintro _ _ _ ⟨⟩)
  | @more n _ _ _ ih =>
    refine agree_short fun short => ?_
    refine agree_seeing (fun _ _ linked => linked.sees) fun lexeme lexeme' sees => ?_
    have stop : Agree pairing.terms (fun first second => pairing.Linked n first second ∧
        first.current.lexeme = lexeme) (pure pending) (pure pending') (pairing.Gives n) :=
      agree_pure fun _ _ holds => ⟨same, holds.1⟩
    cases sees with
    | ended => exact stop
    | same words =>
      cases words with
      | name => exact stop
      | word =>
        split
        · refine agree_advancing (fun _ _ holds => Linked.live_of_lexeme holds nofun)
            fun token token' placed less _ => ?_
          refine agree_raise (ih (n - 1) less ?_) (Nat.le_of_lt less) short
          exact (same.applyWhile _).pushExists placed
        · exact stop

theorem agree_atMinMagnitude : Agree pairing.terms (pairing.Ready n) atMinMagnitude
    atMinMagnitude fun found found' first second => found' = found ∧
      pairing.Ready n first second ∧ (found = true → pairing.Live n first second) := by
  refine agree_seeing (fun _ _ ready => ready.sees) fun lexeme lexeme' sees => ?_
  cases sees with
  | ended => exact agree_pure fun _ _ holds => ⟨rfl, holds.1, nofun⟩
  | same same =>
    cases same with
    | name => exact agree_pure fun _ _ holds => ⟨rfl, holds.1, nofun⟩
    | word =>
      split
      · exact agree_pure fun _ _ holds =>
          ⟨rfl, holds.1, fun _ => holds.1.live_of_lexeme holds.2 nofun⟩
      · exact agree_pure fun _ _ holds => ⟨rfl, holds.1, nofun⟩

section

variable {operand operand' : ParseM Node}

theorem parses_operandBehind (parses : pairing.Parses n operand operand')
    {operators operators' : List Waiting} (same : Matches pairing.view operators operators') :
    pairing.Parses n (operandBehind operand operators)
      (operandBehind operand' operators') := by
  have plain : pairing.Parses n (do return (← operand, operators))
      (do return (← operand', operators')) := by
    refine parses.spends fun m less found found' nodes => ?_
    exact agree_pure fun _ _ linked => ⟨nodes.pair same, m, less, linked⟩
  cases operators with
  | nil =>
    cases operators' with
    | nil => exact plain
    | cons => cases same
  | cons op rest =>
    cases operators' with
    | nil => cases same
    | cons op' rest' =>
      have head : op.seen pairing.view = op'.seen pairing.view.here := (List.cons.inj same).1
      have tail : Matches pairing.view rest rest' := (List.cons.inj same).2
      cases op with
      | dyadic =>
        cases op' with
        | dyadic => exact plain
        | monadic => cases head
      | monadic unary precedence span =>
        cases op' with
        | dyadic => cases head
        | monadic unary' precedence' span' =>
          injection head with unaries _ spans
          have spans : pairing.view.span span = span' := spans
          cases unaries
          cases unary with
          | complement => exact plain
          | negate =>
            refine agree_atMinMagnitude.bindSame fun found => ?_
            cases found with
            | false => exact plain.of_related fun _ _ holds => holds.1
            | true =>
              refine agree_advancing (fun _ _ holds => holds.2 rfl)
                fun token token' placed less _ => ?_
              refine agree_pure fun _ _ linked =>
                ⟨Matches.pair (Matches.of_expr rfl ?_) tail, n - 1, less, linked⟩
              rw [placed, pairing.view.join, spans]

/-- Operands with the operators around them are read alike. -/
theorem parses_operations (parses : ∀ m, m ≤ n → pairing.Parses m operand operand')
    {bound bound' : Nat} (room : pairing.Room n bound bound')
    {pending pending' : OperatorStacks} (same : Matches pairing.view pending pending') :
    pairing.Parses n (operations operand bound pending)
      (operations operand' bound' pending') := by
  induction room generalizing pending pending' with
  | none loose => exact agree_of_exhausted loose (by rintro _ _ _ ⟨⟩)
  | more _ ih =>
    refine (agree_bounded (fun _ _ ready => ready) fun _ _ room =>
      agree_monadicOperators room same.operators).bind
        fun operators operators' first second given => ?_
    obtain ⟨waiting, m, le, ready⟩ := given
    refine AgreeWhere.spends (parses_operandBehind (parses m le) waiting)
      (fun k less found found' matched => ?_) first second ready
    have stacked := (matched.fst.cons same.operands).stacks_mk matched.snd
    refine AgreeWhere.gives (agree_bounded (fun _ _ linked => linked.ready)
      fun _ _ room => reads_existsOperators room stacked)
      fun pending pending' same => ?_
    refine agree_seeing (fun _ _ linked => linked.sees) fun lexeme lexeme' sees => ?_
    rw [sees.dyadic?_eq]
    cases found : lexeme.dyadic? with
    | some entry =>
      refine agree_advancing (fun _ _ holds => Linked.live_of_lexeme holds (word_of_dyadic? found))
        fun _ _ _ fewer _ => ?_
      have applied : Matches pairing.view (pending.applyFor entry)
          (pending'.applyFor entry) :=
        same.applyWhile _
      have again := ih (k - 1) (by omega) (fun j le => parses j (by omega))
        (applied.push (Matches.dyadic entry.op entry.precedence))
      refine again.mono (fun _ _ linked => linked.ready) fun _ _ _ _ given => ?_
      obtain ⟨same, j, fewer, linked⟩ := given
      exact ⟨same, j, by omega, linked⟩
    | none =>
      refine AgreeWhere.of_related ?_ fun _ _ holds => holds.1
      have results := same.result?
      cases left : pending.result? with
      | none =>
        cases right : pending'.result? with
        | none => exact agree_unexpectedFor _ fun _ _ linked => ⟨k, linked.ready⟩
        | some node' =>
          rw [left, right] at results
          cases results
      | some node =>
        cases right : pending'.result? with
        | none =>
          rw [left, right] at results
          cases results
        | some node' =>
          rw [left, right] at results
          exact agree_pure fun _ _ linked =>
            ⟨Option.some.inj results, k, by omega, linked⟩

end

end Pairing

end NewtonScript
