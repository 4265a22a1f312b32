import NewtonScript.Proofs.Compiler.Blocks
import NewtonScript.Proofs.Tree.Numbered
import NewtonScript.Proofs.Tree.Precedence

/-!
# Integers of thirty bits

A word may be an integer that is one too large.  It is read only as the
magnitude of the smallest integer, directly behind its sign, and a negation is
folded only where its result is in range.  So all integers are in range that
are read from a text, bound to constants and left in code.
-/

namespace NewtonScript

open Bytecode Emission

/-! ## The magnitude of the smallest integer -/

namespace Parser

/-- The magnitude of the smallest integer is refused. -/
def RefusesMagnitude {α : Type} (action : ParseM α) : Prop :=
  ∀ parser, parser.current.lexeme = .magnitude →
    action parser = .error ⟨.integerOutOfRange "536870912", parser.current.span⟩ parser

theorem refusesMagnitude_operand (expr : ParseM Node) : RefusesMagnitude (operand expr) := by
  intro parser looks
  have refused : primary expr parser =
      .error ⟨.integerOutOfRange "536870912", parser.current.span⟩ parser := by
    rw [primary, run_bind_of_ok (show currentSpan parser = .ok parser.current.span parser from rfl),
      run_bind_of_ok (currentLexeme_run parser), looks]
    rfl
  exact run_bind_of_error refused _

theorem refusesMagnitude_quoted (depth : Nat) : RefusesMagnitude (quoted (depth + 1)) := by
  intro parser looks
  rw [quoted, run_bind_of_ok (currentLexeme_run parser), looks]
  rfl

/-- An action consumes the magnitude of the smallest integer only behind signs,
and refuses it for its size only elsewhere. -/
def TakesSigned {α : Type} (action : ParseM α) : Prop :=
  ∀ parser first, prime parser = .ok () first → match action parser with
    | .ok _ after => ∃ row, Trail first row after ∧ SignedOnly row
    | .error failure after => Stops first failure after

theorem takesSigned_of_gathers {α : Type} [Carrier α] {rest : Unit → ParseM α} {post : Here}
    (gathers : ∀ walk : Walk, walk.Gathers Walk.Ready [] (prime >>= rest) post) :
    TakesSigned (prime >>= rest) := by
  intro parser first primed
  have outcome := outcome_of_gathers gathers (Ledger.at_numbering parser)
  cases run : (prime >>= rest) parser with
  | ok value after =>
    rw [run] at outcome
    exact outcome.2 first primed
  | error failure after =>
    rw [run] at outcome
    exact outcome.2 first primed

/-- How the magnitude of the smallest integer is read.  Whole programs and
single commands take it only behind signs, and where an operand or a quoted
object would begin with it, it is refused.  Behind a sign it gives the smallest
integer. -/
structure TakesMagnitude : Prop where
  program : TakesSigned program
  command : TakesSigned nextCommand
  notFirst : ∀ expr, RefusesMagnitude (operand expr)
  notQuoted : ∀ depth, RefusesMagnitude (quoted (depth + 1))
  negated : ∀ expr bound operators parser minus middle number after,
    parser.current.lexeme = .operator .minus → advance parser = .ok minus middle →
    middle.current.lexeme = .magnitude → advance middle = .ok number after →
      (monadicOperators (bound + 2) operators >>= operandBehind (operand expr)) parser =
          .ok (⟨.literal (.int minInt), minus.span.join number.span⟩, operators) after ∧
        quoted (bound + 1) parser = .ok (.int minInt) after

theorem takesMagnitude : TakesMagnitude where
  program := takesSigned_of_gathers fun _ => Walk.gathers_program
  command := takesSigned_of_gathers fun _ => Walk.gathers_nextCommand
  notFirst := refusesMagnitude_operand
  notQuoted := refusesMagnitude_quoted
  negated := by
    intro expr bound operators parser minus middle number after sign signRead looks read
    constructor
    · have signs : monadicOperators (bound + 2) operators parser =
          .ok (.monadic .negate 11 minus.span :: operators) middle := by
        rw [monadicOperators, run_bind_of_ok (currentLexeme_run parser), sign]
        refine (run_bind_of_ok signRead _).trans ?_
        rw [monadicOperators, run_bind_of_ok (currentLexeme_run middle), looks]
        rfl
      have isMagnitude : atMinMagnitude middle = .ok true middle := by
        rw [atMinMagnitude, run_bind_of_ok (currentLexeme_run middle), looks]
        rfl
      rw [run_bind_of_ok signs, operandBehind, run_bind_of_ok isMagnitude]
      exact run_bind_of_ok read _
    · rw [quoted, run_bind_of_ok (currentLexeme_run parser), sign]
      refine (run_bind_of_ok signRead _).trans ?_
      rw [negativeNumber, run_bind_of_ok (currentLexeme_run middle), looks]
      exact run_bind_of_ok read _

end Parser

/-! ## Negations -/

/-- A number below minus signs, and what it comes to. -/
inductive Node.Negates : Node → Int → Prop where
  | literal (n : Int) (span : Span) : Negates ⟨.literal (.int n), span⟩ n
  | negate {operand : Node} {n : Int} (inner : Negates operand n) (span : Span) :
      Negates ⟨.unary .negate operand, span⟩ (-n)

theorem negateConstant?_eq_int {value : Value} {m : Int} (found : negateConstant? value = some (.int m)) :
    value = .int (-m) := by
  cases value with
  | int n =>
    simp only [negateConstant?, Option.ite_none_right_eq_some, Option.some.injEq,
      Value.int.injEq] at found
    rw [← found.2, Int.neg_neg]
  | _ => cases found

theorem Node.negates_of_folded {node : Node} {m : Int}
    (found : foldedNegation? node = some (.int m)) : node.Negates (-m) := by
  fun_induction foldedNegation? node generalizing m with
  | case1 value span =>
    cases negateConstant?_eq_int found
    exact .literal _ _
  | case2 operand span ih =>
    obtain ⟨inner, folded, negated⟩ := Option.bind_eq_some_iff.mp found
    cases negateConstant?_eq_int negated
    simpa using Negates.negate (ih folded) span
  | case3 => cases found

/-- Negations are folded exactly, and the result is pushed; or not at all: what
is emitted is then a subtraction, and a constant is refused. -/
structure FoldsExactly : Prop where
  negation : ∀ n, negateConstant? (.int n) = if (Value.int (-n)).fits then some (.int (-n)) else none
  folded : ∀ node m, foldedNegation? node = some (.int m) → node.Negates (-m)
  pushed : ∀ operand span discard folded, foldedNegation? operand = some folded →
    emit ⟨.unary .negate operand, span⟩ discard = (do
      pushValue folded
      return true)
  immediate : ∀ value operand, Immediate.ofValue? value = some operand →
    pushValue value = op .pushConstant operand.toNat ∧ Immediate.toValue operand = value
  literal : ∀ value, Immediate.ofValue? value = none → pushValue value = pushLiteral value
  emitted : ∀ operand span discard, foldedNegation? operand = none →
    emit ⟨.unary .negate operand, span⟩ discard = (do
      pushInt 0
      value (emit operand)
      frequent .subtract
      return true)
  declared : ∀ scopes store id operand span,
    Declaration.constantValue? scopes store id ⟨.unary .negate operand, span⟩ =
      (Declaration.constantValue? scopes store id operand).bind negateConstant?
  refused : ∀ id name span state, Declaration.bindConstant id name none span state =
    .error ⟨.nonLiteralConstant name, span⟩ state

theorem foldsExactly : FoldsExactly where
  negation n := by simp [negateConstant?, Value.fits]
  folded _ _ := Node.negates_of_folded
  pushed operand span discard folded found := by
    rw [emit, emitExpr, found]
  immediate value operand found := by
    refine ⟨?_, Immediate.toValue_of_ofValue? found⟩
    rw [pushValue, found]
  literal value none := by
    rw [pushValue, none]
  emitted operand span discard none := by
    rw [emit, emitExpr, none]
  declared _ _ _ _ _ := by rw [Declaration.constantValue?]
  refused _ _ _ _ := rfl

/-! ## Everything in range -/

/-- The integers in the literals of a tree are in range. -/
def Node.Fits (tree : Node) : Prop :=
  ∀ value span, tree.Occurs ⟨.literal value, span⟩ → value.fits

/-- The integers in local constants are in range. -/
def Scopes.Fit (scopes : Scopes) : Prop :=
  ∀ id name value, (scopes.get id).constants.get? name = some value → value.fits

/-- The integers in global constants are in range. -/
def Store.Fits (store : Store) : Prop :=
  ∀ name value, store.constants.get? name = some value → value.fits

/-- The integers that a block pushes are in range: those among its literals, and
those in operands. -/
structure CodeBlock.PushesFit (block : CodeBlock) : Prop where
  literals : ∀ value ∈ block.literals.getD [], value.fits
  operands : ∀ instructions, decodeAll block.code = .ok instructions → ∀ located ∈ instructions,
    located.instruction.op = .pushConstant → (Immediate.toValue located.instruction.operand).fits

/-- The integers in a block and in the blocks inside it are in range. -/
def CodeBlock.Fits (block : CodeBlock) : Prop :=
  ∀ inner ∈ block :: block.nested, inner.PushesFit

theorem fits_toValue (operand : UInt16) : (Immediate.toValue operand).fits := by
  have bounds : minInt ≤ Immediate.signed operand / 4 ∧ Immediate.signed operand / 4 ≤ maxInt := by
    have small := operand.toNat_lt
    unfold Immediate.signed minInt maxInt
    split <;> omega
  unfold Immediate.toValue
  repeat' split
  all_goals simp [Value.fits, bounds]

namespace Compiler

variable {text : String} {store : Store} {options : Options} {tree : Node} {block : CodeBlock}

theorem keeps_ofString (text : String) (options : Options) (empty : ∀ value, ¬ store.Defines value) :
    (Compiler.ofString text store options).Keeps True store options where
  options_eq := rfl
  store := ⟨fun value defined => absurd defined (empty value),
    fun distinct => distinct.mono fun _ admits => admits.1⟩
  parser _ := ⟨trivial, fun _ found => absurd found (Option.not_mem_none _),
    fun _ found => absurd found (Option.not_mem_none _)⟩

theorem Keeps.fits {compiler : Compiler} (keeps : compiler.Keeps True store options) :
    compiler.store.Fits :=
  fun name value found => (keeps.store.constants value ⟨name, found⟩).2 trivial

theorem fits_of_suits (suits : tree.Suits True) : tree.Fits :=
  fun value span occurs => (suits value span occurs).2 trivial

theorem fits_of_madeOf (empty : ∀ value, ¬ store.Defines value)
    (made : MadeOf True store options tree block) :
    block.Fits ∧ ∃ scopes : Scopes, scopes.Of tree ∧ scopes.Fit := by
  obtain ⟨setting, -, admits, made⟩ := made
  have ofSealed : ∀ {id body inner}, SealedAs setting id body inner → inner.PushesFit := by
    rintro id body inner ⟨pool, final, code, sealed⟩
    refine ⟨fun value member => ?_, fun _ _ _ _ _ => fits_toValue _⟩
    rw [sealed.literals_eq] at member
    rcases sealed.origins value member with known | ⟨shape, -, rfl⟩ | ⟨_, _, rfl⟩
    · exact (admits value known).2 trivial
    · rfl
    · rfl
  refine ⟨List.forall_mem_cons.mpr ⟨ofSealed made.whole, fun inner member => ?_⟩, setting.scopes,
    made.scopes, ?_⟩
  · rcases made.nested inner member with ⟨value, defined, -⟩ | ⟨_, _, _, -, sealed⟩
    · exact absurd defined (empty value)
    · exact ofSealed sealed
  · exact fun id name value found => (admits value (setting.known_local id name value found)).2 trivial

theorem ensures_compile {strict : Prop} :
    Preserves (Keeps strict store options) compile := by
  refine ensures_get.bind fun compiler _ => ?_
  split
  · refine ensures_nextCommand.bind fun found suits => ?_
    cases found with
    | some tree => exact (ensures_compileTree (suits tree rfl)).preserves
    | none => exact (ensures_compileTree suits_nothing).preserves
  · exact (ensures_parse fun _ => Parser.ensures_program).bind fun tree suits =>
      (ensures_compileTree suits).preserves

/-- All integers are in range that are read from a text, bound to local and
global constants and left in code, if there were no constants before.  The
magnitude of the smallest integer is read exactly behind signs, and negations
are folded exactly or not at all. -/
theorem integers_in_range (empty : ∀ value, ¬ store.Defines value) :
    (∀ tree middle, Reads (.ofString text store options) tree middle → tree.Fits ∧
      ∀ scopes final, step (Scopes.ofTree tree) middle = .ok scopes final → scopes.Fit) ∧
    (∀ block, ((∃ final, compile (.ofString text store options) = .ok block final) ∨
        .ok block ∈ (compileEach (.ofString text store options)).1) →
      block.Fits ∧ ∃ (tree : Node) (scopes : Scopes), Compiles store options tree block ∧
        tree.Fits ∧ scopes.Of tree ∧ scopes.Fit) ∧
    (∀ block final, compile (.ofString text store options) = .ok block final → final.store.Fits) ∧
    (∀ failure final, compile (.ofString text store options) = .error failure final →
      final.store.Fits) ∧
    (compileEach (.ofString text store options)).2.store.Fits ∧
    Parser.TakesMagnitude ∧ FoldsExactly := by
  have keeps := keeps_ofString text options empty
  refine ⟨fun tree middle reads => ?_, fun block compiled => ?_, fun block final run => ?_,
    fun failure final run => ?_, (comes_of_compileEach keeps).1.fits, Parser.takesMagnitude,
    foldsExactly⟩
  · obtain ⟨kept, suits⟩ := reads.keeps keeps
    refine ⟨fits_of_suits suits, fun scopes final run id name value found => ?_⟩
    obtain ⟨entry, member, rfl⟩ := Table.exists_mem_of_get? found
    exact (((ensures_ofTree suits).of_ok kept run).2.1 id entry member).2 trivial
  · obtain ⟨tree, comes⟩ := comes_of_compiled keeps compiled
    obtain ⟨suits, made⟩ := comes.madeOf
    obtain ⟨fits, scopes, ofTree, fit⟩ := fits_of_madeOf empty made
    exact ⟨fits, tree, scopes, comes.compiles, fits_of_suits suits, ofTree, fit⟩
  · exact (ensures_compile.of_ok keeps run).1.fits
  · exact (ensures_compile.of_error keeps run).1.fits

/-- The smallest integer as a constant, quoted, and negated twice. -/
def smallest : String :=
  "constant low := -536870912; ['[-536870912], low, - -low, - -536870912]"

theorem integers_in_range_smallest :
    ∃ block final, compile (.ofString smallest .empty {}) = .ok block final ∧
      Value.int minInt ∈ block.literals.getD [] ∧ block.Fits ∧ final.store.Fits := by
  have gives : (given? (compile (.ofString smallest .empty {}))).map
      (fun block => (block.literals.getD []).any (Value.sameLiteral (.int minInt))) = some true := by
    decide +kernel
  obtain ⟨block, found, pushed⟩ := Option.map_eq_some_iff.mp gives
  obtain ⟨final, run⟩ := exists_of_given? found
  have empty : ∀ value, ¬ Store.empty.Defines value := by
    rintro value ⟨name, defined⟩
    cases defined
  obtain ⟨-, blocks, left, -⟩ := @integers_in_range smallest .empty {} empty
  refine ⟨block, final, run, ?_, (blocks block (.inl ⟨final, run⟩)).1, left block final run⟩
  obtain ⟨value, member, same⟩ := List.any_eq_true.mp pushed
  cases value <;> simp_all [Value.sameLiteral]

end Compiler

end NewtonScript
