import NewtonScript.Compiler
import NewtonScript.Proofs.Pairing.Commands

/-!
# Compilers of paired parsers

Compiling a tree uses the store and the reports, and nothing else of a
compiler.  Paired parsers read the same program, or fail together.
-/

namespace NewtonScript

namespace Parser

/-- The rest of a program, from where its first token starts. -/
def programFrom (start : Span) : ParseM Node := do
  let found ← bounded fun bound => commands bound []
  if found.isEmpty then
    return ⟨.begin [], start⟩
  else
    node (.begin found) start

theorem bound_ofString (text : String) (store : Store) :
    (ofString text store).bound = text.length + 3 := by
  change text.toList.length + 3 = _
  rw [String.length_toList]

theorem weight_ofString (text : String) (store : Store) :
    (ofString text store).weight = text.length := by
  exact String.length_toList

end Parser

namespace Compiler

section

variable {α : Type} {action : Parser.ParseM α} {compiler : Compiler} {parser : Parser}

theorem parse_of_ok {value : α} (run : action compiler.parser = .ok value parser) :
    parse action compiler = .ok value { compiler with parser } := by
  rw [parse, run]

theorem parse_of_error {failure : Failure} (run : action compiler.parser = .error failure parser) :
    parse action compiler = .error failure { compiler with parser } := by
  rw [parse, run]

end

@[simp]
theorem store_withStore (compiler : Compiler) (store : Store) (bag : DiagnosticBag) :
    (compiler.withStore store bag).store = store :=
  rfl

@[simp]
theorem bag_withStore (compiler : Compiler) (store : Store) (bag : DiagnosticBag) :
    (compiler.withStore store bag).bag = bag :=
  rfl

section

variable {α β : Type}

theorem step_bind (action : Store → DiagnosticBag → Except Failure α × Store × DiagnosticBag)
    (next : α → CompileM β) (compiler : Compiler) :
    (step action >>= next) compiler = match action compiler.store compiler.bag with
      | (.ok result, store, bag) => next result (compiler.withStore store bag)
      | (.error failure, store, bag) => .error failure (compiler.withStore store bag) := by
  change EStateM.bind (step action) next compiler = _
  rw [EStateM.bind, step]
  rcases action compiler.store compiler.bag with ⟨failure | result, store, bag⟩ <;> rfl

end

/-- What compiling a tree makes of a store and of the reports. -/
def treeOutcome (tree : Node) (options : Options) (store : Store) (bag : DiagnosticBag) :
    Except Failure CodeBlock × Store × DiagnosticBag :=
  match Scopes.ofTree tree store bag with
  | (.error failure, store, bag) => (.error failure, store, bag)
  | (.ok declared, store, bag) =>
    match declared.withReferences tree with
    | .error failure => (.error failure, store, bag)
    | .ok scopes =>
      match CodeBlock.ofTree tree scopes options store bag with
      | (.error failure, store, bag) => (.error failure, store, bag)
      | (.ok block, store, bag) => (.ok block, defineConstants scopes store, bag)

/-- A tree is compiled with the store and the reports alone. -/
theorem compileTree_eq (tree : Node) (compiler : Compiler) :
    compileTree tree compiler = step (treeOutcome tree compiler.options) compiler := by
  change (step (Scopes.ofTree tree) >>= _) compiler = _
  rw [step_bind, step, treeOutcome]
  rcases Scopes.ofTree tree compiler.store compiler.bag with ⟨failure | declared, store, bag⟩
  · rfl
  · dsimp only
    cases declared.withReferences tree with
    | error failure => rfl
    | ok scopes =>
      change (step (CodeBlock.ofTree tree scopes compiler.options) >>= _)
        (compiler.withStore store bag) = _
      rw [step_bind, store_withStore, bag_withStore]
      dsimp only
      rcases CodeBlock.ofTree tree scopes compiler.options store bag with
        ⟨failure | block, store, bag⟩ <;> rfl

section

variable {tree : Node} {compiler : Compiler} {store : Store} {bag : DiagnosticBag}

theorem compileTree_of_ok {block : CodeBlock}
    (outcome : treeOutcome tree compiler.options compiler.store compiler.bag =
      (.ok block, store, bag)) :
    compileTree tree compiler = .ok block (compiler.withStore store bag) := by
  rw [compileTree_eq, step, outcome]

theorem compileTree_of_error {failure : Failure}
    (outcome : treeOutcome tree compiler.options compiler.store compiler.bag =
      (.error failure, store, bag)) :
    compileTree tree compiler = .error failure (compiler.withStore store bag) := by
  rw [compileTree_eq, step, outcome]

end

end Compiler

namespace Pairing

open NewtonScript.Parser (ParseM)

variable {pairing : Pairing} {n m : Nat} {first second : Parser}

theorem Stands.stores (stands : pairing.Stands n first second) :
    pairing.Stores first.tokens.store second.tokens.store := by
  cases stands with
  | fresh fresh => exact fresh.stores
  | begun tied => exact tied.stores

theorem Stands.bound (stands : pairing.Stands n first second) : first.bound = pairing.room := by
  cases stands with
  | fresh fresh => exact fresh.bound
  | begun tied => exact tied.bound

theorem Stands.weight (stands : pairing.Stands n first second) : first.weight ≤ n := by
  cases stands with
  | fresh fresh => exact fresh.weight
  | begun tied => exact tied.weight

/-- The stores of paired parsers can be replaced by others that go together. -/
theorem Stands.withStore (stands : pairing.Stands n first second) {store store' : Store}
    (stores : pairing.Stores store store') :
    pairing.Stands n { first with tokens := { first.tokens with store } }
      { second with tokens := { second.tokens with store := store' } } := by
  cases stands with
  | fresh fresh =>
    exact .fresh { fresh with
      stores := stores
      streams := pairing.withStore store store' fresh.streams }
  | begun tied =>
    exact .begun { tied with
      stores := stores
      position := tied.position.withStore store store' }

/-! ## Programs -/

/-- Failures go together; what is left behind them is of no interest. -/
def wholeTerms (pairing : Pairing) : Terms Failure Parser where
  exact := pairing.exact
  failed failure failure' _ _ := pairing.Failures failure failure'

theorem wholly {α β : Type} {related : Parser → Parser → Prop} {action : ParseM α}
    {action' : ParseM β} {result : α → β → Parser → Parser → Prop}
    (agree : Agree (pairing.commandTerms n) related action action' result) :
    Agree pairing.wholeTerms related action action' result :=
  agree.withTerms _ id fun _ _ _ _ fails => fails.1

/-- The commands up to the end are read alike. -/
theorem agree_commands (exact : pairing.exact) (le : n ≤ pairing.limit) {bound bound' : Nat}
    (enough : n < bound) (within : bound ≤ bound') {found found' : List Node}
    (same : Matches pairing.view found found') :
    Agree pairing.wholeTerms (pairing.Stands n) (Parser.commands bound found)
      (Parser.commands bound' found') fun nodes nodes' first second =>
        Matches pairing.view nodes nodes' ∧ second.previous = pairing.view.span first.previous ∧
          pairing.Stores first.tokens.store second.tokens.store := by
  induction bound generalizing n bound' found found' with
  | zero => exact absurd enough (Nat.not_lt_zero n)
  | succ bound ih =>
    obtain ⟨bound', rfl⟩ := Nat.exists_eq_add_of_le' within
    refine (wholly (agree_nextCommand exact le)).bind fun command command' => ?_
    refine AgreeWhere.of_fact (fun _ _ holds => holds.1) fun alike => ?_
    cases command with
    | none =>
      cases command' with
      | none =>
        refine agree_pure fun _ _ holds => ⟨same.reverse, ?_⟩
        obtain ⟨-, m, -, -, tied⟩ := holds
        exact ⟨tied.previous exact, tied.stores⟩
      | some => cases alike
    | some tree =>
      cases command' with
      | none => cases alike
      | some tree' =>
        rintro first second ⟨-, m, -, fewer, tied⟩
        have fewer := fewer rfl
        exact ih (by omega) (by omega) (Nat.le_add_left bound bound')
          (Matches.cons (Option.some.inj alike) same) first second (.begun tied)

/-- From where a program starts, it is read alike. -/
theorem agree_programFrom (exact : pairing.exact) (le : n ≤ pairing.limit) {start start' : Span}
    (placed : start' = pairing.view.span start) :
    Agree pairing.wholeTerms (pairing.Tied n) (Parser.programFrom start)
      (Parser.programFrom start') fun tree tree' first second =>
        Matches pairing.view tree tree' ∧
          pairing.Stores first.tokens.store second.tokens.store := by
  have read : Agree pairing.wholeTerms (pairing.Tied n)
      (Parser.bounded fun bound => Parser.commands bound [])
      (Parser.bounded fun bound => Parser.commands bound []) fun nodes nodes' first second =>
        Matches pairing.view nodes nodes' ∧ second.previous = pairing.view.span first.previous ∧
          pairing.Stores first.tokens.store second.tokens.store := by
    intro first second tied
    have enough := Nat.lt_of_le_of_lt le (pairing.enough exact)
    refine agree_commands exact le (tied.bound ▸ enough) ?_ .nil first second (.begun tied)
    rw [tied.bound, tied.bound']
    exact pairing.roomy
  refine read.bind fun found found' => ?_
  refine AgreeWhere.of_fact (fun _ _ holds => holds.1) fun alike => ?_
  rw [alike.isEmpty_eq]
  split
  · exact agree_pure fun _ _ holds => ⟨Matches.of_expr rfl placed, holds.2.2⟩
  · rintro first second ⟨-, previous, stores⟩ -
    refine ⟨_, second, rfl, ?_, stores⟩
    refine Matches.of_expr ?_ ?_
    · simp only [Expr.seen, Node.seenAll_eq, alike.nodes]
    · rw [previous, placed, pairing.view.join]

/-- Paired parsers read the same program. -/
theorem agree_program (exact : pairing.exact) (le : n ≤ pairing.limit) :
    Agree pairing.wholeTerms (pairing.Stands n) Parser.program Parser.program
      fun tree tree' first second => Matches pairing.view tree tree' ∧
        pairing.Stores first.tokens.store second.tokens.store := by
  refine (wholly agree_prime).bind fun _ _ first second tied => ?_
  exact agree_programFrom exact le (tied.same_of_exact exact).span first second tied

end Pairing

end NewtonScript
