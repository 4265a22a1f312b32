import NewtonScript.Proofs.Compiler.Blocks
import NewtonScript.Proofs.Compiler.Termination
import NewtonScript.Proofs.Emission.Reached
import NewtonScript.Proofs.Scope.LoopIndices
import NewtonScript.Proofs.Scope.Numbering
import NewtonScript.Proofs.Tree.Numbered

/-!
# The three steps agree on scopes

Collecting declarations, collecting references and emitting code walk over a
tree one after the other.  Each of them finds the scope of a function literal
by the literal's number, and emission builds the names of hidden variables
anew.  As the numbers of a tree that was read are distinct, every walk comes to
the scopes that the first one opened, and every loop to its variables.  So
there are no failures that tell otherwise.
-/

namespace NewtonScript

/-- A failure that tells that the steps of compiling disagree: a function
literal has no scope, or the variable of a loop has no slot. -/
def Failure.IsInternal (failure : Failure) : Prop :=
  failure.fault.code.number = 4006 ∨ ∃ name, failure.fault = .notLocal name

theorem not_isInternal_of_ordinary {failure : Failure} (ordinary : failure.fault.Ordinary) :
    ¬ failure.IsInternal := by
  obtain ⟨fault, span⟩ := failure
  rintro (number | ⟨name, rfl⟩)
  · cases fault with
    | undeclaredFunction => exact ordinary
    | _ => cases number
  · exact ordinary

/-! ## Emission -/

namespace Emission

variable {scopes : Scopes} {options : Options} {tree : Node} {store store' : Store}
  {bag bag' : DiagnosticBag} {failure : Failure}

/-- Where the code of a tree is refused, something in the tree is to blame. -/
theorem blamed_ofTree
    (failed : CodeBlock.ofTree tree scopes options store bag = (.error failure, store', bag')) :
    Blamed scopes options tree { store, bag } failure := by
  unfold CodeBlock.ofTree at failed
  dsimp only at failed
  split at failed
  · cases failed
  · rename_i ran
    cases failed
    rcases functionBlock_error_cases ran with ordinary | ⟨final, body⟩
    · exact .inl ordinary
    · rcases bind_eq_error body with early | ⟨_, _, -, late⟩
      · exact blamed_of_reaches rfl _ _ _ _ _ _ _ .whole early
      · cases late

/-- A tree whose scopes belong to it is not refused for want of a scope or a
slot. -/
theorem not_isInternal_of_blamed {declared : Scopes} (agrees : declared.Agrees tree)
    (same : declared.SameNames scopes) {start : State}
    (blamed : Blamed scopes options tree start failure) : ¬ failure.IsInternal := by
  rcases blamed with ordinary | ⟨id, loops, state, node, discard, reaches, stuck⟩
  · exact not_isInternal_of_ordinary ordinary
  · have site := reaches.site.of_sameNames same
    cases stuck with
    | outsideLoop =>
      rintro (number | ⟨name, equal⟩)
      · cases number
      · cases equal
    | slotless member unknown isFault =>
      rw [same.owns, agrees.loops id node site _ member] at unknown
      cases unknown
    | scopeless unknown =>
      obtain ⟨inner, found, -⟩ := agrees.nested _ _ _ _ _ _ _ site
      rw [Scopes.scopeOf?, same.byFunction] at unknown
      cases found.symm.trans unknown

end Emission

namespace Compiler

/-! ## Trees -/

theorem exists_of_parse {α : Type} {action : Parser.ParseM α} {compiler after : Compiler} {value : α}
    (run : parse action compiler = .ok value after) :
    ∃ parser, action compiler.parser = .ok value parser := by
  unfold parse at run
  split at run
  · rename_i parser ran
    cases run
    exact ⟨parser, ran⟩
  · cases run

/-- The function literals of a tree that was read have distinct numbers. -/
theorem Reads.nodup_functionIds {compiler after : Compiler} {tree : Node}
    (reads : Reads compiler tree after) : tree.functionIds.Nodup := by
  cases reads with
  | program run =>
    obtain ⟨parser, ran⟩ := exists_of_parse run
    exact Parser.nodup_functionIds_program ran
  | command run =>
    obtain ⟨parser, ran⟩ := exists_of_parse run
    exact Parser.nodup_functionIds_nextCommand ran
  | nothing =>
    rw [Node.functionIds_of_noFunction rfl]
    exact List.nodup_nil

theorem not_isInternal_of_treeOutcome {tree : Node} (distinct : tree.functionIds.Nodup)
    {options : Options} {store store' : Store} {bag bag' : DiagnosticBag} {failure : Failure}
    (failed : treeOutcome tree options store bag = (.error failure, store', bag')) :
    ¬ failure.IsInternal := by
  unfold treeOutcome at failed
  split at failed
  · rename_i refused
    cases failed
    exact not_isInternal_of_ordinary (Declaration.ordinary_ofTree refused)
  · rename_i declared middle reports collected
    split at failed
    · rename_i refused
      cases failed
      obtain ⟨name, span, -, rfl⟩ := Scopes.exists_firstCapture collected refused
      exact not_isInternal_of_ordinary trivial
    · rename_i scopes referred
      split at failed
      · rename_i refused
        cases failed
        exact Emission.not_isInternal_of_blamed (Scopes.agrees_ofTree distinct collected)
          (Scopes.sameNames_withReferences referred) (Emission.blamed_ofTree refused)
      · cases failed

theorem not_isInternal_of_compileTree {compiler middle final : Compiler} {tree : Node}
    {failure : Failure} (reads : Reads compiler tree middle)
    (failed : compileTree tree middle = .error failure final) : ¬ failure.IsInternal := by
  rw [compileTree_eq, step] at failed
  split at failed
  · cases failed
  · rename_i refused
    cases failed
    exact not_isInternal_of_treeOutcome reads.nodup_functionIds refused

/-! ## Texts -/

section

variable {text : String} {store : Store} {options : Options} {failure : Failure}

theorem ordinary_of_nextCommand {parser after : Parser}
    (reached : (Parser.ofString text store).Reaches parser)
    (failed : Parser.nextCommand parser = .error failure after) : failure.fault.Ordinary := by
  obtain ⟨n, le, stands⟩ := reached.stands
  obtain ⟨failure', after', failed', ⟨rfl, ordinary⟩, -⟩ :=
    (Pairing.agree_nextCommand trivial le).of_error stands failed trivial
  exact ordinary

theorem ordinary_of_program {after : Parser}
    (failed : Parser.program (.ofString text store) = .error failure after) :
    failure.fault.Ordinary := by
  have reached : (Parser.ofString text store).Reaches (.ofString text store) := .start
  obtain ⟨n, le, stands⟩ := reached.stands
  obtain ⟨failure', after', failed', rfl, ordinary⟩ :=
    (Pairing.agree_program trivial le).of_error stands failed trivial
  exact ordinary

/-- What is compiled as one block fails where its text or its tree is refused. -/
theorem not_isInternal_of_compile {final : Compiler}
    (failed : compile (ofString text store options) = .error failure final) :
    ¬ failure.IsInternal := by
  have parsed : ∀ {α : Type} {action : Parser.ParseM α} {compiler : Compiler},
      parse action compiler = .error failure final →
        ∃ parser, action compiler.parser = .error failure parser := by
    intro α action compiler failed
    unfold parse at failed
    split at failed
    · cases failed
    · rename_i parser ran
      cases failed
      exact ⟨parser, ran⟩
  rcases run_bind_eq_error failed with early | ⟨_, _, got, late⟩
  · cases early
  · cases got
    split at late
    · rcases run_bind_eq_error late with refused | ⟨command, middle, read, late⟩
      · obtain ⟨parser, ran⟩ := parsed refused
        exact not_isInternal_of_ordinary (ordinary_of_nextCommand .start ran)
      · cases command with
        | some tree => exact not_isInternal_of_compileTree (.command read) late
        | none => exact not_isInternal_of_compileTree (.nothing read) late
    · rcases run_bind_eq_error late with refused | ⟨tree, middle, read, late⟩
      · obtain ⟨parser, ran⟩ := parsed refused
        exact not_isInternal_of_ordinary (ordinary_of_program ran)
      · exact not_isInternal_of_compileTree (.program read) late

/-- Command by command, every failure is that of a text or of a tree. -/
theorem not_isInternal_of_compileCommands (bound : Nat) {compiler : Compiler}
    (reached : (Parser.ofString text store).Reaches compiler.parser)
    {results : List (Except Failure CodeBlock)}
    (none_yet : ∀ failure, .error failure ∈ results → ¬ failure.IsInternal) :
    ∀ failure, .error failure ∈ (compileCommands bound compiler results).1 →
      ¬ failure.IsInternal := by
  induction bound generalizing compiler results with
  | zero => exact none_yet
  | succ bound ih =>
    cases run : Parser.nextCommand compiler.parser with
    | error refused parser =>
      rw [compileCommands_of_error run]
      refine ih (reached.failure run).synchronized fun failure member => ?_
      rcases List.mem_cons.mp member with equal | earlier
      · cases equal
        exact not_isInternal_of_ordinary (ordinary_of_nextCommand reached run)
      · exact none_yet failure earlier
    | ok command parser =>
      cases command with
      | none =>
        rw [compileCommands_of_none run]
        exact none_yet
      | some tree =>
        obtain ⟨⟨result, final, reports⟩, made⟩ :
            ∃ outcome, treeOutcome tree compiler.options parser.tokens.store compiler.bag =
              outcome := ⟨_, rfl⟩
        rw [compileCommands_of_some run made]
        refine ih ((reached.command run).withStore final) fun failure member => ?_
        rcases List.mem_cons.mp member with equal | earlier
        · rw [← equal] at made
          exact not_isInternal_of_treeOutcome (Parser.nodup_functionIds_nextCommand run) made
        · exact none_yet failure earlier

end

/-- The scopes that are declared for a tree belong to it, whatever was compiled
before: its function literals have distinct numbers and a scope each, inside
the scope of the function they stand in; the variables of a function are
distinct and have distinct slots; loops find all of their variables.  So no
text is refused because a literal has no scope or a variable no slot. -/
theorem agrees_of_reads (text : String) (store : Store) (options : Options) :
    (∀ compiler tree after, Reads compiler tree after →
      ∀ origin bag declared store' bag',
        Scopes.ofTree tree origin bag = (.ok declared, store', bag') → declared.Agrees tree) ∧
    (∀ failure final, compile (ofString text store options) = .error failure final →
      ¬ failure.IsInternal) ∧
    ∀ failure, .error failure ∈ (compileEach (ofString text store options)).1 →
      ¬ failure.IsInternal := by
  refine ⟨fun _ _ _ reads _ _ _ _ _ collected => ?_, fun _ _ => not_isInternal_of_compile,
    fun failure member => ?_⟩
  · exact Scopes.agrees_ofTree reads.nodup_functionIds collected
  · have reached : (Parser.ofString text store).Reaches (ofString text store options).parser := .start
    exact not_isInternal_of_compileCommands _ reached (by simp) failure (List.mem_reverse.mp member)

end Compiler

end NewtonScript
