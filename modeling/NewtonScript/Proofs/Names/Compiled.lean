import NewtonScript.Proofs.Names.Emitted
import NewtonScript.Proofs.Pairing.Compilers

/-!
# Compiling trees up to their names

Trees that differ only in the spellings of their names are compiled to code
blocks that differ in nothing else, or refused for the same reason at the same
place; what is defined and reported on the way is akin.
-/

namespace NewtonScript

theorem Failure.Akin.symm {first second : Failure} (akin : first.Akin second) :
    second.Akin first :=
  ⟨akin.code.symm, akin.span.symm⟩

theorem Failure.Akin.trans {first second third : Failure} (akin : first.Akin second)
    (akin' : second.Akin third) : first.Akin third :=
  ⟨akin'.code.trans akin.code, akin'.span.trans akin.span⟩

namespace Compiler

/-- Ends of two compilations of a tree that differ only in the spellings of
names. -/
structure EndsAkin (first second : Except Failure CodeBlock × Store × DiagnosticBag) : Prop where
  result : ExceptAkin CodeBlock.Akin first.1 second.1
  store : first.2.1.Akin second.2.1
  bag : first.2.2.Akin second.2.2

section

variable {first second third : Except Failure CodeBlock × Store × DiagnosticBag}

theorem EndsAkin.symm (akin : EndsAkin first second) : EndsAkin second first := by
  obtain ⟨result, store, bag⟩ := first
  obtain ⟨result', store', bag'⟩ := second
  refine ⟨?_, akin.store.symm, akin.bag.symm⟩
  have results : ExceptAkin CodeBlock.Akin result result' := akin.result
  cases results with
  | ok blocks => exact .ok blocks.symm
  | error failures => exact .error failures.symm

theorem EndsAkin.trans (akin : EndsAkin first second) (akin' : EndsAkin second third) :
    EndsAkin first third := by
  obtain ⟨result, store, bag⟩ := first
  obtain ⟨result', store', bag'⟩ := second
  obtain ⟨result'', store'', bag''⟩ := third
  refine ⟨?_, akin.store.trans akin'.store, akin.bag.trans akin'.bag⟩
  have results : ExceptAkin CodeBlock.Akin result result' := akin.result
  have results' : ExceptAkin CodeBlock.Akin result' result'' := akin'.result
  cases results with
  | ok blocks =>
    cases results' with
    | ok blocks' => exact .ok (blocks.trans blocks')
  | error failures =>
    cases results' with
    | error failures' => exact .error (failures.trans failures')

end

variable {store store' : Store} {bag bag' : DiagnosticBag}

theorem akin_defineAll (stores : store.Akin store') {entries entries' : List (Symbol × Value)}
    (same : entries.map (Prod.map Symbol.normal Value.folded) =
      entries'.map (Prod.map Symbol.normal Value.folded)) :
    (entries.foldl (fun store (name, value) => store.defineConstant name value) store).Akin
      (entries'.foldl (fun store (name, value) => store.defineConstant name value) store') := by
  induction entries generalizing entries' store store' with
  | nil =>
    cases entries' with
    | nil => exact stores
    | cons => cases same
  | cons entry rest ih =>
    cases entries' with
    | nil => cases same
    | cons entry' rest' =>
      obtain ⟨head, tail⟩ := List.cons.inj same
      obtain ⟨names, values⟩ := Prod.mk.inj head
      exact ih (stores.defineConstant (Symbol.same_iff.mpr names) values) tail

theorem akin_defineConstants (stores : store.Akin store') {scopes scopes' : Scopes}
    (akin : scopes.Akin scopes') :
    (defineConstants scopes store).Akin (defineConstants scopes' store') :=
  akin_defineAll stores (congrArg Table.entries (akin.get Scopes.root).constants)

/-- A tree in normal spelling is compiled alike. -/
theorem akin_treeOutcome_normal (tree : Node) (options : Options) (stores : store.Akin store')
    (bags : bag.Akin bag') :
    EndsAkin (treeOutcome tree options store bag)
      (treeOutcome (tree.seen .folded) options store' bag') := by
  obtain ⟨declared, stores, bags⟩ := Scopes.akin_ofTree tree stores bags
  unfold treeOutcome
  generalize Scopes.ofTree tree store bag = run at declared stores bags ⊢
  generalize Scopes.ofTree (tree.seen .folded) store' bag' = run'
    at declared stores bags ⊢
  obtain ⟨found, store, bag⟩ := run
  obtain ⟨found', store', bag'⟩ := run'
  cases declared with
  | error failures => exact ⟨.error failures, stores, bags⟩
  | ok scopes =>
    have referred := Scopes.akin_withReferences scopes tree
    dsimp only
    generalize Scopes.withReferences _ tree = run at referred ⊢
    generalize Scopes.withReferences _ (tree.seen .folded) = run' at referred ⊢
    cases referred with
    | error failures => exact ⟨.error failures, stores, bags⟩
    | ok scopes =>
      obtain ⟨emitted, stores, bags⟩ := CodeBlock.akin_ofTree tree scopes options stores bags
      dsimp only
      generalize CodeBlock.ofTree tree _ options store bag = run at emitted stores bags ⊢
      generalize CodeBlock.ofTree (tree.seen .folded) _ options store' bag' =
        run' at emitted stores bags ⊢
      obtain ⟨found, store, bag⟩ := run
      obtain ⟨found', store', bag'⟩ := run'
      cases emitted with
      | error failures => exact ⟨.error failures, stores, bags⟩
      | ok blocks => exact ⟨.ok blocks, akin_defineConstants stores scopes, bags⟩

/-- Trees that differ only in the spellings of names are compiled alike. -/
theorem akin_treeOutcome {tree tree' : Node} (same : Matches .folded tree tree')
    (options : Options) (stores : store.Akin store') (bags : bag.Akin bag') :
    EndsAkin (treeOutcome tree options store bag) (treeOutcome tree' options store' bag') := by
  have first := akin_treeOutcome_normal tree options stores bags
  have second := akin_treeOutcome_normal tree' options (.refl store') (.refl bag')
  have trees : tree.seen .folded = tree'.seen .folded := same
  rw [← trees] at second
  exact first.trans second.symm

end Compiler

end NewtonScript
