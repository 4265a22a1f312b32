import NewtonScript.Proofs.Names.Compiled
import NewtonScript.Proofs.Names.Recased

/-!
# The case of letters in names

Two texts that differ only in the case of letters in their names are compiled
alike: to the same code and the same literals up to the spellings of names,
with the same warnings, or with the same error at the same place.
-/

namespace NewtonScript

/-- The parsers of two recased texts of the given length. -/
def Pairing.recased (length : Nat) : Pairing where
  view := .names Symbol.normal
  exact := True
  resumes := False
  together := True
  limit := length
  room := length + 3
  room' := length + 3
  roomy := Nat.le_refl _
  enough _ := by omega
  Streams := TokenStream.Recased
  Ended _ := False
  endless _ _ := id
  Stores := Store.Akin
  Failures := Failure.Akin
  next := (TokenStream.agree_next.weaken fun _ _ _ _ holds =>
    ⟨.same holds.1 holds.2.1, holds.2.2⟩).withTerms _ id fun _ _ _ _ akin => ⟨akin, False.elim⟩
  withStore _ _ recased := ⟨recased.cursor, recased.pending⟩
  endedWithStore _ := id
  intern spelling akin := Store.Akin.internNormal akin spelling
  newObject := @Store.Akin.sameObject
  outOfRange _ _ := ⟨rfl, rfl⟩
  unexpected _ _ _ := ⟨rfl, rfl⟩

theorem Pairing.stands_recased {text text' : String} (recased : Recased text.toList text'.toList)
    (store : Store) : (Pairing.recased text.length).Stands text.length
      (Parser.ofString text store) (Parser.ofString text' store) := by
  have length : text.length = text'.length := by
    rw [← String.length_toList, ← String.length_toList, recased.sameLetters.length_eq]
  refine .fresh ⟨Nat.le_of_eq (Parser.weight_ofString text store),
    Parser.bound_ofString text store, ?_, rfl, ⟨rfl, rfl⟩, fun _ => rfl, fun _ => rfl, .refl store,
    rfl, rfl, ⟨⟨recased, rfl, rfl⟩, .none⟩⟩
  rw [Parser.bound_ofString, ← length]
  rfl

namespace Compiler

/-- Both compilers gave a block, with the same code and the same literals and
frame up to the case of names; or both failed with the same error at the same
place.  Their reports have the same codes and places. -/
inductive EndAlike : EStateM.Result Failure Compiler CodeBlock →
    EStateM.Result Failure Compiler CodeBlock → Prop where
  | ok {block block' : CodeBlock} {after after' : Compiler} (code : block'.code = block.code)
      (numArgs : block'.numArgs = block.numArgs)
      (literals : block'.literals.map (List.map (Value.renamed Symbol.normal)) =
        block.literals.map (List.map (Value.renamed Symbol.normal)))
      (argFrame : block'.argFrame.map (Value.renamed Symbol.normal) =
        block.argFrame.map (Value.renamed Symbol.normal))
      (reports : after'.bag.toList.map Diagnostic.topic = after.bag.toList.map Diagnostic.topic) :
      EndAlike (.ok block after) (.ok block' after')
  | error {failure failure' : Failure} {after after' : Compiler}
      (number : failure'.fault.code.number = failure.fault.code.number)
      (span : failure'.span = failure.span)
      (reports : after'.bag.toList.map Diagnostic.topic = after.bag.toList.map Diagnostic.topic) :
      EndAlike (.error failure after) (.error failure' after')

theorem endAlike_ok {block block' : CodeBlock} {after after' : Compiler}
    (blocks : block.Akin block') (bags : after.bag.Akin after'.bag) :
    EndAlike (.ok block after) (.ok block' after') := by
  obtain ⟨code, numArgs, literals, argFrame⟩ := blocks.parts
  exact .ok code numArgs literals argFrame bags.toList

theorem endAlike_error {failure failure' : Failure} {after after' : Compiler}
    (failures : failure.Akin failure') (bags : after.bag.Akin after'.bag) :
    EndAlike (.error failure after) (.error failure' after') :=
  .error (congrArg Code.number failures.code) failures.span bags.toList

theorem endAlike_compileTree {tree tree' : Node} {first second : Compiler}
    (same : Matches (.names Symbol.normal) tree tree') (options : second.options = first.options)
    (stores : first.store.Akin second.store) (bags : first.bag.Akin second.bag) :
    EndAlike (compileTree tree first) (compileTree tree' second) := by
  have ends := akin_treeOutcome same first.options stores bags
  rw [compileTree_eq, compileTree_eq, options, step, step]
  generalize treeOutcome tree first.options first.store first.bag = outcome at ends ⊢
  generalize treeOutcome tree' first.options second.store second.bag = outcome' at ends ⊢
  obtain ⟨result, store, bag⟩ := outcome
  obtain ⟨result', store', bag'⟩ := outcome'
  obtain ⟨results, -, bags⟩ := ends
  cases results with
  | ok blocks => exact endAlike_ok blocks bags
  | error failures => exact endAlike_error failures bags

section

variable {length n : Nat} {α : Type} {action : Parser.ParseM α} {next : α → CompileM CodeBlock}
  {first second : Compiler} {alike : α → α → Prop}

/-- What is read alike and then compiled alike. -/
theorem endAlike_parse
    (agree : Agree (Pairing.recased length).wholeTerms ((Pairing.recased length).Stands n) action
      action fun found found' after after' =>
        alike found found' ∧ after.tokens.store.Akin after'.tokens.store)
    (stands : (Pairing.recased length).Stands n first.parser second.parser)
    (bags : first.bag.Akin second.bag)
    (behind : ∀ found found' parser parser', alike found found' →
      parser.tokens.store.Akin parser'.tokens.store →
      EndAlike (next found { first with parser })
        (next found' { second with parser := parser' })) :
    EndAlike ((parse action >>= next) first) ((parse action >>= next) second) := by
  cases run : action first.parser with
  | ok found parser =>
    obtain ⟨found', parser', run', same, stores⟩ := agree.of_ok stands run trivial
    rw [run_bind_of_ok (parse_of_ok run), run_bind_of_ok (parse_of_ok run')]
    exact behind found found' parser parser' same stores
  | error failure parser =>
    obtain ⟨failure', parser', run', failures⟩ := agree.of_error stands run trivial
    rw [run_bind_of_error (parse_of_error run), run_bind_of_error (parse_of_error run')]
    exact endAlike_error failures bags

end

/-- Compile a command, or nothing where there is none. -/
def compileFound : Option Node → CompileM CodeBlock
  | some tree => compileTree tree
  | none => compileTree ⟨.begin [], Span.none⟩

theorem compile_eq (compiler : Compiler) : compile compiler =
    if compiler.options.firstOnly then
      (parse Parser.nextCommand >>= compileFound) compiler
    else
      (parse Parser.program >>= compileTree) compiler := by
  change (if compiler.options.firstOnly then (parse Parser.nextCommand >>= compileFound)
    else (parse Parser.program >>= compileTree)) compiler = _
  split <;> rfl

theorem endAlike_compileFound {found found' : Option Node} {first second : Compiler}
    (same : Matches (.names Symbol.normal) found found') (options : second.options = first.options)
    (stores : first.store.Akin second.store) (bags : first.bag.Akin second.bag) :
    EndAlike (compileFound found first) (compileFound found' second) := by
  cases found with
  | none =>
    cases found' with
    | none => exact endAlike_compileTree rfl options stores bags
    | some => cases same
  | some tree =>
    cases found' with
    | none => cases same
    | some tree' => exact endAlike_compileTree (Option.some.inj same) options stores bags

/-- Compiling does not depend on the case of letters in names. -/
theorem compile_recased {text text' : String} (recased : Recased text.toList text'.toList)
    (store : Store) (options : Options) :
    EndAlike (compile (ofString text store options)) (compile (ofString text' store options)) := by
  have stands := Pairing.stands_recased recased store
  have bags := DiagnosticBag.Akin.refl (ofString text store options).bag
  rw [compile_eq, compile_eq]
  change EndAlike (if options.firstOnly then _ else _) (if options.firstOnly then _ else _)
  split
  · refine endAlike_parse ((Pairing.wholly (Pairing.agree_nextCommand trivial (Nat.le_refl _))).weaken
      fun _ _ _ _ holds => ?_) stands bags fun _ _ _ _ same stores =>
        endAlike_compileFound same rfl stores bags
    obtain ⟨same, m, -, -, tied⟩ := holds
    exact ⟨same, tied.stores⟩
  · exact endAlike_parse (Pairing.agree_program trivial (Nat.le_refl _)) stands bags
      fun _ _ _ _ same stores => endAlike_compileTree same rfl stores bags

theorem compile_recased_choice :
    Recased "IF |Ab| Then \"Ab\"".toList "if |aB| tHEN \"Ab\"".toList ∧
      EndAlike (compile (ofString "IF |Ab| Then \"Ab\"" .empty {}))
        (compile (ofString "if |aB| tHEN \"Ab\"" .empty {})) := by
  have recased : Recased "IF |Ab| Then \"Ab\"".toList "if |aB| tHEN \"Ab\"".toList := by
    have string : Recased " \"Ab\"".toList " \"Ab\"".toList := .same _
    have keyword : Recased " Then \"Ab\"".toList " tHEN \"Ab\"".toList :=
      @Recased.name [' '] "hen".toList "HEN".toList _ _ 'T' 't' (by decide) (.inr (by decide))
        (by decide) rfl (.cons rfl (.cons rfl (.cons rfl .nil))) string
    have barred : Recased " |Ab| Then \"Ab\"".toList " |aB| tHEN \"Ab\"".toList :=
      @Recased.name [' '] "Ab|".toList "aB|".toList _ _ '|' '|' (by decide) (.inl rfl)
        (by decide) rfl (.cons rfl (.cons rfl (.cons rfl .nil))) keyword
    exact @Recased.name [] ['F'] ['f'] _ _ 'I' 'i' (by decide) (.inr (by decide)) (by decide) rfl
      (.cons rfl .nil) barred
  exact ⟨recased, compile_recased recased .empty {}⟩

end Compiler

end NewtonScript
