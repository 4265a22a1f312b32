import NewtonScript.Proofs.Tree.Gathered

/-!
# Function literals are numbered apart

A function literal gets the next number once its body was read.  So the
numbers in what a parser has in hand are those that were given out since it
began, each of them once.
-/

namespace NewtonScript

/-- The numbers in hand are those that were given out, each of them once. -/
def Ledger.numbering (base : Nat) : Ledger where
  strict := False
  Holds held _ count := base ≤ count ∧ ∀ id : Nat, (held.flatMap Node.functionIds).count id =
    if base < id ∧ id ≤ count then 1 else 0
  perm perm holds := ⟨holds.1, fun id => by
    rw [← (perm.flatMap_right Node.functionIds).count_eq, holds.2]⟩
  store _ holds := holds
  node := by
    rintro frame expr span _ count composed ⟨began, holds⟩
    have noFunction : expr.isFunction = false := by cases expr <;> first | rfl | cases composed
    refine ⟨began, fun id => ?_⟩
    rw [← holds id, List.flatMap_append, List.flatMap_append, List.flatMap_singleton,
      Node.functionIds_of_noFunction noFunction]
  literal := by
    rintro frame value span _ count - ⟨began, holds⟩
    refine ⟨began, fun id => ?_⟩
    rw [← holds id, List.flatMap_append, List.flatMap_singleton,
      Node.functionIds_of_noFunction rfl, Expr.children, List.flatMap_nil, List.append_nil]
  respan := by
    rintro frame expr span span' _ count ⟨began, holds⟩
    refine ⟨began, fun id => ?_⟩
    rw [← holds id, List.flatMap_append, List.flatMap_append, List.flatMap_singleton,
      List.flatMap_singleton, Node.functionIds_eq, Node.functionIds_eq]
  function := by
    rintro frame body params native name span _ count ⟨began, holds⟩
    refine ⟨Nat.le_succ_of_le began, fun id => ?_⟩
    have before := holds id
    rw [List.flatMap_append, List.flatMap_singleton, List.count_append] at before
    rw [List.flatMap_append, List.flatMap_singleton, List.count_append, Node.functionIds_func,
      List.count_cons, ← Nat.add_assoc, before]
    simp only [beq_iff_eq]
    split <;> split <;> split <;> omega

namespace Ledger

variable {base count : Nat} {held : List Node} {store : Store}

theorem nodup_of_numbering (holds : (numbering base).Holds held store count) :
    (held.flatMap Node.functionIds).Nodup := by
  refine List.nodup_iff_count.mpr fun id => ?_
  rw [holds.2 id]
  split <;> omega

/-- So many function literals are in hand. -/
theorem count_of_numbering (holds : (numbering base).Holds held store count) :
    count = base + (held.flatMap Node.functionIds).length := by
  have given : (held.flatMap Node.functionIds).Perm (List.range' (base + 1) (count - base)) := by
    refine (List.perm_ext_iff_of_nodup (nodup_of_numbering holds) List.nodup_range').mpr
      fun id => ?_
    rw [← List.count_pos_iff, holds.2 id, List.mem_range'_1]
    split <;> omega
  rw [given.length_eq, List.length_range']
  have began := holds.1
  omega

theorem at_numbering (parser : Parser) : (numbering parser.functions).At [] parser := by
  refine ⟨False.elim, Nat.le_refl _, fun id => ?_⟩
  rw [if_neg (by omega)]
  rfl

end Ledger

namespace Parser

variable {parser after : Parser} {tree : Node}

/-- What an action gives has in hand what was numbered meanwhile. -/
theorem numbering_of_gathers {α : Type} [Carrier α] {rest : Unit → ParseM α} {post : Here} {value : α}
    (gathers : ∀ walk : Walk, walk.Gathers Walk.Ready [] (prime >>= rest) post)
    (run : (prime >>= rest) parser = .ok value after) :
    (Ledger.numbering parser.functions).Holds (Carrier.nodes value) after.tokens.store
      after.functions := by
  have gathered := outcome_of_gathers gathers (Ledger.at_numbering parser)
  rw [run] at gathered
  exact gathered.1.2

theorem numbering_of_commands {bound : Nat} {found : List Node} (begun : parser.started = true)
    (run : commands bound [] parser = .ok found after) :
    (Ledger.numbering parser.functions).Holds (Carrier.nodes found) after.tokens.store
      after.functions := by
  have gathered := outcome_of_started (fun _ => Walk.gathers_commands bound []) begun
    (Ledger.at_numbering parser)
  rw [run] at gathered
  exact gathered.1.2

/-- The function literals of a command have distinct numbers. -/
theorem nodup_functionIds_nextCommand (run : nextCommand parser = .ok (some tree) after) :
    tree.functionIds.Nodup := by
  have distinct := Ledger.nodup_of_numbering (numbering_of_gathers
    (fun _ => Walk.gathers_nextCommand) run)
  rwa [Carrier.nodes_option, Option.toList_some, List.flatMap_singleton] at distinct

/-- The function literals of a program have distinct numbers. -/
theorem nodup_functionIds_program (run : program parser = .ok tree after) :
    tree.functionIds.Nodup := by
  have distinct := Ledger.nodup_of_numbering (numbering_of_gathers
    (fun _ => Walk.gathers_program) run)
  rwa [show Carrier.nodes tree = [tree] from rfl, List.flatMap_singleton] at distinct

/-- A command has been read where an operand has ended. -/
theorem closed_of_command {begun start after : Parser} {command : Node}
    (started : begun.started = true) (skipped : bounded skipSemicolons begun = .ok () start)
    (live : start.current.lexeme ≠ .eof) (parsed : bounded expression start = .ok command after) :
    ∃ row, Trail begun row after ∧ Walk.Closed (.behind row) after.current.lexeme := by
  let walk : Walk := ⟨.numbering begun.functions, begun, started⟩
  have stage : walk.Stage ([] ++ []) [] begun := ⟨.here, .nil, Ledger.at_numbering begun⟩
  have skips : walk.Quiet Walk.Ready (bounded skipSemicolons) fun _ => Walk.Ready :=
    .bounded Walk.quiet_skipSemicolons
  have reads : walk.Gathers Walk.Opens [] (bounded expression) Walk.Closed :=
    .bounded Walk.gathers_expression
  have first := skips begun [] [] stage (.inl rfl)
  rw [skipped] at first
  obtain ⟨row, stage, ready⟩ := first
  have second := reads start [] row stage (.inl (ready.resolve_right live))
  rw [parsed] at second
  obtain ⟨row, stage, closed⟩ := second
  exact ⟨row, stage.trail, closed⟩

end Parser

end NewtonScript
