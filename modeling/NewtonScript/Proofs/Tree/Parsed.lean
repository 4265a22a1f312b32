import NewtonScript.Proofs.Tree.Gathered

/-!
# The literals of trees

Reading interns names and makes strings, arrays and frames; it defines
nothing, and it shares no map.  The literals of a tree that was read are
neither maps nor code blocks, and their integers are in range if those of the
words were.
-/

namespace NewtonScript

/-- The literals of a tree are as they should be. -/
def Node.Suits (strict : Prop) (tree : Node) : Prop :=
  ∀ value span, tree.Occurs ⟨.literal value, span⟩ → value.Suits strict

namespace Node

variable {strict : Prop}

theorem suits_of_inside {expr : Expr} {span : Span}
    (own : ∀ value, expr = .literal value → value.Suits strict)
    (inside : ∀ part ∈ expr.inside, part.Suits strict) : Suits strict ⟨expr, span⟩ := by
  intro value region occurs
  rcases occurs.cases_root with equal | ⟨part, member, occurs⟩
  · cases equal
    exact own value rfl
  · exact inside part member value region occurs

/-- The region of a node does not matter. -/
theorem Suits.withSpan {node : Node} (suits : node.Suits strict) (span : Span) :
    Suits strict ⟨node.expr, span⟩ := by
  obtain ⟨expr, own⟩ := node
  refine suits_of_inside ?_ fun _ member _ _ occurs =>
    suits _ _ ((Occurs.whole.inside member).trans occurs)
  rintro value rfl
  exact suits value own .whole

end Node

section

variable {strict : Prop} {known : Value → Prop} {origin : Store}

/-- The nodes in hand have literals as they should be, and the store has only
changed harmlessly. -/
def Ledger.literals (strict : Prop) (known : Value → Prop) (origin : Store) : Ledger where
  strict
  Holds held store _ := Store.Harmless known origin store ∧ ∀ node ∈ held, node.Suits strict
  perm perm holds := ⟨holds.1, fun node member => holds.2 node (perm.mem_iff.mpr member)⟩
  store harmless holds := ⟨holds.1.trans (harmless known), holds.2⟩
  node := by
    rintro frame expr span store count composed ⟨harmless, holds⟩
    rw [List.forall_mem_append] at holds ⊢
    rw [List.forall_mem_singleton]
    refine ⟨harmless, holds.1, Node.suits_of_inside ?_ fun part member => holds.2 part ?_⟩
    · rintro value rfl
      cases composed
    · cases expr <;> first | exact member | cases composed
  literal := by
    rintro frame value span store count suits ⟨harmless, holds⟩
    rw [List.forall_mem_append, List.forall_mem_singleton]
    refine ⟨harmless, holds, Node.suits_of_inside (fun _ equal => Expr.literal.inj equal ▸ suits) ?_⟩
    exact fun part member => absurd member List.not_mem_nil
  respan := by
    rintro frame expr span span' store count ⟨harmless, holds⟩
    rw [List.forall_mem_append, List.forall_mem_singleton] at holds ⊢
    exact ⟨harmless, holds.1, holds.2.withSpan span'⟩
  function := by
    rintro frame body params native name span store count ⟨harmless, holds⟩
    rw [List.forall_mem_append] at holds ⊢
    rw [List.forall_mem_singleton]
    exact ⟨harmless, holds.1, Node.suits_of_inside nofun holds.2⟩

namespace Parser

/-- A parser whose store has only changed harmlessly. -/
def Harmless (strict : Prop) (known : Value → Prop) (origin : Store) (parser : Parser) : Prop :=
  (strict → parser.Fits) ∧ Store.Harmless known origin parser.tokens.store

theorem ensures_of_gathers {α : Type} [Carrier α] {rest : Unit → ParseM α} {post : Here}
    (gathers : ∀ walk : Walk, walk.Gathers Walk.Ready [] (prime >>= rest) post) :
    Ensures (Harmless strict known origin) (prime >>= rest)
      fun value => ∀ node ∈ Carrier.nodes value, node.Suits strict := by
  intro parser holds
  have gathered := @outcome_of_gathers _ _ (.literals strict known origin) [] parser _ _ gathers
    ⟨holds.1, holds.2, fun _ member => absurd member List.not_mem_nil⟩
  cases run : (prime >>= rest) parser with
  | ok value after =>
    rw [run] at gathered
    obtain ⟨⟨fits, harmless, suit⟩, -⟩ := gathered
    exact ⟨⟨fits, harmless⟩, suit⟩
  | error failure after =>
    rw [run] at gathered
    obtain ⟨⟨left, fits, harmless, -⟩, -⟩ := gathered
    exact ⟨⟨fits, harmless⟩, trivial⟩

/-- The literals of a command are as they should be. -/
theorem ensures_nextCommand :
    Ensures (Harmless strict known origin) nextCommand
      fun found => ∀ tree, found = some tree → tree.Suits strict := by
  refine (ensures_of_gathers fun _ => Walk.gathers_nextCommand).mono fun found suits tree present => ?_
  refine suits tree ?_
  rw [present]
  exact List.mem_singleton_self tree

/-- The literals of a program are as they should be. -/
theorem ensures_program : Ensures (Harmless strict known origin) program (Node.Suits strict) :=
  (ensures_of_gathers fun _ => Walk.gathers_program).mono fun tree suits =>
    suits tree (List.mem_singleton_self tree)

/-- Going on behind a failure changes the store harmlessly. -/
theorem harmless_synchronize {parser : Parser} (holds : parser.Harmless strict known origin) :
    parser.synchronize.Harmless strict known origin := by
  obtain ⟨fits, kept, -⟩ := @at_synchronize (.literals strict known origin) [] parser
    ⟨holds.1, holds.2, fun _ member => absurd member List.not_mem_nil⟩
  exact ⟨fits, kept⟩

end Parser

end

end NewtonScript
