import NewtonScript.Proofs.Compiler.Blocks

/-!
# The stack of emitted code

Every instruction of an emitted block has a level: a depth of the stack and a
number of installed handler tables.  Along each edge the levels change by the
effect of the instruction, except that a break leaves behind what waits
between it and its loop.  Where nothing waits at breaks and returns, the depths
are those of every path, and each return finds one value.
-/

namespace NewtonScript

open Bytecode Emission

namespace Bytecode

/-- Depths of the stack in front of the instructions of some code: all paths to
an instruction agree on its depth, and every return finds one value. -/
structure Balanced (code : List Located) (depths : Nat → Option Nat) : Prop where
  start : depths 0 = some 0
  all : ∀ located ∈ code, ∃ depth, depths located.offset = some depth
  edge : ∀ located target, Edge code located target → ∃ depth depth' : Nat,
    depths located.offset = some depth ∧ depths target = some depth' ∧
      (depth' : Int) = depth + located.instruction.stackEffect
  finish : ∀ located ∈ code, located.instruction.simple? = some .ret →
    depths located.offset = some 1

end Bytecode

namespace Emission

variable {bound : Nat} {node : Node}

/-- No break of a function body is evaluated while operands wait that were
pushed since its loop was entered, and no return while any operands wait. -/
def NothingWaits (body : Node) : Prop :=
  (∀ pending value span, Within body pending ⟨.breakLoop value, span⟩ → pending.sinceLoop = 0) ∧
    ∀ pending value span, Within body pending ⟨.returnValue value, span⟩ → pending.operands = 0

/-- Nothing waits at an expression that leaves a loop or a function. -/
def isClearAt (pending : Pending) : Expr → Bool
  | .breakLoop _ => pending.sinceLoop == 0
  | .returnValue _ => pending.operands == 0
  | _ => true

/-- Nothing waits in any part of a node, to some depth of nesting. -/
def isClear : Nat → Pending → Node → Bool
  | 0, _, _ => false
  | bound + 1, pending, node =>
    isClearAt pending node.expr &&
      (partsOf node.expr pending).all fun part => isClear bound part.1 part.2

/-- Nothing waits in any function of a node, to some depth of nesting. -/
def isClearThroughout : Nat → Node → Bool
  | 0, _ => false
  | bound + 1, node =>
    isClear bound {} node && node.expr.inside.all fun part => isClearThroughout bound part

theorem isClear_cases {pending : Pending} (clear : isClear bound pending node) :
    isClearAt pending node.expr ∧
      ∃ smaller, ∀ part ∈ partsOf node.expr pending, isClear smaller part.1 part.2 := by
  cases bound with
  | zero => cases clear
  | succ bound =>
    simp only [isClear, Bool.and_eq_true, List.all_eq_true] at clear
    exact ⟨clear.1, bound, clear.2⟩

theorem isClearThroughout_cases (clear : isClearThroughout bound node) :
    (∃ smaller, isClear smaller {} node) ∧
      ∃ smaller, ∀ part ∈ node.expr.inside, isClearThroughout smaller part := by
  cases bound with
  | zero => cases clear
  | succ bound =>
    simp only [isClearThroughout, Bool.and_eq_true, List.all_eq_true] at clear
    exact ⟨⟨bound, clear.1⟩, bound, clear.2⟩

theorem nothingWaits_of_isClear {body : Node} (clear : isClear bound {} body) :
    NothingWaits body := by
  have parts : ∀ pending node, Within body pending node → ∃ bound, isClear bound pending node := by
    intro pending node within
    induction within with
    | whole => exact ⟨bound, clear⟩
    | part _ member ih =>
      obtain ⟨_, clear⟩ := ih
      obtain ⟨-, smaller, clear⟩ := isClear_cases clear
      exact ⟨smaller, clear _ member⟩
  have here : ∀ pending node, Within body pending node → isClearAt pending node.expr :=
    fun pending node within =>
      let ⟨_, clear⟩ := parts pending node within
      (isClear_cases clear).1
  exact ⟨fun pending value span within => by simpa [isClearAt] using here _ _ within,
    fun pending value span within => by simpa [isClearAt] using here _ _ within⟩

/-- A program can be checked for breaks and returns at which something
waits. -/
theorem nothingWaits_of_isClearThroughout {tree : Node} (clear : isClearThroughout bound tree) :
    ∀ body, tree.HasBody body → NothingWaits body := by
  have parts : ∀ node, tree.Occurs node → ∃ bound, isClearThroughout bound node := by
    intro node occurs
    induction occurs with
    | whole => exact ⟨bound, clear⟩
    | child _ member ih =>
      obtain ⟨_, clear⟩ := ih
      obtain ⟨-, smaller, clear⟩ := isClearThroughout_cases clear
      exact ⟨smaller, clear _ (Expr.mem_inside_of_mem_children member)⟩
    | body _ ih =>
      obtain ⟨_, clear⟩ := ih
      obtain ⟨-, smaller, clear⟩ := isClearThroughout_cases clear
      exact ⟨smaller, clear _ (by simp [Expr.inside])⟩
  rintro body isBody
  have occurs : tree.Occurs body := by
    rcases isBody with rfl | ⟨_, _, _, _, _, occurs⟩
    · exact .whole
    · exact occurs.body
  obtain ⟨_, clear⟩ := parts body occurs
  obtain ⟨⟨_, clear⟩, -⟩ := isClearThroughout_cases clear
  exact nothingWaits_of_isClear clear

/-- Levels for the laid out code of a function body.  A break stands above the
level of its loop by its value and what waits there; the loop is left with one
value more than it was entered with. -/
structure Leveled (body : Node) (cells : List Cell) (levels : Nat → Option Bytecode.Level) : Prop where
  start : levels 0 = some ⟨0, 0⟩
  all : ∀ located ∈ locate (cells.map Cell.instr) 0, ∃ level, levels located.offset = some level
  edge : ∀ located target, Edge (locate (cells.map Cell.instr) 0) located target →
    ∃ level level' mark, levels located.offset = some level ∧ levels target = some level' ∧
      Changes mark located.instruction level level' ∧
        (mark = .clear ∨ BreakMark body mark ∧ ∃ bounds, BreakAt cells located.offset mark bounds)
  leave : ∀ offset mark bounds, BreakAt cells offset mark bounds → BreakMark body mark ∧
    ∃ entry, levels bounds.entry = some entry ∧ levels offset = some (mark.levelAbove entry) ∧
      levels bounds.exit = some entry.pushed
  finish : ∀ located ∈ locate (cells.map Cell.instr) 0,
    located.instruction.simple? = some .ret → ∃ operands handlers, ReturnDepth body operands ∧
      levels located.offset = some ⟨operands + 1, handlers⟩

theorem Sealed.leveled {setting : Setting} {id : ScopeId} {body : Node} {block : CodeBlock}
    {pool : LiteralPool} {store : Store} {code : Fragment Instruction}
    (sealed : Sealed setting id body block pool store code) :
    ∃ levels, Leveled body (code.cells 0) levels := by
  obtain ⟨levels, annotated⟩ := sealed.annotated
  refine ⟨levels, annotated.start, ?_, fun _ _ => annotated.edge sealed.complete,
    fun _ _ _ => annotated.leave, fun _ => annotated.finish sealed.complete⟩
  intro located member
  obtain ⟨before, cell, after, split, rfl⟩ := mem_locate_iff.mp member
  obtain ⟨level, known, -⟩ := annotated.fits before cell after split
  exact ⟨level, known⟩

section

variable {body : Node} {cells : List Cell} {levels : Nat → Option Bytecode.Level}

/-- Where nothing waits, the depths of the levels are those of all paths. -/
theorem Leveled.balanced (leveled : Leveled body cells levels) (clear : NothingWaits body) :
    Balanced (locate (cells.map Cell.instr) 0)
      fun offset => (levels offset).map Bytecode.Level.depth where
  start := by simp [leveled.start]
  all located member := by
    obtain ⟨level, known⟩ := leveled.all located member
    exact ⟨level.depth, by simp [known]⟩
  edge located target edge := by
    obtain ⟨level, level', mark, known, known', changes, left⟩ := leveled.edge located target edge
    refine ⟨level.depth, level'.depth, by simp [known], by simp [known'], ?_⟩
    have none : mark.operands = 0 := by
      rcases left with rfl | ⟨⟨pending, value, span, within, rfl⟩, -⟩
      · rfl
      · exact clear.1 pending value span within
    simpa [none] using changes.depth
  finish located member returns := by
    obtain ⟨operands, handlers, depth, known⟩ := leveled.finish located member returns
    have none : operands = 0 := by
      rcases depth with none | ⟨pending, value, span, within, rfl⟩
      · exact none
      · exact clear.2 pending value span within
    simp [known, none]

end

/-- A value is left whenever one is asked for. -/
theorem eq_true_of_emit {scopes : Scopes} {options : Options} {id : ScopeId} {state final : State}
    {value : Bool} (run : emit node false (.ofScope scopes options id) state = .ok value final) :
    value = true := by
  let setting : Setting :=
    { scopes, options, origin := state.store, Known := fun _ => True, Literal := fun _ _ => True,
      known_own := fun _ _ => trivial, known_local := fun _ _ _ _ => trivial
      known_global := fun _ _ _ => trivial }
  have covers : setting.Covers node := ⟨fun _ _ _ => trivial, fun _ _ _ _ _ _ _ => trivial⟩
  have result := (yields_emit covers node .whole id {} false (.refl _ _) run).1
  rwa [leavesValue_false] at result

end Emission

/-- The instructions of a block have depths on which all paths agree. -/
def CodeBlock.IsBalanced (block : CodeBlock) : Prop :=
  ∃ code depths, decodeAll block.code = .ok code ∧ Balanced code depths

theorem isBalanced_of_sealedFor {initial : Store} {options : Options} {body : Node}
    {block : CodeBlock} (clear : NothingWaits body)
    (sealed : SealedFor initial options body block) : block.IsBalanced := by
  obtain ⟨setting, id, pool, store, code, -, sealed, -⟩ := sealed
  obtain ⟨levels, leveled⟩ := sealed.leveled
  exact ⟨_, _, decodeAll_of_sealed sealed, leveled.balanced clear⟩

namespace Compiler

/-- The stack discipline.  In a program in which nothing waits at breaks and
returns, the depth of the stack is known in front of every instruction of
every block that was not there before.  An expression that is asked for a value
leaves one. -/
theorem isBalanced_of_compiled {compiler middle final : Compiler} {tree : Node} {block : CodeBlock}
    (reads : Reads compiler tree middle) (run : compileTree tree middle = .ok block final)
    (clear : ∀ body, tree.HasBody body → NothingWaits body) :
    block.IsBalanced ∧
      (∀ inner ∈ block.nested, compiler.store.Holds inner ∨ inner.IsBalanced) ∧
      ∀ scopes options id node state value state',
        emit node false (.ofScope scopes options id) state = .ok value state' → value = true := by
  have made := (reads.compiles run).madeOf
  refine ⟨isBalanced_of_sealedFor (clear tree (.inl rfl)) made.whole, fun inner member => ?_,
    fun _ _ _ _ _ _ _ => eq_true_of_emit⟩
  rcases made.nested inner member with holds | ⟨body, isBody, sealed⟩
  · exact .inl holds
  · exact .inr (isBalanced_of_sealedFor (clear body isBody) sealed)

/-- A loop that is left with an array, inside a function of its own. -/
def search : String :=
  "func(x) begin while x do if y then break [1, x] else try foo(x) onexception |e| do nil; x end"

theorem isBalanced_search :
    ∃ tree middle block final, Reads (.ofString search .empty {}) tree middle ∧
      compileTree tree middle = .ok block final ∧
      (∀ body, tree.HasBody body → NothingWaits body) ∧ block.nested.length = 1 ∧
      block.IsBalanced ∧ ∀ inner ∈ block.nested, inner.IsBalanced := by
  have clears : (given? (parse Parser.program (.ofString search .empty {}))).map
      (isClearThroughout 10) = some true := by
    decide +kernel
  have gives : (given? ((parse Parser.program >>= compileTree) (.ofString search .empty {}))).map
      (fun block => block.nested.length) = some 1 := by
    decide +kernel
  obtain ⟨block, found, one⟩ := Option.map_eq_some_iff.mp gives
  obtain ⟨final, run⟩ := exists_of_given? found
  obtain ⟨tree, middle, read, run⟩ := run_bind_eq_ok run
  rw [read] at clears
  have clear := nothingWaits_of_isClearThroughout (Option.some.inj clears)
  obtain ⟨whole, nested, -⟩ := isBalanced_of_compiled (.program read) run clear
  refine ⟨tree, middle, block, final, .program read, run, clear, one, whole, fun inner member => ?_⟩
  rcases nested inner member with ⟨value, ⟨name, found⟩, -⟩ | balanced
  · cases found
  · exact balanced

end Compiler

end NewtonScript
