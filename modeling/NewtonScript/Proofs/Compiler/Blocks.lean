import NewtonScript.Compiler
import NewtonScript.Proofs.Emission.Adequacy
import NewtonScript.Proofs.Emission.Sealed
import NewtonScript.Proofs.Scope.Effects
import NewtonScript.Proofs.Tree.Parsed

/-!
# The blocks that a compiler makes

A compiler reads trees and seals a block for each of them.  Every block inside
such a block was sealed for a function literal of the tree, or it was there
before: it is part of a constant of the store with which compiling began.
-/

namespace NewtonScript

open Emission

variable {body : Node} {scopes : Scopes} {id : ScopeId}

/-! ## Stores -/

namespace Store

/-- A value is a global constant. -/
def Defines (store : Store) (value : Value) : Prop :=
  ∃ name, store.constants.get? name = some value

/-- The values that can become literals before any code is sealed: the global
constants, and all values that are neither maps nor blocks. -/
def Known (store : Store) (value : Value) : Prop :=
  value.isPlain ∨ store.Defines value

/-- A block is part of a global constant. -/
def Holds (store : Store) (block : CodeBlock) : Prop :=
  ∃ value, store.Defines value ∧ block ∈ value.blocks

/-- Maps are told apart by their numbers: those that are shared, and those
that are global constants. -/
def Distinct (store : Store) : Prop :=
  store.Coherent store.Known

/-- A store to which compiling came from an initial one: its constants were
known there, and its maps are told apart if they were told apart there. -/
structure Descends (initial store : Store) : Prop where
  constants : ∀ value, store.Defines value → initial.Known value
  distinct : initial.Distinct → store.Coherent initial.Known

theorem Descends.refl (initial : Store) : initial.Descends initial :=
  ⟨fun _ => .inr, id⟩

/-- The values that can become literals where the words fit that are read. -/
def Admits (initial : Store) (strict : Prop) (value : Value) : Prop :=
  initial.Known value ∧ (strict → value.fits)

/-- A store that descends from an initial one, and has constants that are
admitted. -/
structure Comes (strict : Prop) (initial store : Store) : Prop where
  constants : ∀ value, store.Defines value → initial.Admits strict value
  distinct : initial.Distinct → store.Coherent (initial.Admits strict)

section

variable {strict : Prop} {initial before after store : Store} {value : Value}

theorem admits_of_isOwn (own : value.isOwn) : initial.Admits strict value :=
  have ⟨plain, fits⟩ := Bool.and_eq_true_iff.mp own
  ⟨.inl plain, fun _ => fits⟩

theorem admits_of_suits (suits : value.Suits strict) : initial.Admits strict value :=
  ⟨.inl suits.1, suits.2⟩

theorem Comes.trans (comes : initial.Comes strict before)
    (harmless : Harmless (initial.Admits strict) before after) : initial.Comes strict after where
  constants := by
    rintro value ⟨name, found⟩
    rw [harmless.extends_.constants] at found
    exact comes.constants value ⟨name, found⟩
  distinct := harmless.coherent ∘ comes.distinct

theorem Comes.defineConstant {name : Symbol} (comes : initial.Comes strict store)
    (admits : initial.Admits strict value) :
    initial.Comes strict (store.defineConstant name value) where
  constants := by
    rintro found ⟨other, got⟩
    rcases Table.get?_insert got with rfl | old
    · exact admits
    · exact comes.constants found ⟨other, old⟩
  distinct := fun distinct => (comes.distinct distinct).of_same_maps rfl (Nat.le_refl _)

end

end Store

/-! ## Blocks inside blocks -/

theorem Value.mem_blocksOfAll {values : List Value} {block : CodeBlock} :
    block ∈ Value.blocksOfAll values ↔ ∃ value ∈ values, block ∈ value.blocks := by
  induction values with
  | nil => simp [Value.blocksOfAll]
  | cons value rest ih => simp [Value.blocksOfAll, ih]

/-- A block inside another is one of its literals, or inside one of them. -/
theorem CodeBlock.mem_nested {block inner : CodeBlock} {literals : List Value}
    (equal : block.literals.getD [] = literals) (member : inner ∈ block.nested) :
    ∃ object body, Value.block object body ∈ literals ∧ inner ∈ body :: body.nested := by
  obtain ⟨code, own, numArgs, argFrame, debug, compat⟩ := block
  cases own with
  | none => simp [CodeBlock.nested] at member
  | some own =>
    subst equal
    simp only [CodeBlock.nested, Value.mem_blocksOfAll] at member
    obtain ⟨value, inLiterals, inside⟩ := member
    cases value with
    | block object body => exact ⟨object, body, inLiterals, by simpa [Value.blocks] using inside⟩
    | _ => simp [Value.blocks] at inside

/-- A tree is the body of a function: it is the whole tree, or that of one of
its function literals. -/
def Node.HasBody (tree body : Node) : Prop :=
  body = tree ∨
    ∃ id params native name span, tree.Occurs ⟨.func id params body native name, span⟩

/-- A block was sealed for a function body by a compiler that began with a
store. -/
def Emission.SealedFor (initial : Store) (options : Options) (body : Node) (block : CodeBlock) :
    Prop :=
  ∃ setting id pool store code, setting.options = options ∧
    Sealed setting id body block pool store code ∧
    (initial.Distinct → store.Coherent setting.Known)

/-- The functions of a tree, with their scopes, their parameters and their
bodies: the tree itself, and its function literals. -/
inductive Node.HasFunction (tree : Node) (scopes : Scopes) :
    ScopeId → List Param → Node → Prop where
  | top : HasFunction tree scopes Scopes.root [] tree
  | literal {function : FuncId} {params : List Param} {body : Node} {native : Bool}
      {name : Option Symbol} {span : Span} {id : ScopeId}
      (occurs : tree.Occurs ⟨.func function params body native name, span⟩)
      (scope : scopes.scopeOf? function = some id) : HasFunction tree scopes id params body

theorem Node.HasFunction.hasBody {tree : Node} {params : List Param}
    (function : tree.HasFunction scopes id params body) : tree.HasBody body := by
  cases function with
  | top => exact .inl rfl
  | literal occurs => exact .inr ⟨_, _, _, _, _, occurs⟩

/-- Scopes are those of a tree, with its references noted. -/
def Scopes.Of (scopes : Scopes) (tree : Node) : Prop :=
  ∃ store bag declared store' bag', Scopes.ofTree tree store bag = (.ok declared, store', bag') ∧
    declared.withReferences tree = .ok scopes

/-- A block was sealed for a body, as that of the function with a scope. -/
def Emission.SealedAs (setting : Setting) (id : ScopeId) (body : Node) (block : CodeBlock) : Prop :=
  ∃ pool store code, Sealed setting id body block pool store code

/-- A block was sealed for a function of a tree. -/
def Emission.SealedIn (setting : Setting) (tree : Node) (block : CodeBlock) : Prop :=
  ∃ id params body, tree.HasFunction setting.scopes id params body ∧ SealedAs setting id body block

/-- A compiler that began with a store sealed a block for a tree.  The blocks
inside it were sealed for function literals of the tree, or they are part of a
constant of that store. -/
structure Emission.MadeIn (setting : Setting) (initial : Store) (tree : Node)
    (block : CodeBlock) : Prop where
  scopes : setting.scopes.Of tree
  distinct : initial.Distinct → setting.origin.Coherent setting.Known
  run : ∃ bag store bag', CodeBlock.ofTree tree setting.scopes setting.options setting.origin bag =
    (.ok block, store, bag')
  whole : SealedAs setting Scopes.root tree block
  nested : ∀ inner ∈ block.nested, initial.Holds inner ∨ SealedIn setting tree inner

/-- A compiler that began with a store and options made a block of a tree, from
values that are admitted. -/
def Emission.MadeOf (strict : Prop) (initial : Store) (options : Options) (tree : Node)
    (block : CodeBlock) : Prop :=
  ∃ setting, setting.options = options ∧
    (∀ value, setting.Known value → initial.Admits strict value) ∧
      MadeIn setting initial tree block

namespace Emission

variable {store initial : Store} {block : CodeBlock} {strict : Prop} {setting : Setting}
  {tree : Node}

theorem MadeIn.sealedFor {inner : CodeBlock} (made : MadeIn setting initial tree block)
    (sealed : SealedAs setting id body inner) : SealedFor initial setting.options body inner :=
  have ⟨_, _, _, sealed⟩ := sealed
  ⟨setting, _, _, _, _, rfl, sealed, sealed.store.coherent ∘ made.distinct⟩

theorem MadeOf.whole {options : Options} (made : MadeOf strict initial options tree block) :
    SealedFor initial options tree block := by
  obtain ⟨setting, rfl, -, made⟩ := made
  exact made.sealedFor made.whole

theorem MadeOf.nested {options : Options} (made : MadeOf strict initial options tree block)
    (inner : CodeBlock) (member : inner ∈ block.nested) :
    initial.Holds inner ∨ ∃ body, tree.HasBody body ∧ SealedFor initial options body inner := by
  obtain ⟨setting, rfl, -, made⟩ := made
  refine (made.nested inner member).imp_right ?_
  rintro ⟨id, params, body, function, sealed⟩
  exact ⟨body, function.hasBody, made.sealedFor sealed⟩

/-- The blocks inside a sealed one are known, if those among its literals
are that were not there before. -/
theorem nested_of_sealed (known : ∀ value, setting.Known value → initial.Known value)
    {pool : Bytecode.LiteralPool} {code : Bytecode.Fragment Bytecode.Instruction}
    (sealed : Sealed setting id body block pool store code)
    (blocks : ∀ object inner, Value.block object inner ∈ pool.values.toList →
      ¬ setting.Known (.block object inner) →
        ∀ deeper ∈ inner :: inner.nested, initial.Holds deeper ∨ SealedIn setting tree deeper) :
    ∀ inner ∈ block.nested, initial.Holds inner ∨ SealedIn setting tree inner := by
  intro inner member
  obtain ⟨object, body, literal, inside⟩ := CodeBlock.mem_nested sealed.literals_eq member
  by_cases isKnown : setting.Known (.block object body)
  · rcases known _ isKnown with plain | defined
    · cases plain
    · exact .inl ⟨_, defined, by simpa [Value.blocks] using inside⟩
  · exact blocks object body literal isKnown inner inside

variable (known : ∀ value, setting.Known value → initial.Known value)
  (literals : ∀ function body, setting.Literal function body → ∃ params native name span,
    tree.Occurs ⟨.func function params body native name, span⟩)
include known literals

theorem blocks_of_compiled (compiled : Compiled setting block) :
    ∀ inner ∈ block :: block.nested, initial.Holds inner ∨ SealedIn setting tree inner := by
  induction compiled with
  | intro literal scope sealed _ ih =>
    obtain ⟨params, native, name, span, occurs⟩ := literals _ _ literal
    refine List.forall_mem_cons.mpr ⟨.inr ?_, nested_of_sealed known sealed ih⟩
    exact ⟨_, params, _, .literal occurs scope, _, _, _, sealed⟩

theorem madeIn_ofTree (covers : setting.Covers tree) (scopes : setting.scopes.Of tree)
    (distinct : initial.Distinct → setting.origin.Coherent setting.Known) {bag bag' : DiagnosticBag}
    (run : CodeBlock.ofTree tree setting.scopes setting.options setting.origin bag =
      (.ok block, store, bag')) : MadeIn setting initial tree block := by
  obtain ⟨-, pool, final, code, sealed, origins⟩ := ofTree_eq_ok covers run
  refine ⟨scopes, distinct, ⟨_, _, _, run⟩, ⟨_, _, _, sealed⟩, ?_⟩
  refine nested_of_sealed known sealed fun object inner member unknown => ?_
  rcases origins _ member with isKnown | ⟨shape, -, equal⟩ | ⟨_, _, equal, compiled⟩
  · exact absurd isKnown unknown
  · cases equal
  · cases equal
    exact blocks_of_compiled known literals compiled

end Emission

/-! ## Compiling -/

namespace Compiler

variable {tree : Node} {compiler final : Compiler} {block : CodeBlock}

/-- A compiler that began with a store and options. -/
structure Sound (initial : Store) (options : Options) (compiler : Compiler) : Prop where
  options_eq : compiler.options = options
  store : initial.Descends compiler.store

/-- A sound compiler with constants that are admitted.  Where it is strict, the
words fit that it has read. -/
structure Keeps (strict : Prop) (initial : Store) (options : Options) (compiler : Compiler) :
    Prop where
  options_eq : compiler.options = options
  store : initial.Comes strict compiler.store
  parser : strict → compiler.parser.Fits

variable {strict : Prop} {initial : Store} {options : Options}

theorem Sound.keeps (sound : compiler.Sound initial options) :
    compiler.Keeps False initial options :=
  ⟨sound.options_eq, ⟨fun value defined => ⟨sound.store.constants value defined, False.elim⟩,
    fun distinct => (sound.store.distinct distinct).mono fun _ admits => admits.1⟩, False.elim⟩

theorem Keeps.sound (keeps : compiler.Keeps strict initial options) :
    compiler.Sound initial options :=
  ⟨keeps.options_eq, fun value defined => (keeps.store.constants value defined).1,
    fun distinct => (keeps.store.distinct distinct).mono fun _ known => ⟨known, fun _ => rfl⟩⟩

theorem sound_ofString (text : String) (store : Store) (options : Options) :
    (Compiler.ofString text store options).Sound store options :=
  ⟨rfl, .refl store⟩

theorem ensures_parse {α : Type} {action : Parser.ParseM α} {result : α → Prop}
    (ensures : ∀ origin, Ensures (Parser.Harmless strict (initial.Admits strict) origin) action result) :
    Ensures (Keeps strict initial options) (parse action) result := by
  intro compiler keeps
  have outcome := ensures compiler.store compiler.parser ⟨keeps.parser, .refl _ _⟩
  unfold parse
  cases run : action compiler.parser with
  | ok value parser =>
    rw [run] at outcome
    exact ⟨⟨keeps.options_eq, keeps.store.trans outcome.1.2, outcome.1.1⟩, outcome.2⟩
  | error failure parser =>
    rw [run] at outcome
    exact ⟨⟨keeps.options_eq, keeps.store.trans outcome.1.2, outcome.1.1⟩, trivial⟩

theorem ensures_step {α : Type}
    {action : Store → DiagnosticBag → Except Failure α × Store × DiagnosticBag} {result : α → Prop}
    (comes : ∀ store bag, initial.Comes strict store → initial.Comes strict (action store bag).2.1)
    (holds : ∀ store bag value store' bag', initial.Comes strict store →
      action store bag = (.ok value, store', bag') → result value) :
    Ensures (Keeps strict initial options) (step action) result := by
  intro compiler keeps
  have kept := comes compiler.store compiler.bag keeps.store
  unfold step
  rcases run : action compiler.store compiler.bag with ⟨outcome, store, bag⟩
  rw [run] at kept
  cases outcome with
  | ok value => exact ⟨⟨keeps.options_eq, kept, keeps.parser⟩, holds _ _ _ _ _ keeps.store run⟩
  | error failure => exact ⟨⟨keeps.options_eq, kept, keeps.parser⟩, trivial⟩

/-- The local constants of scopes are admitted. -/
def KnownConstants (strict : Prop) (initial : Store) (scopes : Scopes) : Prop :=
  ∀ id, ∀ entry ∈ (scopes.get id).constants.entries, initial.Admits strict entry.2

theorem ensures_ofTree (suits : tree.Suits strict) :
    Ensures (Keeps strict initial options) (step (Scopes.ofTree tree)) fun declared =>
      KnownConstants strict initial declared ∧ ∃ store bag store' bag',
        Scopes.ofTree tree store bag = (.ok declared, store', bag') := by
  have declared : ∀ store bag, initial.Comes strict store →
      Declaration.Declares (initial.Admits strict) store (Declaration.declare tree Scopes.root) ∧
        Declaration.Sound (initial.Admits strict) store ⟨.ofSpan tree.span, store, bag⟩ := by
    intro store bag comes
    have sources : Declaration.Sources (initial.Admits strict) store tree :=
      ⟨fun _ => Store.admits_of_isOwn,
        fun value span occurs => Store.admits_of_suits (suits value span occurs),
        fun name value found => comes.constants value ⟨name, found⟩⟩
    refine ⟨Declaration.preserves_declare sources tree Scopes.root .whole, .refl _ _, ?_⟩
    intro id entry member
    have empty : ((Scopes.ofSpan tree.span).get id).constants.entries = [] := by
      cases id <;> rfl
    rw [empty] at member
    cases member
  refine ensures_step (fun store bag comes => ?_) fun store bag scopes store' bag' comes run => ?_
  · obtain ⟨preserves, sound⟩ := declared store bag comes
    have outcome := preserves _ sound
    unfold Scopes.ofTree
    cases run : Declaration.declare tree Scopes.root ⟨.ofSpan tree.span, store, bag⟩ with
    | ok value state =>
      rw [run] at outcome
      exact comes.trans outcome.1.store
    | error failure state =>
      rw [run] at outcome
      exact comes.trans outcome.1.store
  · obtain ⟨preserves, sound⟩ := declared store bag comes
    refine ⟨?_, store, bag, store', bag', run⟩
    unfold Scopes.ofTree at run
    split at run
    · rename_i state ran
      cases run
      exact (preserves.of_ok sound ran).1.constants
    · cases run

theorem comes_defineConstants {store : Store} (known : KnownConstants strict initial scopes)
    (comes : initial.Comes strict store) : initial.Comes strict (defineConstants scopes store) := by
  have all := known Scopes.root
  unfold defineConstants
  generalize (scopes.get Scopes.root).constants.entries = entries at all ⊢
  induction entries generalizing store with
  | nil => exact comes
  | cons entry rest ih =>
    obtain ⟨first, others⟩ := List.forall_mem_cons.mp all
    exact ih (comes.defineConstant first) others

/-- What emission starts from in the scopes of a tree. -/
def settingOf (initial : Store) (options : Options) (tree : Node) {scopes : Scopes} {store : Store}
    (known : KnownConstants strict initial scopes) (comes : initial.Comes strict store) : Setting where
  scopes
  options
  origin := store
  Known := initial.Admits strict
  Literal id body := ∃ params native name span, tree.Occurs ⟨.func id params body native name, span⟩
  known_own _ := Store.admits_of_isOwn
  known_local id name value found := by
    obtain ⟨entry, member, rfl⟩ := Table.exists_mem_of_get? found
    exact known id entry member
  known_global name value found := comes.constants value ⟨name, found⟩

theorem ensures_blockOfTree (suits : tree.Suits strict) (ofTree : scopes.Of tree)
    (known : KnownConstants strict initial scopes) :
    Ensures (Keeps strict initial options) (step (CodeBlock.ofTree tree scopes options))
      (MadeOf strict initial options tree) := by
  refine ensures_step (fun store bag comes => ?_) fun store bag block _ _ comes run => ?_
  · exact comes.trans (harmless_ofTree _ tree scopes options store bag)
  · have covers : (settingOf initial options tree known comes).Covers tree :=
      ⟨fun value span occurs => Store.admits_of_suits (suits value span occurs),
        fun id params body native name span occurs => ⟨params, native, name, span, occurs⟩⟩
    exact ⟨_, rfl, fun _ => id,
      madeIn_ofTree (fun _ => And.left) (fun _ _ => id) covers ofTree comes.distinct run⟩

/-- The blocks of a tree that is compiled. -/
theorem ensures_compileTree (suits : tree.Suits strict) :
    Ensures (Keeps strict initial options) (compileTree tree) (MadeOf strict initial options tree) := by
  refine ensures_get.bind fun compiler keeps => ?_
  rw [keeps.options_eq]
  refine (ensures_ofTree suits).bind fun declared collected => ?_
  obtain ⟨known, store, bag, store', bag', collected⟩ := collected
  have referred : Ensures (Keeps strict initial options)
      (step fun store bag => (declared.withReferences tree, store, bag))
      fun scopes => scopes.Of tree ∧ KnownConstants strict initial scopes := by
    refine ensures_step (fun _ _ => id) fun _ _ scopes _ _ _ run => ?_
    have run : declared.withReferences tree = .ok scopes := congrArg Prod.fst run
    have same := Scopes.sameNames_withReferences run
    refine ⟨⟨store, bag, declared, store', bag', collected, run⟩, fun id entry member => ?_⟩
    exact known id entry (same.constants id ▸ member)
  refine referred.bind fun scopes facts => ?_
  obtain ⟨ofTree, known⟩ := facts
  refine (ensures_blockOfTree suits ofTree known).bind fun block made => ?_
  refine Ensures.seq ?_ fun _ => ensures_pure made
  exact ensures_step (fun _ _ => comes_defineConstants known) fun _ _ _ _ _ _ _ => trivial

/-- A compiler reads a tree: the rest of the text, its next command, or an
empty sequence when there is none. -/
inductive Reads (compiler : Compiler) : Node → Compiler → Prop where
  | program {tree : Node} {after : Compiler} (run : parse Parser.program compiler = .ok tree after) :
      Reads compiler tree after
  | command {tree : Node} {after : Compiler}
      (run : parse Parser.nextCommand compiler = .ok (some tree) after) :
      Reads compiler tree after
  | nothing {after : Compiler} (run : parse Parser.nextCommand compiler = .ok none after) :
      Reads compiler ⟨.begin [], Span.none⟩ after

theorem ensures_nextCommand :
    Ensures (Keeps strict initial options) (parse Parser.nextCommand)
      fun found => ∀ tree, found = some tree → tree.Suits strict :=
  ensures_parse fun _ => Parser.ensures_nextCommand

theorem suits_nothing : Node.Suits strict ⟨.begin [], Span.none⟩ := by
  refine Node.suits_of_inside ?_ ?_
  · rintro value ⟨⟩
  · simp [Expr.inside, Expr.children]

theorem Reads.keeps {after : Compiler} (keeps : compiler.Keeps strict initial options)
    (reads : Reads compiler tree after) :
    after.Keeps strict initial options ∧ tree.Suits strict := by
  cases reads with
  | program run => exact (ensures_parse fun _ => Parser.ensures_program).of_ok keeps run
  | command run =>
    obtain ⟨kept, suits⟩ := ensures_nextCommand.of_ok keeps run
    exact ⟨kept, suits _ rfl⟩
  | nothing run => exact ⟨(ensures_nextCommand.of_ok keeps run).1, suits_nothing⟩

/-- A compiler that began with a store and options came to a tree, and made a
block of it. -/
def Compiles (initial : Store) (options : Options) (tree : Node) (block : CodeBlock) : Prop :=
  ∃ before middle final, before.Sound initial options ∧ Reads before tree middle ∧
    compileTree tree middle = .ok block final

/-- A compiler of the kind came to a tree, and made a block of it. -/
def Comes (strict : Prop) (initial : Store) (options : Options) (tree : Node) (block : CodeBlock) :
    Prop :=
  ∃ before middle final, before.Keeps strict initial options ∧ Reads before tree middle ∧
    compileTree tree middle = .ok block final

theorem Comes.compiles (comes : Comes strict initial options tree block) :
    Compiles initial options tree block := by
  obtain ⟨before, middle, final, keeps, reads, run⟩ := comes
  exact ⟨before, middle, final, keeps.sound, reads, run⟩

theorem Comes.madeOf (comes : Comes strict initial options tree block) :
    tree.Suits strict ∧ MadeOf strict initial options tree block := by
  obtain ⟨before, middle, final, keeps, reads, run⟩ := comes
  obtain ⟨keeps, suits⟩ := reads.keeps keeps
  exact ⟨suits, ((ensures_compileTree suits).of_ok keeps run).2⟩

theorem Compiles.madeOf (compiles : Compiles initial options tree block) :
    MadeOf False initial options tree block := by
  obtain ⟨before, middle, final, sound, reads, run⟩ := compiles
  exact (Comes.madeOf ⟨before, middle, final, sound.keeps, reads, run⟩).2

/-- A tree that is read and compiled. -/
theorem Reads.compiles {middle : Compiler} (reads : Reads compiler tree middle)
    (run : compileTree tree middle = .ok block final) :
    Compiles compiler.store compiler.options tree block :=
  ⟨compiler, middle, final, ⟨rfl, .refl _⟩, reads, run⟩

/-- What is compiled as one block comes from a single tree. -/
theorem reads_of_compile (run : compile compiler = .ok block final) :
    ∃ tree middle, Reads compiler tree middle ∧ compileTree tree middle = .ok block final := by
  obtain ⟨state, middle, got, run⟩ := run_bind_eq_ok run
  cases got
  split at run
  · obtain ⟨command, middle, read, run⟩ := run_bind_eq_ok run
    cases command with
    | some tree => exact ⟨tree, middle, .command read, run⟩
    | none => exact ⟨_, middle, .nothing read, run⟩
  · obtain ⟨tree, middle, read, run⟩ := run_bind_eq_ok run
    exact ⟨tree, middle, .program read, run⟩

theorem comes_of_compileCommands (bound : Nat) (keeps : compiler.Keeps strict initial options)
    {results : List (Except Failure CodeBlock)}
    (made : ∀ block, .ok block ∈ results → ∃ tree, Comes strict initial options tree block) :
    (compileCommands bound compiler results).2.Keeps strict initial options ∧
      ∀ block, .ok block ∈ (compileCommands bound compiler results).1 →
        ∃ tree, Comes strict initial options tree block := by
  induction bound generalizing compiler results with
  | zero => exact ⟨keeps, made⟩
  | succ bound ih =>
    rw [compileCommands]
    split
    · rename_i read
      exact ⟨(ensures_nextCommand.of_ok keeps read).1, made⟩
    · rename_i tree middle read
      have reads : Reads compiler tree middle := .command read
      obtain ⟨kept, suits⟩ := reads.keeps keeps
      split
      · rename_i block final run
        refine ih ((ensures_compileTree suits).of_ok kept run).1 fun other member => ?_
        rcases List.mem_cons.mp member with equal | earlier
        · cases equal
          exact ⟨tree, _, _, _, keeps, reads, run⟩
        · exact made other earlier
      · rename_i failure final run
        refine ih ((ensures_compileTree suits).of_error kept run).1 fun other member => ?_
        exact made other (by simpa using member)
    · rename_i failure middle read
      have kept := (ensures_nextCommand.of_error keeps read).1
      obtain ⟨fits, harmless⟩ := Parser.harmless_synchronize
        (show middle.parser.Harmless strict (initial.Admits strict) middle.store from ⟨kept.parser, .refl _ _⟩)
      have synchronized : Keeps strict initial options
          { middle with parser := middle.parser.synchronize } :=
        ⟨kept.options_eq, kept.store.trans harmless, fits⟩
      exact ih synchronized fun other member => made other (by simpa using member)

/-- What is compiled command by command comes from the commands. -/
theorem comes_of_compileEach (keeps : compiler.Keeps strict initial options) :
    (compileEach compiler).2.Keeps strict initial options ∧
      ∀ block, .ok block ∈ (compileEach compiler).1 →
        ∃ tree, Comes strict initial options tree block := by
  have none_yet : ∀ block, .ok block ∈ ([] : List (Except Failure CodeBlock)) →
      ∃ tree, Comes strict initial options tree block := nofun
  obtain ⟨kept, made⟩ := comes_of_compileCommands
    (if compiler.options.firstOnly then 1 else compiler.parser.bound) keeps none_yet
  exact ⟨kept, fun block member => made block (List.mem_reverse.mp member)⟩

theorem comes_of_compiled (keeps : compiler.Keeps strict initial options)
    (compiled : (∃ final, compile compiler = .ok block final) ∨ .ok block ∈ (compileEach compiler).1) :
    ∃ tree, Comes strict initial options tree block := by
  rcases compiled with ⟨final, run⟩ | member
  · obtain ⟨tree, middle, reads, run⟩ := reads_of_compile run
    exact ⟨tree, compiler, middle, final, keeps, reads, run⟩
  · exact (comes_of_compileEach keeps).2 block member

/-- What is compiled from a text comes from one tree, for which its blocks were
sealed. -/
theorem madeIn_of_compiled {text : String}
    (compiled : (∃ final, compile (.ofString text initial options) = .ok block final) ∨
      .ok block ∈ (compileEach (.ofString text initial options)).1) :
    ∃ tree setting, Compiles initial options tree block ∧ setting.options = options ∧
      MadeIn setting initial tree block := by
  obtain ⟨tree, comes⟩ := comes_of_compiled (sound_ofString text initial options).keeps compiled
  have compiles := comes.compiles
  obtain ⟨setting, same, -, made⟩ := compiles.madeOf
  exact ⟨tree, setting, compiles, same, made⟩

end Compiler

end NewtonScript
