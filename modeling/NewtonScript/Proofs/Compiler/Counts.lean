import Mathlib.Data.List.Dedup
import NewtonScript.Proofs.Compiler.Closures
import NewtonScript.Proofs.Compiler.Consistency

/-!
# How many arguments and locals a block tells

The argument word of a block has 32 bits, which the native layout shares
between the arguments and the locals.  No check is made before a function is
sealed, so the word tells the truth for exactly those functions whose counts
fit.
-/

namespace NewtonScript

open Emission

variable {params : List Param} {block : CodeBlock}

/-! ## Argument words -/

/-- A block tells these numbers of arguments and locals.  Only the native
argument word counts the locals. -/
def CodeBlock.Counts (block : CodeBlock) (args locals : Nat) : Prop :=
  block.argCount = args ∧ (block.compat = .native → (block.numArgs >>> 16).toNat = locals)

/-- Numbers of arguments and locals for which the argument word has room. -/
def Compatibility.Fits : Compatibility → Nat → Nat → Prop
  | .native, args, locals => args < 2 ^ 16 ∧ locals < 2 ^ 16
  | .newton20, args, _ => args < 2 ^ 32

theorem toNat_word_and (args locals : Nat) :
    ((locals.toUInt32 <<< 16 ||| args.toUInt32) &&& 0xFFFF).toNat = args % 2 ^ 16 := by
  have upper : (locals.toUInt32 <<< 16).toNat % 2 ^ 16 = 0 := by
    simp only [UInt32.toNat_shiftLeft, Nat.shiftLeft_eq, UInt32.reduceToNat, Nat.reduceMod]
    omega
  have lower : args.toUInt32.toNat % 2 ^ 16 = args % 2 ^ 16 := by
    simp only [UInt32.toNat_ofNat']
    omega
  have mask : (0xFFFF : UInt32).toNat = 2 ^ 16 - 1 := rfl
  rw [UInt32.toNat_and, UInt32.toNat_or, mask, Nat.and_two_pow_sub_one_eq_mod, Nat.or_mod_two_pow,
    upper, lower, Nat.zero_or]

theorem toNat_word_shift {args locals : Nat} (few : args < 2 ^ 16) (fewLocals : locals < 2 ^ 16) :
    ((locals.toUInt32 <<< 16 ||| args.toUInt32) >>> 16).toNat = locals := by
  have upper : (locals.toUInt32 <<< 16).toNat >>> 16 = locals := by
    simp only [UInt32.toNat_shiftLeft, Nat.shiftLeft_eq, UInt32.reduceToNat, Nat.reduceMod,
      UInt32.toNat_ofNat', Nat.shiftRight_eq_div_pow]
    omega
  have lower : args.toUInt32.toNat >>> 16 = 0 := by
    simp only [UInt32.toNat_ofNat', Nat.shiftRight_eq_div_pow]
    omega
  have shift : (16 : UInt32).toNat % 32 = 16 := rfl
  rw [UInt32.toNat_shiftRight, UInt32.toNat_or, shift, Nat.shiftRight_or_distrib, upper, lower,
    Nat.or_zero]

/-- An argument word counts right exactly when it has room for the counts. -/
theorem CodeBlock.counts_iff_fits {scope : Scope}
    (word : block.numArgs = FrameLayout.argumentWord scope block.compat) :
    block.Counts scope.args.length scope.locals.length ↔
      block.compat.Fits scope.args.length scope.locals.length := by
  unfold Counts argCount
  generalize block.compat = compat at word ⊢
  rw [word]
  cases compat with
  | newton20 => simp [FrameLayout.argumentWord, Compatibility.Fits]
  | native =>
    simp only [FrameLayout.argumentWord, Compatibility.Fits, toNat_word_and, forall_const]
    constructor
    · rintro ⟨args, locals⟩
      refine ⟨args ▸ Nat.mod_lt _ (Nat.two_pow_pos 16), locals ▸ ?_⟩
      rw [UInt32.toNat_shiftRight, Nat.shiftRight_eq_div_pow]
      exact Nat.div_lt_of_lt_mul (UInt32.toNat_lt _)
    · rintro ⟨few, fewLocals⟩
      exact ⟨Nat.mod_eq_of_lt few, toNat_word_shift few fewLocals⟩

/-! ## Parameters -/

/-- How many different names parameters have. -/
def distinctNames (params : List Param) : Nat :=
  (params.map fun param => param.name.folded).dedup.length

theorem Symbol.contains_iff {names : List Symbol} {name : Symbol} :
    names.contains name = true ↔ name.folded ∈ names.map Symbol.folded := by
  rw [List.contains_iff_exists_mem_beq, List.mem_map]
  exact exists_congr fun other => and_congr_right fun _ => beq_iff.trans eq_comm

/-- Distinct arguments that have the names of parameters are as many as these
names. -/
theorem length_eq_distinctNames {args : List Symbol}
    (distinct : args.Pairwise fun first second => (first == second) = false)
    (members : ∀ name, args.contains name = (params.map Param.name).contains name) :
    args.length = distinctNames params := by
  have nodup : (args.map Symbol.folded).Nodup := by
    refine List.pairwise_map.mpr (distinct.imp fun {first second} different equal => ?_)
    exact Bool.eq_false_iff.mp different (Symbol.beq_iff.mpr equal)
  have same : ∀ folded, folded ∈ args.map Symbol.folded ↔
      folded ∈ (params.map Param.name).map Symbol.folded := by
    intro folded
    constructor <;> intro member <;> obtain ⟨name, _, rfl⟩ := List.mem_map.mp member
    · rwa [← Symbol.contains_iff, ← members, Symbol.contains_iff]
    · rwa [← Symbol.contains_iff, members, Symbol.contains_iff]
  have perm := (List.perm_ext_iff_of_nodup nodup (List.nodup_dedup _)).mpr fun folded =>
    (same folded).trans List.mem_dedup.symm
  simpa [distinctNames, Function.comp_def] using perm.length_eq

/-- A function has as many arguments as its parameters have names. -/
theorem Node.HasFunction.length_args {tree body : Node} {scopes : Scopes} {id : ScopeId}
    (function : tree.HasFunction scopes id params body) (ofTree : scopes.Of tree)
    (distinct : tree.functionIds.Nodup) : (scopes.get id).args.length = distinctNames params := by
  obtain ⟨store, bag, declared, store', bag', run, referred⟩ := ofTree
  have same := Scopes.sameNames_withReferences referred
  rw [same.args]
  have tidy := (Scopes.clean_ofTree run).tidy id
  refine length_eq_distinctNames (List.pairwise_append.mp tidy.distinct).1 fun name => ?_
  cases function with
  | top =>
    have kept : (declared.get Scopes.root).args = _ :=
      (Declaration.later_of_performAll _ (Scopes.exists_of_ofTree run)).args _ Nat.zero_lt_one
    rw [kept]
    rfl
  | literal occurs scope =>
    have nested := Scopes.nested_ofTree run distinct
    obtain ⟨outer, site⟩ := Scopes.exists_site_of_occurs nested occurs
    obtain ⟨inner, found, -, members⟩ := nested _ _ _ _ _ _ _ site
    rw [Scopes.scopeOf?, same.byFunction] at scope
    cases found.symm.trans scope
    exact members name

/-! ## Blocks -/

namespace Compiler

theorem Compiles.nodup_functionIds {initial : Store} {options : Options} {tree : Node}
    (compiles : Compiles initial options tree block) : tree.functionIds.Nodup := by
  obtain ⟨_, _, _, -, reads, -⟩ := compiles
  exact reads.nodup_functionIds

/-- The block of a function tells how many distinct parameters and, in the native
layout, how many locals the function has, exactly when these numbers fit. -/
theorem counts_of_isBlockOf {tree body : Node} {scopes : Scopes} (ofTree : scopes.Of tree)
    (distinct : tree.functionIds.Nodup) {id : ScopeId}
    (function : tree.HasFunction scopes id params body) {compat : Compatibility}
    (made : IsBlockOf scopes compat id block) :
    block.Counts (distinctNames params) (scopes.get id).locals.length ↔
      compat.Fits (distinctNames params) (scopes.get id).locals.length := by
  obtain ⟨word, -, -, rfl⟩ := made.header
  rw [← function.length_args ofTree distinct]
  exact CodeBlock.counts_iff_fits word

/-- What is compiled comes from one tree.  Whatever block is sealed for a
function of the tree counts the distinct parameters and the locals of that
function right exactly when these numbers fit.  The whole block was sealed for
the tree, and every block inside it for a function of the tree, unless it is
part of a constant that was there before. -/
theorem counts_of_compiled {text : String} {store : Store} {options : Options} {block : CodeBlock}
    (compiled : (∃ final, compile (.ofString text store options) = .ok block final) ∨
      .ok block ∈ (compileEach (.ofString text store options)).1) :
    ∃ tree setting, Compiles store options tree block ∧ setting.options = options ∧
      setting.scopes.Of tree ∧
      (∀ id params body, tree.HasFunction setting.scopes id params body →
        ∀ own, SealedAs setting id body own →
          (own.Counts (distinctNames params) (setting.scopes.get id).locals.length ↔
            options.compat.Fits (distinctNames params) (setting.scopes.get id).locals.length)) ∧
      SealedAs setting Scopes.root tree block ∧
      ∀ inner ∈ block.nested, store.Holds inner ∨ SealedIn setting tree inner := by
  obtain ⟨tree, setting, compiles, rfl, made⟩ := madeIn_of_compiled compiled
  refine ⟨tree, setting, compiles, rfl, made.scopes, ?_, made.whole, made.nested⟩
  rintro id params body function own ⟨pool, final, code, sealed⟩
  exact counts_of_isBlockOf made.scopes compiles.nodup_functionIds function sealed.made

/-- A function with three parameters, two of which have the same name, and a
local. -/
def repeatedName : String := "func(x, y, X) begin local z; z end"

theorem counts_repeatedName :
    ∃ block final, compile (.ofString repeatedName .empty {}) = .ok block final ∧
      block.nested.map CodeBlock.numArgs = [0x10002] ∧ ∃ (tree : Node) (setting : Setting),
      setting.scopes.Of tree ∧ ∀ inner ∈ block.nested, ∃ id params body,
        tree.HasFunction setting.scopes id params body ∧ SealedAs setting id body inner ∧
        (inner.Counts (distinctNames params) (setting.scopes.get id).locals.length ↔
          distinctNames params < 2 ^ 16 ∧ (setting.scopes.get id).locals.length < 2 ^ 16) := by
  have gives : (given? (compile (.ofString repeatedName .empty {}))).map
      (fun block => block.nested.map CodeBlock.numArgs) = some [0x10002] := by
    decide +kernel
  obtain ⟨block, found, words⟩ := Option.map_eq_some_iff.mp gives
  obtain ⟨final, run⟩ := exists_of_given? found
  obtain ⟨tree, setting, -, -, ofTree, counts, -, nested⟩ := counts_of_compiled (.inl ⟨final, run⟩)
  refine ⟨block, final, run, words, tree, setting, ofTree, fun inner member => ?_⟩
  rcases nested inner member with ⟨value, ⟨name, defined⟩, -⟩ | ⟨id, params, body, function, own⟩
  · cases defined
  · exact ⟨id, params, body, function, own, counts id params body function inner own⟩

/-! ## Too many parameters -/

/-- A function literal that gives nil, whatever it is called with. -/
def ignoring (params : List Param) : Node :=
  ⟨.func 0 params ⟨.literal .nil, Span.none⟩ false none, Span.none⟩

/-- The scopes that such a literal declares. -/
def ignoringScopes (args : List Symbol) : Scopes :=
  { scopes := #[{ parent := none, span := Span.none },
      { parent := some Scopes.root, span := Span.none, args }]
    byFunction := Table.empty.insert 0 1 }

theorem ofTree_ignoring {args : List Symbol} {bag bag' : DiagnosticBag} {store : Store}
    (run : Declaration.arguments params .empty [] ⟨.ofSpan Span.none, store, bag⟩ =
      .ok args ⟨.ofSpan Span.none, store, bag'⟩) :
    Scopes.ofTree (ignoring params) store bag = (.ok (ignoringScopes args), store, bag') := by
  have added : Declaration.addFunction Scopes.root 0 params false none Span.none
      ⟨.ofSpan Span.none, store, bag⟩ = .ok 1 ⟨ignoringScopes args, store, bag'⟩ :=
    run_bind_of_ok run _
  have declared : Declaration.declare (ignoring params) Scopes.root
      ⟨.ofSpan Span.none, store, bag⟩ = .ok () ⟨ignoringScopes args, store, bag'⟩ :=
    (run_bind_of_ok added _).trans rfl
  rw [Scopes.ofTree, show (ignoring params).span = Span.none from rfl, declared]

/-- Any number of parameters is taken, and only the argument word depends on
it. -/
theorem compileTree_ignoring (params : List Param) :
    ∃ block final, compileTree (ignoring params) (.ofString "" .empty {}) = .ok block final ∧
      block.nested.map CodeBlock.argCount = [distinctNames params % 2 ^ 16] := by
  obtain ⟨args, bag, run, distinct, members⟩ := @Declaration.arguments_eq_ok params .empty []
    (by simp [Trie.get?_empty]) .nil ⟨.ofSpan Span.none, .empty, .empty⟩
  have counts : (match treeOutcome (ignoring params) {} .empty .empty with
      | (.ok block, _, _) => some (block.nested.map CodeBlock.argCount)
      | _ => none) =
      some [((([] : List Symbol).length.toUInt32 <<< 16 ||| args.length.toUInt32) &&& 0xFFFF).toNat] := by
    rw [treeOutcome, ofTree_ignoring run]
    with_unfolding_all rfl
  rw [toNat_word_and, length_eq_distinctNames distinct (by simpa using members)] at counts
  split at counts
  · rename_i block store reports outcome
    exact ⟨block, _, compileTree_of_ok outcome, Option.some.inj counts⟩
  · cases counts

/-- As many parameters as do not fit. -/
def manyParams : List Param :=
  (List.range (2 ^ 16)).map fun n =>
    ⟨.ofString (String.ofList (List.replicate n 'a')), none, Span.none⟩

/-- A function with 65536 distinct parameters is compiled, and its block tells
that it has none. -/
theorem argCount_manyParams :
    distinctNames manyParams = 2 ^ 16 ∧
      ∃ block final, compileTree (ignoring manyParams) (.ofString "" .empty {}) = .ok block final ∧
        block.nested.map CodeBlock.argCount = [0] := by
  have all : distinctNames manyParams = 2 ^ 16 := by
    have nodup : (manyParams.map fun param => param.name.folded).Nodup := by
      rw [manyParams, List.map_map]
      refine List.nodup_range.map fun first second equal => ?_
      have lengths := congrArg String.length equal
      simpa [Symbol.ofString, foldCase] using lengths
    rw [distinctNames, nodup.dedup]
    simp [manyParams]
  obtain ⟨block, final, run, counts⟩ := compileTree_ignoring manyParams
  rw [all] at counts
  exact ⟨all, block, final, run, counts⟩

end Compiler

end NewtonScript
