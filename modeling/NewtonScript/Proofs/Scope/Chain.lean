import NewtonScript.Proofs.Scope.Declared

/-!
# Chains of scopes

A scope is numbered behind the one around it.  So the scopes around a scope
stand in its chain with falling numbers, and the chain of each of them is the
rest of the chain from there on.

Every expression of a tree stands in the scope of a function: that of the
innermost function literal around it.  Where the variables of a function are
distinct, each has a slot of its own.  A loop has variables that its text
names, and hidden ones.
-/

namespace NewtonScript

/-- Whether a name is a variable or a constant of a function. -/
def Scope.binds (scope : Scope) (name : Symbol) : Bool :=
  scope.owns name || scope.constants.contains name

namespace Scopes

variable {id : ScopeId}

/-- Scopes are numbered behind those around them. -/
def Numbered (scopes : Scopes) : Prop :=
  ∀ id parent, (scopes.get id).parent = some parent → parent < id

variable {scopes : Scopes}

theorem climb_eq_chain (numbered : scopes.Numbered) {steps : Nat} (enough : id < steps) :
    scopes.climb steps id = scopes.chain id := by
  induction id using Nat.strongRecOn generalizing steps with
  | ind id ih =>
    obtain ⟨steps, rfl⟩ := Nat.exists_eq_add_one_of_ne_zero (Nat.ne_zero_of_lt enough)
    rw [chain, climb, climb]
    cases found : (scopes.get id).parent with
    | none => rfl
    | some parent =>
      have below := numbered id parent found
      have fewer : parent < steps := Nat.lt_of_lt_of_le below (Nat.le_of_lt_succ enough)
      dsimp only
      rw [ih parent below fewer, ih parent below below]

theorem chain_of_parent (numbered : scopes.Numbered) {parent : ScopeId}
    (found : (scopes.get id).parent = some parent) :
    scopes.chain id = id :: scopes.chain parent := by
  rw [chain, climb, found]
  exact congrArg (id :: ·) (climb_eq_chain numbered (numbered id parent found))

theorem chain_of_no_parent (found : (scopes.get id).parent = none) : scopes.chain id = [id] := by
  rw [chain, climb, found]

theorem exists_chain_eq (scopes : Scopes) (id : ScopeId) :
    ∃ rest, scopes.chain id = id :: rest := by
  rw [chain, climb]
  split <;> exact ⟨_, rfl⟩

theorem mem_chain_self (scopes : Scopes) (id : ScopeId) : id ∈ scopes.chain id := by
  obtain ⟨rest, equal⟩ := exists_chain_eq scopes id
  rw [equal]
  exact List.mem_cons_self

/-- What holds of a scope whenever it holds of the one around it, holds of
all scopes. -/
theorem Numbered.induction (numbered : scopes.Numbered) {motive : ScopeId → Prop}
    (top : ∀ id, (scopes.get id).parent = none → motive id)
    (inner : ∀ id parent, (scopes.get id).parent = some parent → motive parent → motive id)
    (id : ScopeId) : motive id := by
  induction id using Nat.strongRecOn with
  | ind id ih =>
    cases found : (scopes.get id).parent with
    | none => exact top id found
    | some parent => exact inner id parent found (ih parent (numbered _ _ found))

theorem le_of_mem_chain (numbered : scopes.Numbered) {outer : ScopeId}
    (member : outer ∈ scopes.chain id) : outer ≤ id := by
  induction id using numbered.induction with
  | top id found => simp_all [chain_of_no_parent found]
  | inner id parent found ih =>
    rw [chain_of_parent numbered found] at member
    rcases List.mem_cons.mp member with rfl | around
    · exact Nat.le_refl _
    · exact Nat.le_of_lt (Nat.lt_of_le_of_lt (ih around) (numbered _ _ found))

theorem pairwise_chain (numbered : scopes.Numbered) (id : ScopeId) :
    (scopes.chain id).Pairwise (· > ·) := by
  induction id using numbered.induction with
  | top id found => simp [chain_of_no_parent found]
  | inner id parent found ih =>
    rw [chain_of_parent numbered found]
    refine List.pairwise_cons.mpr ⟨fun outer around => ?_, ih⟩
    exact Nat.lt_of_le_of_lt (le_of_mem_chain numbered around) (numbered _ _ found)

/-- The chain of a scope in a chain is the rest of it. -/
theorem chain_suffix (numbered : scopes.Numbered) {outer : ScopeId}
    (member : outer ∈ scopes.chain id) : scopes.chain outer <:+ scopes.chain id := by
  induction id using numbered.induction with
  | top id found =>
    simp only [chain_of_no_parent found, List.mem_singleton] at member
    subst member
    exact List.suffix_refl _
  | inner id parent found ih =>
    rw [chain_of_parent numbered found] at member ⊢
    rcases List.mem_cons.mp member with rfl | around
    · exact ⟨[], chain_of_parent numbered found⟩
    · exact (ih around).trans (List.suffix_cons _ _)

/-- Along a chain, the scopes in front of one of them are those inside it. -/
theorem mem_front_iff (numbered : scopes.Numbered) {outer inner : ScopeId}
    {front rest : List ScopeId} (split : scopes.chain id = front ++ outer :: rest) :
    inner ∈ front ↔ inner ∈ scopes.chain id ∧ outer ∈ scopes.chain inner ∧ outer ≠ inner := by
  have falling := pairwise_chain numbered id
  rw [split] at falling
  obtain ⟨-, behind, above⟩ := List.pairwise_append.mp falling
  constructor
  · intro member
    have inChain : inner ∈ scopes.chain id := by simp [split, member]
    have higher := above inner member outer List.mem_cons_self
    refine ⟨inChain, ?_, Nat.ne_of_lt higher⟩
    -- The chain of the inner scope is what is left of the chain, and what was
    -- passed has higher numbers.
    obtain ⟨passed, equal⟩ := chain_suffix numbered inChain
    have inBoth : outer ∈ passed ++ scopes.chain inner := by simp [equal, split]
    rcases List.mem_append.mp inBoth with early | late
    · have falling := pairwise_chain numbered id
      rw [← equal] at falling
      have lower := (List.pairwise_append.mp falling).2.2 outer early inner (mem_chain_self _ _)
      exact absurd higher (Nat.lt_asymm lower)
    · exact late
  · rintro ⟨inChain, around, different⟩
    have lower := le_of_mem_chain numbered around
    rw [split] at inChain
    rcases List.mem_append.mp inChain with early | late
    · exact early
    · rcases List.mem_cons.mp late with equal | later
      · exact absurd equal.symm different
      · have higher := (List.pairwise_cons.mp behind).1 inner later
        exact absurd higher (Nat.not_lt_of_le lower)

/-! ## Binders -/

/-- The innermost function around that owns a name or binds it as a
constant. -/
def binder? (scopes : Scopes) (id : ScopeId) (name : Symbol) : Option ScopeId :=
  (scopes.chain id).find? fun outer => (scopes.get outer).binds name

namespace SameNames

variable {before after : Scopes}

theorem climb (same : before.SameNames after) (steps : Nat) (id : ScopeId) :
    after.climb steps id = before.climb steps id := by
  induction steps generalizing id with
  | zero => rfl
  | succ steps ih =>
    rw [Scopes.climb, Scopes.climb, same.parent]
    simp only [ih]

theorem chain (same : before.SameNames after) (id : ScopeId) : after.chain id = before.chain id :=
  same.climb (id + 1) id

theorem owns (same : before.SameNames after) (id : ScopeId) :
    (after.get id).owns = (before.get id).owns := by
  funext name
  rw [Scope.owns, Scope.owns, same.args, same.locals]

end SameNames

end Scopes

/-! ## Where expressions stand -/

variable {part : Node}

/-- The nodes of a tree that stands in a scope, each with the scope of the
innermost function around it. -/
inductive Scopes.Site (scopes : Scopes) (tree : Node) (id : ScopeId) : ScopeId → Node → Prop where
  | whole : Site scopes tree id id tree
  | child {inner : ScopeId} {node child : Node} (outer : Site scopes tree id inner node)
      (member : child ∈ node.expr.children) : Site scopes tree id inner child
  | body {outside inner : ScopeId} {function : FuncId} {params : List Param} {body : Node}
      {native : Bool} {name : Option Symbol} {span : Span}
      (outer : Site scopes tree id outside ⟨.func function params body native name, span⟩)
      (scope : scopes.scopeOf? function = some inner) : Site scopes tree id inner body

namespace Scopes.Site

variable {scopes : Scopes} {tree : Node} {id inner deeper : ScopeId}

theorem trans {node : Node} (outer : scopes.Site tree id inner node)
    (below : scopes.Site node inner deeper part) : scopes.Site tree id deeper part := by
  induction below with
  | whole => exact outer
  | child _ member ih => exact ih.child member
  | body _ scope ih => exact ih.body scope

theorem of_sameNames {other : Scopes} (same : scopes.SameNames other)
    (site : other.Site tree id inner part) : scopes.Site tree id inner part := by
  induction site with
  | whole => exact .whole
  | child _ member ih => exact ih.child member
  | body _ scope ih =>
    rw [scopeOf?, same.byFunction] at scope
    exact ih.body scope

/-- What stands in a function literal is the literal, or it stands in its
body. -/
theorem func_iff {function : FuncId} {params : List Param} {body : Node} {native : Bool}
    {name : Option Symbol} {span : Span} :
    scopes.Site ⟨.func function params body native name, span⟩ id deeper part ↔
      deeper = id ∧ part = ⟨.func function params body native name, span⟩ ∨
        ∃ inner, scopes.scopeOf? function = some inner ∧ scopes.Site body inner deeper part := by
  constructor
  · intro site
    induction site with
    | whole => exact .inl ⟨rfl, rfl⟩
    | child _ member ih =>
      rcases ih with ⟨-, rfl⟩ | ⟨inner, scope, below⟩
      · cases member
      · exact .inr ⟨inner, scope, below.child member⟩
    | body _ scope ih =>
      rcases ih with ⟨-, equal⟩ | ⟨inner, outer, below⟩
      · cases equal
        exact .inr ⟨_, scope, .whole⟩
      · exact .inr ⟨inner, outer, below.body scope⟩
  · rintro (⟨rfl, rfl⟩ | ⟨inner, scope, below⟩)
    · exact .whole
    · exact (Site.whole.body scope).trans below

/-- What stands in another expression is the expression, or it stands in one
of its children. -/
theorem iff_of_noFunction {expr : Expr} {span : Span} (noFunction : expr.isFunction = false) :
    scopes.Site ⟨expr, span⟩ id deeper part ↔
      deeper = id ∧ part = ⟨expr, span⟩ ∨
        ∃ child ∈ expr.children, scopes.Site child id deeper part := by
  constructor
  · intro site
    induction site with
    | whole => exact .inl ⟨rfl, rfl⟩
    | child _ member ih =>
      rcases ih with ⟨rfl, rfl⟩ | ⟨top, isChild, below⟩
      · exact .inr ⟨_, member, .whole⟩
      · exact .inr ⟨top, isChild, below.child member⟩
    | body _ scope ih =>
      rcases ih with ⟨-, equal⟩ | ⟨top, isChild, below⟩
      · cases equal
        cases noFunction
      · exact .inr ⟨top, isChild, below.body scope⟩
  · rintro (⟨rfl, rfl⟩ | ⟨child, member, below⟩)
    · exact .whole
    · exact (Site.whole.child member).trans below

end Scopes.Site

/-- The sites that are visited are all there are. -/
theorem Scopes.mem_sites_iff {scopes : Scopes} {tree : Node} {id inner : ScopeId} :
    (inner, part) ∈ scopes.sites tree id ↔ scopes.Site tree id inner part := by
  induction tree using Node.induction generalizing id with
  | step expr span ih =>
    rw [sites_eq, List.mem_cons, Prod.mk.injEq]
    cases expr with
    | func function params body native name =>
      rw [Site.func_iff]
      cases found : scopes.scopeOf? function with
      | some => simp [within?, found, Expr.inside, ← ih body (.head _)]
      | none => simp [within?, found]
    | _ =>
      rw [Site.iff_of_noFunction rfl]
      refine or_congr_right (List.mem_flatMap.trans (exists_congr fun child => ?_))
      exact and_congr_right fun member => ih child member

/-- A scope that is added is the last one. -/
theorem Scopes.get_add (scopes : Scopes) (scope : Scope) (function : FuncId) (other : ScopeId) :
    (scopes.add scope function).2.get other =
      if other = scopes.scopes.size then scope else scopes.get other := by
  simp only [Scopes.add, Scopes.get, Array.getD_eq_getD_getElem?, Array.getElem?_push]
  split <;> rfl

/-! ## Slots -/

namespace Scope

variable {scope : Scope} {name other : Symbol}

theorem owns_eq_contains (scope : Scope) (name : Symbol) :
    scope.owns name = scope.names.contains name := by
  rw [owns, names, List.contains_eq_any_beq, List.contains_eq_any_beq, List.contains_eq_any_beq,
    List.any_append]

theorem owns_iff : scope.owns name = true ↔ ∃ own ∈ scope.names, (own == name) = true := by
  rw [owns_eq_contains, List.contains_iff_exists_mem_beq]
  simp only [BEq.comm]

theorem owns_of_mem (member : name ∈ scope.names) : scope.owns name = true :=
  owns_iff.mpr ⟨name, member, BEq.rfl⟩

/-- A name is owned in every spelling. -/
theorem owns_congr (owned : scope.owns name = true) (same : (name == other) = true) :
    scope.owns other = true := by
  obtain ⟨own, member, equal⟩ := owns_iff.mp owned
  exact owns_iff.mpr ⟨own, member, BEq.trans equal same⟩

/-- The variables of a function are distinct, and what is noted about names is
noted about variables. -/
structure Tidy (scope : Scope) : Prop where
  distinct : scope.names.Pairwise fun first second => (first == second) = false
  loopIndices : ∀ name ∈ scope.loopIndices, scope.owns name = true
  explicitLocals : ∀ name ∈ scope.explicitLocals, scope.owns name = true

theorem Tidy.of_nil (names : scope.names = []) (indices : scope.loopIndices = [])
    (locals : scope.explicitLocals = []) : scope.Tidy :=
  ⟨by simp [names], by simp [indices], by simp [locals]⟩

theorem names_addLocal (scope : Scope) (name : Symbol) :
    (scope.addLocal name).names = scope.names ++ [name] :=
  (List.append_assoc _ _ _).symm

theorem owns_addLocal (owned : scope.owns other = true) :
    (scope.addLocal name).owns other = true := by
  obtain ⟨own, member, equal⟩ := owns_iff.mp owned
  refine owns_iff.mpr ⟨own, ?_, equal⟩
  rw [names_addLocal]
  exact List.mem_append_left _ member

theorem owns_addLocal_self (scope : Scope) (name : Symbol) :
    (scope.addLocal name).owns name = true := by
  refine owns_of_mem ?_
  rw [names_addLocal]
  exact List.mem_append_right _ List.mem_cons_self

theorem Tidy.addLocal (tidy : scope.Tidy) (fresh : scope.owns name = false) :
    (scope.addLocal name).Tidy where
  distinct := by
    rw [names_addLocal]
    refine List.pairwise_append.mpr ⟨tidy.distinct, List.pairwise_singleton _ _, ?_⟩
    intro own member other isLast
    rw [List.mem_singleton.mp isLast, Bool.eq_false_iff]
    intro equal
    rw [owns_iff.mpr ⟨own, member, equal⟩] at fresh
    cases fresh
  loopIndices other member := owns_addLocal (tidy.loopIndices other member)
  explicitLocals other member := owns_addLocal (tidy.explicitLocals other member)

theorem mem_addName {names : List Symbol} (member : other ∈ addName names name) :
    other ∈ names ∨ other = name := by
  unfold addName at member
  split at member
  · exact .inl member
  · simpa using member

/-- The slots of distinct variables are numbered from zero on. -/
theorem Tidy.map_slotOf? (tidy : scope.Tidy) :
    scope.names.map scope.slotOf? = (List.range scope.names.length).map some := by
  have distinct := tidy.distinct
  refine List.ext_getElem (by simp) fun index _ inside => ?_
  simp only [List.length_map, List.length_range] at inside
  rw [List.getElem_map, List.getElem_map, List.getElem_range, slotOf?,
    List.findIdx?_eq_some_iff_getElem]
  refine ⟨inside, BEq.rfl, fun earlier below => ?_⟩
  rw [List.pairwise_iff_getElem.mp distinct earlier index _ inside below]
  exact Bool.false_ne_true

end Scope

/-! ## The variables of loops -/

/-- The variables of a loop: those it names, and the hidden ones. -/
def Expr.loopVariables : Expr → List Symbol
  | .forLoop var .. =>
    [var, .ofString (hiddenSpelling [var] "limit"), .ofString (hiddenSpelling [var] "incr")]
  | .foreachLoop key value _ _ collect _ =>
    key.toList ++ [value] ++ [.ofString (hiddenSpelling (value :: key.toList) "iter")] ++
      if collect then
        [.ofString (hiddenSpelling [value] "index"), .ofString (hiddenSpelling [value] "result"),
          .ofString (hiddenSpelling [value] "item")]
      else
        []
  | _ => []

theorem iteratorName_eq (value : Symbol) (key : Option Symbol) (store : Store) :
    iteratorName value key store = store.intern (hiddenSpelling (value :: key.toList) "iter") := by
  cases key <;> rfl

end NewtonScript
