import NewtonScript.Proofs.Emission.Forms
import NewtonScript.Proofs.Scope.References
import NewtonScript.Proofs.Scope.Numbering
import NewtonScript.Tree.Parser

/-!
# Closures

A function carries a frame when something was noted about it: that it needs
the receiver, or that variables go between it and functions inside or around
it.  What is noted is exact, and a variable that is referred to from a function
inside is found along the frames.
-/

namespace NewtonScript

open Emission

variable {name : Symbol}

/-! ## Names of functions around -/

namespace Scopes

variable {scopes : Scopes}

theorem exists_owner_of_constantAlong {chain : List ScopeId}
    (noConstant : scopes.constantAlong name chain = none)
    (owned : chain.any fun id => (scopes.get id).owns name) :
    ∃ owner, chain.find? (fun id => (scopes.get id).binds name) = some owner ∧
      (scopes.get owner).owns name = true := by
  induction chain with
  | nil => cases owned
  | cons id rest ih =>
    rw [constantAlong] at noConstant
    by_cases owns : (scopes.get id).owns name
    · exact ⟨id, by simp [Scope.binds, owns], owns⟩
    · simp only [owns, Bool.false_eq_true, if_false] at noConstant
      split at noConstant
      · cases noConstant
      · rename_i unbound
        have free : (scopes.get id).binds name = false := by
          simp [Scope.binds, owns, Table.contains_eq_isSome_get?, unbound]
        rw [List.find?_cons, free]
        exact ih noConstant (by simpa [owns] using owned)

/-- What resolves to a variable of a function around has an owner, which is
not the function itself. -/
theorem exists_owner_of_outer {id : ScopeId} (outer : scopes.resolve id name = .outer) :
    ∃ owner, scopes.binder? id name = some owner ∧ (scopes.get owner).owns name = true ∧
      owner ≠ id := by
  unfold resolve at outer
  split at outer
  · cases outer
  · rename_i noSlot
    split at outer
    · cases outer
    · rename_i noConstant
      split at outer
      · rename_i owned
        have ownedInChain : (scopes.chain id).any (fun outer => (scopes.get outer).owns name) := by
          obtain ⟨owner, member, owns⟩ := List.any_eq_true.mp owned
          exact List.any_eq_true.mpr ⟨owner, List.mem_of_mem_drop member, owns⟩
        obtain ⟨owner, found, owns⟩ := exists_owner_of_constantAlong noConstant ownedInChain
        refine ⟨owner, found, owns, fun equal => ?_⟩
        have slot := Scope.isSome_slotOf? (equal ▸ owns)
        rw [noSlot] at slot
        cases slot
      · cases outer

end Scopes

/-! ## Frames -/

namespace Emission

variable {scopes : Scopes} {compat : Compatibility} {id : ScopeId} {block : CodeBlock}

/-- What a block tells about its function besides the code. -/
theorem IsBlockOf.header (made : IsBlockOf scopes compat id block) :
    block.numArgs = FrameLayout.argumentWord (scopes.get id) compat ∧
      block.argFrame.isSome = FrameLayout.needsFrame (scopes.get id) compat ∧
      (∀ frame, block.argFrame = some frame → IsTemplate (scopes.get id) frame) ∧
      block.compat = compat := by
  obtain ⟨body, ctx, state, final, rfl, rfl, run⟩ := made
  -- Nothing is said here about values, so all of them may count as known.
  let setting : Setting :=
    { scopes := ctx.scopes
      options := ctx.options
      origin := state.store
      Known := fun _ => True
      Literal := fun _ _ => True
      known_own := fun _ _ => trivial
      known_local := fun _ _ _ _ => trivial
      known_global := fun _ _ _ => trivial }
  obtain ⟨function, middle, -, sealed⟩ := bind_eq_ok run
  obtain ⟨-, -, -, numArgs, isSome, template, compat, -⟩ := sealCode_eq_ok setting sealed
  exact ⟨numArgs, isSome, template, compat⟩

theorem IsBlockOf.frame (made : IsBlockOf scopes compat id block) :
    block.argFrame.isSome = FrameLayout.needsFrame (scopes.get id) compat ∧
      ∀ frame, block.argFrame = some frame → IsTemplate (scopes.get id) frame :=
  ⟨made.header.2.1, made.header.2.2.1⟩

/-- The frame of a function has a slot for each of its variables. -/
theorem IsTemplate.contains {scope : Scope} {frame : Value} (template : IsTemplate scope frame)
    (owns : scope.owns name = true) :
    ∃ object shape values, frame = .frame object shape values ∧ shape.slots.contains name := by
  obtain ⟨object, shape, rfl, slots⟩ := template
  refine ⟨object, shape, _, rfl, ?_⟩
  rw [Symbol.list_beq_iff] at slots
  rw [Scope.owns_eq_contains, List.contains_eq_any_beq, List.any_eq_true] at owns
  obtain ⟨variable_, member, equal⟩ := owns
  have folded : name.folded ∈ shape.slots.map Symbol.folded := by
    rw [slots]
    exact List.mem_map.mpr ⟨variable_, List.mem_append_right _ member, (Symbol.beq_iff.mp equal).symm⟩
  obtain ⟨slot, inside, same⟩ := List.mem_map.mp folded
  rw [List.contains_eq_any_beq, List.any_eq_true]
  exact ⟨slot, inside, Symbol.beq_iff.mpr same.symm⟩

end Emission

/-! ## The analysis -/

/-- What is noted about the functions of a tree is exact, frames stand where
something is noted, and names of functions around are found along them. -/
structure Scopes.Exact (scopes : Scopes) (tree : Node) : Prop where
  /-- A function needs the receiver when an expression in it, or in a function
  inside it, does. -/
  receiver : ∀ f < scopes.scopes.size, (scopes.get f).usesSelf = true ↔
    ∃ g node, scopes.Site tree root g node ∧ f ∈ scopes.chain g ∧ node.expr.needsReceiver
  /-- A function is closed over when a name in a function strictly inside it is
  its variable. -/
  shares : ∀ f < scopes.scopes.size, (scopes.get f).hasClosedOver = true ↔
    ∃ g name span, scopes.Site tree root g ⟨.name name, span⟩ ∧ f ∈ scopes.chain g ∧ f ≠ g ∧
      scopes.binder? g name = some f ∧ (scopes.get f).owns name
  /-- A function captures when a name in it, or in a function inside it, is a
  variable of a function strictly around it. -/
  reaches : ∀ f < scopes.scopes.size, (scopes.get f).capturesOuter = true ↔
    ∃ g name span owner, scopes.Site tree root g ⟨.name name, span⟩ ∧ f ∈ scopes.chain g ∧
      scopes.binder? g name = some owner ∧ (scopes.get owner).owns name ∧
      owner ∈ scopes.chain f ∧ owner ≠ f
  /-- In the native layout, a function has a frame when one of these holds. -/
  frame : ∀ f block, IsBlockOf scopes .native f block →
    (block.argFrame.isSome ↔ (scopes.get f).usesSelf ∨ (scopes.get f).hasClosedOver ∨
      (scopes.get f).capturesOuter)
  /-- Between a name that resolves to a function around and the owner of the
  variable, all functions have frames, and that of the owner has a slot for
  the name. -/
  outer : ∀ g name span, scopes.Site tree root g ⟨.name name, span⟩ →
    scopes.resolve g name = .outer → ∃ owner, scopes.binder? g name = some owner ∧
      owner ∈ scopes.chain g ∧
      (∀ f ∈ scopes.chain g, owner ∈ scopes.chain f → ∀ compat block,
        IsBlockOf scopes compat f block → block.argFrame.isSome) ∧
      ∀ compat block, IsBlockOf scopes compat owner block → ∃ object shape values,
        block.argFrame = some (.frame object shape values) ∧ shape.slots.contains name
  /-- Where function literals are told apart by their numbers, the scope around
  that of a literal is the one in which the literal stands. -/
  nested : tree.functionIds.Nodup → ∀ g function params body native name span,
    scopes.Site tree root g ⟨.func function params body native name, span⟩ →
      ∃ f, scopes.scopeOf? function = some f ∧ (scopes.get f).parent = some g

namespace Scopes

variable {declared scopes : Scopes} {tree : Node} {store store' : Store} {bag bag' : DiagnosticBag}

theorem mem_chain_of_binder? {id owner : ScopeId} (binder : scopes.binder? id name = some owner) :
    owner ∈ scopes.chain id :=
  List.mem_of_find?_eq_some binder

/-- A function around which there is another is one of the scopes. -/
theorem lt_size_of_mem_chain {id outer : ScopeId}
    (member : outer ∈ scopes.chain id) (different : outer ≠ id) : id < scopes.scopes.size := by
  refine Nat.lt_of_not_le fun outside => ?_
  have noParent : (scopes.get id).parent = none := by
    simp [get, Array.getD_eq_getD_getElem?, Array.getElem?_eq_none outside]
    rfl
  rw [chain_of_no_parent noParent, List.mem_singleton] at member
  exact different member

/-- A function about which something is noted has a frame. -/
theorem needsFrame_of_has {scope : Scope} {trait : Trait} (has : scope.has trait = true)
    (compat : Compatibility) : FrameLayout.needsFrame scope compat = true := by
  cases compat <;> cases trait <;> simp_all [FrameLayout.needsFrame, Scope.has]

/-- Collecting the declarations and then the references of a tree gives an
exact analysis. -/
theorem exact_of_references (run : Scopes.ofTree tree store bag = (.ok declared, store', bag'))
    (referred : declared.withReferences tree = .ok scopes) : scopes.Exact tree := by
  have same := sameNames_withReferences referred
  have numbered := (clean_ofTree run).numbered.of_sameNames same
  have noted := fun {id : ScopeId} (inside : id < scopes.scopes.size) =>
    has_withReferences run referred inside
  constructor
  case receiver =>
    intro f inside
    refine (noted inside .receiver).trans ⟨?_, ?_⟩
    · rintro ⟨g, node, site, needs, around⟩
      exact ⟨g, node, site, around, needs⟩
    · rintro ⟨g, node, site, around, needs⟩
      exact ⟨g, node, site, needs, around⟩
  case shares =>
    intro f inside
    refine (noted inside .shares).trans ⟨?_, ?_⟩
    · rintro ⟨g, ⟨expr, span⟩, site, name, rfl, binder, owns, different⟩
      exact ⟨g, name, span, site, mem_chain_of_binder? binder, different, binder, owns⟩
    · rintro ⟨g, name, span, site, -, different, binder, owns⟩
      exact ⟨g, _, site, name, rfl, binder, owns, different⟩
  case reaches =>
    intro f inside
    refine (noted inside .reaches).trans ⟨?_, ?_⟩
    · rintro ⟨g, ⟨expr, span⟩, site, name, owner, rfl, binder, owns, around, outside⟩
      exact ⟨g, name, span, owner, site, around, binder, owns, outside⟩
    · rintro ⟨g, name, span, owner, site, around, binder, owns, outside⟩
      exact ⟨g, _, site, name, owner, rfl, binder, owns, around, outside⟩
  case frame =>
    intro f block made
    rw [made.frame.1, FrameLayout.needsFrame, Bool.or_eq_true, Bool.or_eq_true, or_assoc]
  case outer =>
    intro g name span site outer
    obtain ⟨owner, binder, owns, different⟩ := exists_owner_of_outer outer
    have around := mem_chain_of_binder? binder
    have inside := lt_size_of_mem_chain around different
    have frames : ∀ f ∈ scopes.chain g, owner ∈ scopes.chain f → ∀ compat block,
        IsBlockOf scopes compat f block → block.argFrame.isSome := by
      intro f between outside compat block made
      have inside' := Nat.lt_of_le_of_lt (le_of_mem_chain numbered between) inside
      rw [made.frame.1]
      by_cases isOwner : owner = f
      · have shares := (noted inside' .shares).mpr
          ⟨g, _, site, name, rfl, isOwner ▸ binder, isOwner ▸ owns, isOwner ▸ different⟩
        exact needsFrame_of_has shares compat
      · have reaches := (noted inside' .reaches).mpr
          ⟨g, _, site, name, owner, rfl, binder, owns, between, outside, isOwner⟩
        exact needsFrame_of_has reaches compat
    refine ⟨owner, binder, around, frames, fun compat block made => ?_⟩
    obtain ⟨frame, found⟩ :=
      Option.isSome_iff_exists.mp (frames owner around (mem_chain_self _ _) compat block made)
    obtain ⟨object, shape, values, rfl, contains⟩ := (made.frame.2 frame found).contains owns
    exact ⟨object, shape, values, found, contains⟩
  case nested =>
    intro distinct g function params body native name span site
    obtain ⟨f, scope, parent, -⟩ := nested_ofTree run distinct g function params body native name span
      (site.of_sameNames same)
    refine ⟨f, ?_, (same.parent f).trans parent⟩
    rw [scopeOf?, same.byFunction]
    exact scope

/-- A function that counts up the argument of the function around it and
tells the receiver; in a third one, a constant hides the argument. -/
def counterMaker : String :=
  "func(n) begin func() begin constant k := 1; n := n + k; :changed() end; func() begin constant n := 2; n end end"

theorem exact_counterMaker :
    ∃ tree parser declared scopes store bag,
      Parser.program (.ofString counterMaker .empty) = .ok tree parser ∧
      Scopes.ofTree tree .empty .empty = (.ok declared, store, bag) ∧
      declared.withReferences tree = .ok scopes ∧
      scopes.scopes.toList.map (fun scope =>
        (scope.usesSelf, scope.hasClosedOver, scope.capturesOuter)) =
          [(true, false, false), (true, true, false), (true, false, true), (false, false, false)] ∧
      scopes.Exact tree := by
  have noted : (match Parser.program (.ofString counterMaker .empty) with
      | .ok tree _ =>
        match Scopes.ofTree tree .empty .empty with
        | (.ok declared, _, _) =>
          match declared.withReferences tree with
          | .ok scopes => scopes.scopes.toList.map (fun scope =>
            (scope.usesSelf, scope.hasClosedOver, scope.capturesOuter))
          | .error _ => []
        | (.error _, _, _) => []
      | .error _ _ => []) =
        [(true, false, false), (true, true, false), (true, false, true), (false, false, false)] := by
    decide +kernel
  cases parsed : Parser.program (.ofString counterMaker .empty) with
  | error failure parser => simp [parsed] at noted
  | ok tree parser =>
    simp only [parsed] at noted
    rcases run : Scopes.ofTree tree .empty .empty with ⟨declared | declared, store, bag⟩
    · simp [run] at noted
    · simp only [run] at noted
      cases referred : declared.withReferences tree with
      | error failure => simp [referred] at noted
      | ok scopes =>
        simp only [referred] at noted
        exact ⟨tree, parser, declared, scopes, store, bag, rfl, run, referred, noted,
          exact_of_references run referred⟩

end Scopes

end NewtonScript
