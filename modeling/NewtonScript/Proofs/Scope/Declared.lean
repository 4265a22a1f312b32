import NewtonScript.Proofs.Emission.Store
import NewtonScript.Proofs.Scope.Captured
import NewtonScript.Proofs.Token.Faults

/-!
# What declarations leave

Collecting declarations interns names and does nothing else to the store.  The
constants that are bound on the way are values that were known before: literals
of the tree, constants, and their negations.  Declarations are refused where
names clash or where a constant has no value.  No refusal tells of a variable
without a slot or of a function without a scope.
-/

namespace NewtonScript

namespace Table

variable {κ ν : Type} [BEq κ]

/-- A table gives what was bound last. -/
theorem get?_insert_eq [EquivBEq κ] (table : Table κ ν) (key other : κ) (value : ν) :
    (table.insert key value).get? other =
      if key == other then some value else table.get? other := by
  unfold insert
  split
  · rename_i bound
    simp only [contains, List.any_eq_true] at bound
    -- Replacing values moves no key, so the same entry is found.
    have keys : ((fun entry : κ × ν => entry.1 == other) ∘
        fun entry => if entry.1 == key then (entry.1, value) else entry) =
          fun entry => entry.1 == other := by
      funext entry
      simp only [Function.comp_apply]
      split <;> rfl
    simp only [get?, List.find?_map, keys]
    cases found : table.entries.find? fun entry => entry.1 == other with
    | none =>
      obtain ⟨entry, member, same⟩ := bound
      have absent := List.find?_eq_none.mp found entry member
      rw [BEq.congr_left same] at absent
      simp [absent]
    | some entry =>
      have first := List.find?_some found
      have same : (entry.1 == key) = (key == other) := by
        rw [BEq.comm, BEq.congr_right first]
      simp only [Option.map_some, same]
      split <;> rfl
  · simp only [get?, List.find?_cons]
    split <;> simp_all

/-- What a table gives behind a binding was bound now or before. -/
theorem get?_insert [EquivBEq κ] {table : Table κ ν} {key other : κ} {value found : ν}
    (got : (table.insert key value).get? other = some found) :
    found = value ∨ table.get? other = some found := by
  rw [get?_insert_eq] at got
  split at got
  · exact .inl (Option.some.inj got).symm
  · exact .inr got

theorem contains_eq_isSome_get? (table : Table κ ν) (key : κ) :
    table.contains key = (table.get? key).isSome := by
  rw [contains, get?, Option.isSome_map, Bool.eq_iff_iff, List.find?_isSome, List.any_eq_true]

theorem contains_insert [EquivBEq κ] (table : Table κ ν) (key other : κ) (value : ν) :
    (table.insert key value).contains other = (key == other || table.contains other) := by
  rw [contains_eq_isSome_get?, contains_eq_isSome_get?, get?_insert_eq]
  split <;> simp_all

theorem contains_congr [EquivBEq κ] (table : Table κ ν) {key other : κ}
    (same : (key == other) = true) : table.contains key = table.contains other := by
  simp only [contains, BEq.congr_right same]

/-- What a table gives is one of its entries. -/
theorem exists_mem_of_get? {table : Table κ ν} {key : κ} {found : ν}
    (got : table.get? key = some found) : ∃ entry ∈ table.entries, entry.2 = found := by
  obtain ⟨entry, first, equal⟩ := Option.map_eq_some_iff.mp got
  exact ⟨entry, List.mem_of_find?_eq_some first, equal⟩

theorem mem_entries_insert {table : Table κ ν} {key : κ} {value : ν} {entry : κ × ν}
    (member : entry ∈ (table.insert key value).entries) :
    entry.2 = value ∨ entry ∈ table.entries := by
  unfold insert at member
  split at member
  · obtain ⟨before, old, rfl⟩ := List.mem_map.mp member
    split
    · exact .inl rfl
    · exact .inr old
  · rcases List.mem_cons.mp member with rfl | old
    · exact .inl rfl
    · exact .inr old

end Table

/-- A constant along a chain is a constant of one of the scopes. -/
theorem Scopes.constantAlong_eq_some {scopes : Scopes} {name : Symbol} {value : Value}
    {chain : List ScopeId} (found : scopes.constantAlong name chain = some value) :
    ∃ id, (scopes.get id).constants.get? name = some value := by
  induction chain with
  | nil => cases found
  | cons id rest ih =>
    simp only [Scopes.constantAlong] at found
    split at found
    · cases found
    · split at found
      · rename_i constant bound
        cases found
        exact ⟨id, bound⟩
      · exact ih found

namespace Declaration

/-! ## Known values -/

variable {Known : Value → Prop} {origin : Store}

/-- The store was only added to, and the constants so far are known values. -/
structure Sound (Known : Value → Prop) (origin : Store) (state : State) : Prop where
  store : Store.Harmless Known origin state.store
  constants : ∀ id, ∀ entry ∈ (state.scopes.get id).constants.entries, Known entry.2

/-- An action of the declarations leaves this, and fails only with ordinary
faults. -/
abbrev Declares (Known : Value → Prop) (origin : Store) {α : Type} (action : DeclareM α) : Prop :=
  Preserves (Sound Known origin) action fun failure => failure.fault.Ordinary

theorem preserves_updateScope (id : ScopeId) {change : Scope → Scope}
    (same : ∀ scope, (change scope).constants = scope.constants) :
    Declares Known origin (updateScope id change) := by
  refine preserves_modify fun state sound => ⟨sound.store, fun other entry found => ?_⟩
  refine sound.constants other entry ?_
  rw [Scopes.get_update] at found
  split at found
  · rwa [same] at found
  · exact found

theorem preserves_report (diagnostic : Diagnostic) :
    Declares Known origin (report diagnostic) :=
  preserves_modify fun _ sound => ⟨sound.store, sound.constants⟩

theorem preserves_withStore {α : Type} {action : Store → α × Store}
    (harmless : ∀ known store, Store.Harmless known store (action store).2) :
    Declares Known origin (withStore action) :=
  ensures_modifyGet fun _ sound =>
    ⟨⟨sound.store.trans (harmless _ _), sound.constants⟩, trivial⟩

theorem preserves_scope (id : ScopeId) : Declares Known origin (scope id) :=
  ensures_get.bind fun _ _ => ensures_pure trivial

theorem preserves_addLocal (id : ScopeId) (name : Symbol) (span : Span) (written : Bool) :
    Declares Known origin (addLocal id name span written) := by
  refine (preserves_scope id).seq fun scope => ?_
  split
  · split
    · exact preserves_report _
    · exact ensures_pure trivial
  · exact preserves_updateScope id fun _ => rfl

theorem preserves_refuseConstant (id : ScopeId) (name : Symbol) (span : Span) :
    Declares Known origin (refuseConstant id name span) := by
  refine (preserves_scope id).seq fun scope => ?_
  split
  · exact ensures_throw trivial
  · exact ensures_pure trivial

theorem preserves_addHidden (id : ScopeId) (var : Symbol) (span : Span) (words : List String) :
    Declares Known origin (addHidden id var span words) := by
  induction words with
  | nil => exact ensures_pure trivial
  | cons word rest ih =>
    exact (preserves_withStore fun _ store => Store.harmless_intern _ _ store).seq fun _ =>
      (preserves_addLocal id _ span false).seq fun _ => ih

theorem preserves_addForVariables (id : ScopeId) (var : Symbol) (span : Span) :
    Declares Known origin (addForVariables id var span) :=
  (preserves_refuseConstant id var span).seq fun _ =>
    (preserves_addLocal id var span false).seq fun _ =>
      (preserves_addHidden id var span _).seq fun _ => preserves_updateScope id fun _ => rfl

theorem preserves_addLoopVariables (id : ScopeId) (span : Span) (names : List Symbol) :
    Declares Known origin (addLoopVariables id span names) := by
  induction names with
  | nil => exact ensures_pure trivial
  | cons name rest ih =>
    exact (preserves_refuseConstant id name span).seq fun _ =>
      (preserves_addLocal id name span false).seq fun _ => ih

theorem preserves_addForeachVariables (id : ScopeId) (key : Option Symbol) (value : Symbol)
    (collect : Bool) (span : Span) :
    Declares Known origin (addForeachVariables id key value collect span) := by
  refine (preserves_addLoopVariables id span _).seq fun _ => ?_
  have interned : ∀ known store, Store.Harmless known store (iteratorName value key store).2 := by
    intro known store
    cases key <;> exact Store.harmless_intern _ _ store
  refine (preserves_withStore interned).seq fun _ => ?_
  refine (preserves_addLocal id _ span false).seq fun _ => ?_
  split
  · exact preserves_addHidden id value span _
  · exact ensures_pure trivial

theorem preserves_bindLocal (id : ScopeId) (name : Symbol) (span : Span) :
    Declares Known origin (bindLocal id name span) :=
  (preserves_refuseConstant id name span).seq fun _ =>
    (preserves_addLocal id name span true).seq fun _ => preserves_updateScope id fun _ => rfl

theorem preserves_refuseVariable (id : ScopeId) (name : Symbol) (span : Span) :
    Declares Known origin (refuseVariable id name span) := by
  refine (preserves_scope id).seq fun scope => ?_
  have others : Declares Known origin
      (do if id == Scopes.root && (← get).store.hasGlobal name then
            throw ⟨.constantGlobalClash name, span⟩ : DeclareM Unit) := by
    refine ensures_get.bind fun state _ => ?_
    split
    · exact ensures_throw trivial
    · exact ensures_pure trivial
  split
  · exact ensures_throw trivial
  · exact others

theorem preserves_arguments (params : List Param) (known : Trie Unit) (args : List Symbol) :
    Declares Known origin (arguments params known args) := by
  induction params generalizing known args with
  | nil => exact ensures_pure trivial
  | cons param rest ih =>
    rw [arguments]
    split
    · exact (preserves_report _).seq fun _ => ih known args
    · exact ih _ _

theorem preserves_addFunction (parent : ScopeId) (function : FuncId) (params : List Param)
    (native : Bool) (name : Option Symbol) (span : Span) :
    Declares Known origin (addFunction parent function params native name span) := by
  refine (preserves_arguments params .empty []).seq fun args => ?_
  refine ensures_modifyGet fun state sound => ⟨⟨sound.store, ?_⟩, trivial⟩
  intro id entry found
  simp only [Scopes.add, Scopes.get, Array.getD_eq_getD_getElem?, Array.getElem?_push] at found
  split at found
  · cases found
  · refine sound.constants id entry ?_
    simpa only [Scopes.get, Array.getD_eq_getD_getElem?] using found

theorem preserves_bindConstant (id : ScopeId) (name : Symbol) {value : Option Value} (span : Span)
    (known : ∀ found, value = some found → Known found) :
    Declares Known origin (bindConstant id name value span) := by
  cases value with
  | none => exact ensures_throw trivial
  | some value =>
    refine preserves_modify fun state sound => ⟨sound.store, fun other entry member => ?_⟩
    rw [Scopes.get_update] at member
    split at member
    · rcases Table.mem_entries_insert member with now | before
      · exact known entry.2 (congrArg some now.symm)
      · exact sound.constants other entry before
    · exact sound.constants other entry member

/-- The constants that a tree can bind are known: its literals, the global
constants, and what the compiler makes on its own. -/
structure Sources (Known : Value → Prop) (origin : Store) (tree : Node) : Prop where
  own : ∀ value : Value, value.isOwn → Known value
  literal : ∀ value span, tree.Occurs ⟨.literal value, span⟩ → Known value
  global : ∀ name value, origin.constants.get? name = some value → Known value

variable {tree : Node}

theorem known_constantValue? (sources : Sources Known origin tree) {state : State}
    (sound : Sound Known origin state) (id : ScopeId) {node : Node} (occurs : tree.Occurs node)
    {found : Value} (equal : constantValue? state.scopes state.store id node = some found) :
    Known found := by
  unfold constantValue? at equal
  split at equal
  · cases equal
    exact sources.literal _ _ occurs
  · rename_i name _
    split at equal
    · cases equal
    · split at equal
      · rename_i bound
        cases equal
        obtain ⟨declarer, bound⟩ := Scopes.constantAlong_eq_some bound
        obtain ⟨entry, member, rfl⟩ := Table.exists_mem_of_get? bound
        exact sound.constants declarer entry member
      · rw [Store.constant?, sound.store.extends_.constants] at equal
        exact sources.global name found equal
  · obtain ⟨_, -, negated⟩ := Option.bind_eq_some_iff.mp equal
    exact sources.own found (isOwn_negateConstant? negated)
  · cases equal

end Declaration

end NewtonScript
