import NewtonScript.Proofs.Scope.Effects

/-!
# What references note

The walk over references notes of each function exactly what the expressions
in it and in the functions inside it give reason for: that it needs the
receiver, that its variables are shared with functions inside, or that it
reaches for variables of functions around it.
-/

namespace NewtonScript

variable {id : ScopeId}

/-- Whether an expression by itself needs the receiver. -/
def Expr.needsReceiver : Expr → Bool
  | .selfRef => true
  | .send none _ _ _ => true
  | .resend _ _ _ => true
  | _ => false

/-- An expression in one function gives reason to note something about
another: the expression needs the receiver, or it is a name that belongs to a
function around. -/
def Scopes.Causes (scopes : Scopes) (current : ScopeId) (expr : Expr) (about : ScopeId) :
    Trait → Prop
  | .receiver => expr.needsReceiver ∧ about ∈ scopes.chain current
  | .shares => ∃ name, expr = .name name ∧ scopes.binder? current name = some about ∧
      (scopes.get about).owns name ∧ about ≠ current
  | .reaches => ∃ name owner, expr = .name name ∧ scopes.binder? current name = some owner ∧
      (scopes.get owner).owns name ∧ about ∈ scopes.chain current ∧
        owner ∈ scopes.chain about ∧ owner ≠ about

namespace Capture

variable {span : Span} {name : Symbol} {current owner : ScopeId} {rest front : List ScopeId}

/-! ## One reference -/

/-- A change of a scope that notes a trait, or none. -/
def Notes (change : Scope → Scope) (noted : Option Trait) : Prop :=
  ∀ scope trait, (change scope).has trait = true ↔ scope.has trait = true ∨ some trait = noted

theorem notes_none {change : Scope → Scope} (keeps : ∀ scope, (change scope).has = scope.has) :
    Notes change none := by
  intro scope trait
  simp [keeps]

variable {scopes : Scopes} {change : Scope → Scope} {about : ScopeId} {trait : Trait}

theorem has_update {noted : Option Trait} (notes : Notes change noted) (id : ScopeId)
    (inside : about < scopes.scopes.size) :
    ((scopes.update id change).get about).has trait = true ↔
      (scopes.get about).has trait = true ∨ some trait = noted ∧ about = id := by
  rw [Scopes.get_update]
  by_cases same : id = about
  · simp [same, inside, notes _ _]
  · have different : about ≠ id := fun equal => same equal.symm
    simp [same, different]

theorem has_markAll {noted : Option Trait} (notes : Notes change noted) (ids : List ScopeId)
    (inside : about < scopes.scopes.size) :
    ((markAll scopes change ids).get about).has trait = true ↔
      (scopes.get about).has trait = true ∨ some trait = noted ∧ about ∈ ids := by
  induction ids generalizing scopes with
  | nil => simp [markAll]
  | cons id rest ih =>
    rw [markAll, ih (by simpa using inside), has_update notes id inside,
      List.mem_cons, or_assoc, and_or_left]

theorem size_markAll (ids : List ScopeId) :
    (markAll scopes change ids).scopes.size = scopes.scopes.size := by
  induction ids generalizing scopes with
  | nil => rfl
  | cons id rest ih =>
    rw [markAll, ih, Scopes.size_update]

theorem has_capture (owner current : ScopeId) (inner : List ScopeId) (name : Symbol)
    (inside : about < scopes.scopes.size) :
    ((capture scopes owner current inner name).get about).has trait = true ↔
      (scopes.get about).has trait = true ∨ trait = .shares ∧ about = owner ∨
        trait = .reaches ∧ about ∈ inner := by
  have shares : Notes (fun scope => { scope with
      locations := scope.locations.insert name .closedOver, hasClosedOver := true })
      (some .shares) := by
    rintro scope ⟨⟩ <;> simp [Scope.has]
  have reaches : Notes (fun scope => { scope with capturesOuter := true }) (some .reaches) := by
    rintro scope ⟨⟩ <;> simp [Scope.has]
  unfold capture
  rw [has_update (notes_none fun _ => by rfl) current (by simpa [size_markAll] using inside),
    has_markAll reaches inner (by simpa using inside), has_update shares owner inside]
  simp [or_assoc]

theorem has_markSelf {after : Scopes} (run : markSelf current scopes = .ok () after)
    (inside : about < scopes.scopes.size) :
    (after.get about).has trait = true ↔
      (scopes.get about).has trait = true ∨ trait = .receiver ∧ about ∈ scopes.chain current := by
  cases run
  have receiver : Notes (fun scope => { scope with usesSelf := true }) (some .receiver) := by
    rintro scope ⟨⟩ <;> simp [Scope.has]
  rw [has_markAll receiver _ inside]
  simp

/-- Along the rest of a chain, the first function that binds a name owns it. -/
structure Finds (scopes : Scopes) (name : Symbol) (rest front : List ScopeId) (owner : ScopeId) :
    Prop where
  split : ∃ back, rest = front ++ owner :: back
  unbound : ∀ id ∈ front, (scopes.get id).binds name = false
  owns : (scopes.get owner).owns name = true

theorem finds_cons_of_binds (binds : (scopes.get id).binds name = true) :
    Finds scopes name (id :: rest) front owner ↔
      front = [] ∧ owner = id ∧ (scopes.get id).owns name = true := by
  constructor
  · rintro ⟨⟨back, split⟩, unbound, owns⟩
    cases front with
    | nil =>
      cases split
      exact ⟨rfl, rfl, owns⟩
    | cons first front =>
      cases split
      simp [binds] at unbound
  · rintro ⟨rfl, rfl, owns⟩
    exact ⟨⟨rest, rfl⟩, by simp, owns⟩

theorem finds_cons_of_unbound (unbound : (scopes.get id).binds name = false) :
    Finds scopes name (id :: rest) front owner ↔
      ∃ behind, front = id :: behind ∧ Finds scopes name rest behind owner := by
  constructor
  · rintro ⟨⟨back, split⟩, free, owns⟩
    cases front with
    | nil =>
      cases split
      simp [Scope.binds, owns] at unbound
    | cons first front =>
      cases split
      exact ⟨front, rfl, ⟨back, rfl⟩, fun id member => free id (List.mem_cons_of_mem _ member), owns⟩
  · rintro ⟨behind, rfl, ⟨back, rfl⟩, free, owns⟩
    exact ⟨⟨back, rfl⟩, List.forall_mem_cons.mpr ⟨unbound, free⟩, owns⟩

variable {declared before after : Scopes}

/-- What becomes of a name at the next function of a chain. -/
theorem referenceAlong_cons (id : ScopeId) (rest passed : List ScopeId) :
    referenceAlong current name span (id :: rest) passed before =
      if (before.get id).owns name then
        if passed.isEmpty then .ok () (before.update id fun scope => countReference scope name)
        else if (before.get id).isBareLoopIndex name then
          .error ⟨.capturedLoopIndex name, span⟩ before
        else .ok () (capture before id current passed name)
      else if (before.get id).constants.contains name then .ok () before
      else referenceAlong current name span rest (passed ++ [id]) before := by
  change (if _ then _ else _ : CaptureM Unit) before = _
  cases (before.get id).owns name <;> cases passed.isEmpty <;>
    cases (before.get id).isBareLoopIndex name <;>
      cases (before.get id).constants.contains name <;> rfl

/-- Looking a name up notes something if its owner is not the function
itself. -/
theorem has_referenceAlong (same : declared.SameNames before) {passed : List ScopeId}
    (run : referenceAlong current name span rest passed before = .ok () after)
    (inside : about < before.scopes.size) :
    (after.get about).has trait = true ↔
      (before.get about).has trait = true ∨
        ∃ front owner, Finds declared name rest front owner ∧ passed ++ front ≠ [] ∧
          (trait = .shares ∧ about = owner ∨ trait = .reaches ∧ about ∈ passed ++ front) := by
  induction rest generalizing passed with
  | nil =>
    cases run
    rw [has_update (notes_none fun _ => by rfl) current inside]
    have nothing : ∀ front owner, ¬ Finds declared name [] front owner := by
      rintro front owner ⟨⟨back, split⟩, -, -⟩
      simp at split
    simp [nothing]
  | cons id rest ih =>
    rw [referenceAlong_cons, same.owns, same.constants] at run
    by_cases owns : (declared.get id).owns name
    · have binds : (declared.get id).binds name = true := by simp [Scope.binds, owns]
      simp only [owns, if_true] at run
      simp only [finds_cons_of_binds binds]
      split at run
      · rename_i isEmpty
        cases run
        rw [has_update (notes_none fun _ => by rfl) id inside]
        simp [List.isEmpty_iff.mp isEmpty]
      · rename_i notEmpty
        split at run
        · cases run
        · cases run
          have passedSome : passed ≠ [] := by simpa using notEmpty
          rw [has_capture _ _ _ _ inside]
          refine or_congr_right ⟨fun noted => ⟨[], id, ⟨rfl, rfl, owns⟩, ?_, ?_⟩, ?_⟩
          · simpa using passedSome
          · simpa using noted
          · simp
    · simp only [owns, Bool.false_eq_true, if_false] at run
      split at run
      · rename_i constant
        cases run
        have binds : (declared.get id).binds name = true := by simp [Scope.binds, constant]
        simp [finds_cons_of_binds binds, owns]
      · rename_i noConstant
        have unbound : (declared.get id).binds name = false := by
          simp [Scope.binds, owns, noConstant]
        rw [ih run]
        refine or_congr_right ⟨?_, ?_⟩
        · rintro ⟨front, owner, finds, -, noted⟩
          refine ⟨id :: front, owner, (finds_cons_of_unbound unbound).mpr ⟨front, rfl, finds⟩,
            by simp, by simpa using noted⟩
        · rintro ⟨front, owner, finds, -, noted⟩
          obtain ⟨behind, rfl, below⟩ := (finds_cons_of_unbound unbound).mp finds
          exact ⟨behind, owner, below, by simp, by simpa using noted⟩

/-- In the chain of a function, the name belongs to the owner if that is its
binder and owns it. -/
theorem exists_finds_iff :
    (∃ front, Finds declared name (declared.chain current) front owner) ↔
      declared.binder? current name = some owner ∧ (declared.get owner).owns name = true := by
  rw [Scopes.binder?, List.find?_eq_some_iff_append]
  constructor
  · rintro ⟨front, ⟨back, split⟩, unbound, owns⟩
    exact ⟨⟨by simp [Scope.binds, owns], front, back, split, by simpa using unbound⟩, owns⟩
  · rintro ⟨⟨-, front, back, split, unbound⟩, owns⟩
    exact ⟨front, ⟨back, split⟩, by simpa using unbound, owns⟩

theorem Finds.front_ne_nil_iff (numbered : declared.Numbered)
    (finds : Finds declared name (declared.chain current) front owner) :
    front ≠ [] ↔ owner ≠ current := by
  obtain ⟨back, split⟩ := finds.split
  obtain ⟨rest, first⟩ := declared.exists_chain_eq current
  cases front with
  | nil =>
    cases first.symm.trans split
    simp
  | cons passed front =>
    cases first.symm.trans split
    have inFront : current ∈ current :: front := List.mem_cons_self
    simpa using ((Scopes.mem_front_iff numbered split).mp inFront).2.2

/-- The reference of a function to a name notes what the name gives reason
for. -/
theorem has_reference (same : declared.SameNames before) (numbered : declared.Numbered)
    (run : reference current name span before = .ok () after) (inside : about < before.scopes.size) :
    (after.get about).has trait = true ↔
      (before.get about).has trait = true ∨ declared.Causes current (.name name) about trait := by
  obtain ⟨_, _, got, run⟩ := run_bind_eq_ok run
  cases got
  rw [same.chain] at run
  rw [has_referenceAlong same run inside]
  refine or_congr_right ?_
  cases trait with
  | receiver => simp [Scopes.Causes, Expr.needsReceiver]
  | shares =>
    constructor
    · rintro ⟨front, owner, finds, notEmpty, ⟨-, rfl⟩ | ⟨isReaches, -⟩⟩
      · obtain ⟨binder, owns⟩ := exists_finds_iff.mp ⟨front, finds⟩
        exact ⟨name, rfl, binder, owns, (finds.front_ne_nil_iff numbered).mp notEmpty⟩
      · cases isReaches
    · rintro ⟨_, ⟨⟩, binder, owns, different⟩
      obtain ⟨front, finds⟩ := exists_finds_iff.mpr ⟨binder, owns⟩
      exact ⟨front, about, finds, (finds.front_ne_nil_iff numbered).mpr different, .inl ⟨rfl, rfl⟩⟩
  | reaches =>
    constructor
    · rintro ⟨front, owner, finds, -, ⟨isShares, -⟩ | ⟨-, member⟩⟩
      · cases isShares
      · obtain ⟨binder, owns⟩ := exists_finds_iff.mp ⟨front, finds⟩
        obtain ⟨back, split⟩ := finds.split
        exact ⟨name, owner, rfl, binder, owns, (Scopes.mem_front_iff numbered split).mp member⟩
    · rintro ⟨_, owner, ⟨⟩, binder, owns, around⟩
      obtain ⟨front, finds⟩ := exists_finds_iff.mpr ⟨binder, owns⟩
      obtain ⟨back, split⟩ := finds.split
      have member := (Scopes.mem_front_iff numbered split).mpr around
      exact ⟨front, owner, finds, List.ne_nil_of_mem member, .inr ⟨rfl, member⟩⟩

/-! ## The walk -/

/-- What is noted behind a step is what was noted before and what there was
reason for. -/
def Adds (before after : Scopes) (reason : ScopeId → Trait → Prop) : Prop :=
  ∀ about < before.scopes.size, ∀ trait,
    (after.get about).has trait = true ↔ (before.get about).has trait = true ∨ reason about trait

theorem Adds.seq {middle : Scopes} {reason reason' both : ScopeId → Trait → Prop}
    (size : middle.scopes.size = before.scopes.size) (first : Adds before middle reason)
    (second : Adds middle after reason')
    (either : ∀ about trait, both about trait ↔ reason about trait ∨ reason' about trait) :
    Adds before after both := by
  intro about inside trait
  rw [second about (size ▸ inside) trait, first about inside trait, either, or_assoc]

theorem Adds.nothing {reason : ScopeId → Trait → Prop}
    (none : ∀ about trait, ¬ reason about trait) : Adds before before reason := by
  intro about inside trait
  simp [none]

/-- An expression notes what it gives reason for. -/
theorem adds_note (same : declared.SameNames before) (numbered : declared.Numbered) {expr : Expr}
    (run : note expr span current before = .ok () after) :
    Adds before after (declared.Causes current expr) := by
  have receiver : ∀ {expr : Expr}, expr.needsReceiver → (∀ name, expr ≠ .name name) →
      markSelf current before = .ok () after →
      Adds before after (declared.Causes current expr) := by
    intro expr needs notName run about inside trait
    rw [has_markSelf run inside, same.chain]
    cases trait <;> simp [Scopes.Causes, needs, notName]
  unfold note at run
  split at run
  · exact fun about inside trait => has_reference same numbered run inside
  · exact receiver rfl nofun run
  · exact receiver rfl nofun run
  · exact receiver rfl nofun run
  · cases run
    refine .nothing fun about trait => ?_
    have needsNot : expr.needsReceiver = false := by
      unfold Expr.needsReceiver
      split <;> simp_all
    cases trait <;> simp_all [Scopes.Causes]

/-- What a node gives reason for, with everything inside it. -/
def Reason (declared : Scopes) (current : ScopeId) (node : Node) (about : ScopeId)
    (trait : Trait) : Prop :=
  ∃ inner part, declared.Site node current inner part ∧
    declared.Causes inner part.expr about trait

/-- Noting expressions notes what one of them gives reason for. -/
theorem adds_noteAll (numbered : declared.Numbered) {sites : List (ScopeId × Node)}
    (same : declared.SameNames before) (run : noteAll sites before = .ok () after) :
    Adds before after fun about trait =>
      ∃ site ∈ sites, declared.Causes site.1 site.2.expr about trait := by
  induction sites generalizing before with
  | nil =>
    cases run
    exact .nothing (by simp)
  | cons site rest ih =>
    obtain ⟨_, middle, noted, run⟩ := run_bind_eq_ok run
    have same' := ((preserves_note _ _ _).of_ok same noted).1
    exact (adds_note same numbered noted).seq (same'.size.trans same.size.symm) (ih same' run)
      (by simp)

/-- The walk over a node notes what the node gives reason for. -/
theorem adds_visit (numbered : declared.Numbered) (node : Node) (same : declared.SameNames before)
    (run : visit node current before = .ok () after) :
    Adds before after (Reason declared current node) := by
  rw [visit_eq_noteAll node current same] at run
  simpa only [Adds, Reason, Prod.exists, Scopes.mem_sites_iff] using adds_noteAll numbered same run

end Capture

namespace Scopes

variable {declared scopes : Scopes} {tree : Node}

theorem Numbered.of_sameNames (same : declared.SameNames scopes) (numbered : declared.Numbered) :
    scopes.Numbered :=
  fun id parent found => numbered id parent (same.parent id ▸ found)

/-- Of a function, exactly that is noted for which there is a reason in the
tree. -/
theorem has_withReferences {store store' : Store} {bag bag' : DiagnosticBag}
    (run : Scopes.ofTree tree store bag = (.ok declared, store', bag'))
    (referred : declared.withReferences tree = .ok scopes) (inside : id < scopes.scopes.size)
    (trait : Trait) :
    (scopes.get id).has trait = true ↔ Capture.Reason scopes root tree id trait := by
  obtain ⟨numbered, unmarked, -⟩ := clean_ofTree run
  have same := sameNames_withReferences referred
  obtain ⟨visited, visits, size, -, get_eq⟩ := withReferences_eq_ok referred
  have adds := Capture.adds_visit (numbered.of_sameNames same) tree same.symm visits
  have settled : (scopes.get id).has = (visited.get id).has := by
    rw [get_eq]
    split <;> rfl
  rw [settled, adds id (same.size ▸ inside) trait]
  simp [unmarked]

end Scopes

end NewtonScript
