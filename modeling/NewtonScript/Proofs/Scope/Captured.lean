import NewtonScript.Proofs.Invariant
import NewtonScript.Proofs.Tree.Occurs
import NewtonScript.Scope.Capture

/-!
# References change no declarations

Noting who refers to what leaves the arguments, locals and constants of every
function as they were declared, and the scopes of function literals too.
-/

namespace NewtonScript

variable {scopes : Scopes}

theorem Scope.isSome_slotOf? {scope : Scope} {name : Symbol} (owns : scope.owns name) :
    (scope.slotOf? name).isSome := by
  rw [slotOf?, List.findIdx?_isSome, names]
  simpa [Scope.owns, List.contains_eq_any_beq, BEq.comm] using owns

/-- What is noted about a function. -/
inductive Trait where
  /-- It needs the receiver. -/
  | receiver
  /-- Functions inside refer to its variables. -/
  | shares
  /-- It, or a function inside, refers to variables of functions around it. -/
  | reaches
deriving DecidableEq

/-- Whether something is noted about a function. -/
def Scope.has (scope : Scope) : Trait → Bool
  | .receiver => scope.usesSelf
  | .shares => scope.hasClosedOver
  | .reaches => scope.capturesOuter

/-- What is declared in a function. -/
def Scope.declarations (scope : Scope) :
    Option ScopeId × List Symbol × List Symbol × Table Symbol Value × List Symbol × List Symbol :=
  (scope.parent, scope.args, scope.locals, scope.constants, scope.loopIndices, scope.explicitLocals)

/-- The same functions with the same declarations. -/
structure Scopes.SameNames (before after : Scopes) : Prop where
  size : after.scopes.size = before.scopes.size
  declarations : ∀ id, (after.get id).declarations = (before.get id).declarations
  byFunction : after.byFunction = before.byFunction

namespace Scopes

variable {before after : Scopes}

theorem SameNames.refl (scopes : Scopes) : scopes.SameNames scopes :=
  ⟨rfl, fun _ => rfl, rfl⟩

theorem get_update (scopes : Scopes) (id other : ScopeId) (change : Scope → Scope) :
    (scopes.update id change).get other =
      if id = other ∧ other < scopes.scopes.size then change (scopes.get other)
      else scopes.get other := by
  simp only [get, update, Array.getD_eq_getD_getElem?, Array.getElem?_modify]
  by_cases same : id = other
  · subst same
    by_cases inside : id < scopes.scopes.size
    · simp [inside]
    · simp [inside]
  · simp [same]

@[simp]
theorem size_update (scopes : Scopes) (id : ScopeId) (change : Scope → Scope) :
    (scopes.update id change).scopes.size = scopes.scopes.size :=
  Array.size_modify

variable (same : before.SameNames after)
include same

theorem SameNames.symm : after.SameNames before :=
  ⟨same.size.symm, fun id => (same.declarations id).symm, same.byFunction.symm⟩

theorem SameNames.parent (id : ScopeId) :
    (after.get id).parent = (before.get id).parent :=
  congrArg (·.1) (same.declarations id)

theorem SameNames.args (id : ScopeId) :
    (after.get id).args = (before.get id).args :=
  congrArg (·.2.1) (same.declarations id)

theorem SameNames.locals (id : ScopeId) :
    (after.get id).locals = (before.get id).locals :=
  congrArg (·.2.2.1) (same.declarations id)

theorem SameNames.constants (id : ScopeId) :
    (after.get id).constants = (before.get id).constants :=
  congrArg (·.2.2.2.1) (same.declarations id)

theorem SameNames.isBareLoopIndex (id : ScopeId) (name : Symbol) :
    (after.get id).isBareLoopIndex name = (before.get id).isBareLoopIndex name := by
  have equal := same.declarations id
  simp only [Scope.declarations, Prod.mk.injEq] at equal
  simp only [Scope.isBareLoopIndex, equal]

/-- A change of scopes that leaves declarations alone. -/
def KeepsNames (change : Scope → Scope) : Prop :=
  ∀ scope, (change scope).declarations = scope.declarations

theorem SameNames.update {change : Scope → Scope}
    (keeps : KeepsNames change) (id : ScopeId) : before.SameNames (after.update id change) where
  size := (size_update after id change).trans same.size
  declarations other := by
    rw [get_update]
    split
    · rw [keeps, same.declarations]
    · exact same.declarations other
  byFunction := same.byFunction

theorem SameNames.names (id : ScopeId) :
    (after.get id).names = (before.get id).names := by
  rw [Scope.names, Scope.names, same.args, same.locals]

theorem SameNames.slotOf? (id : ScopeId) (name : Symbol) :
    (after.get id).slotOf? name = (before.get id).slotOf? name := by
  rw [Scope.slotOf?, Scope.slotOf?, same.names]

end Scopes

/-- The scope of what stands directly inside an expression. -/
def Scopes.within? (scopes : Scopes) (expr : Expr) (id : ScopeId) : Option ScopeId :=
  match expr with
  | .func function .. => scopes.scopeOf? function
  | _ => some id

/-- The parts of a node in the order in which they are visited, each with the
scope of the innermost function around it. -/
def Scopes.sites (scopes : Scopes) : Node → ScopeId → List (ScopeId × Node)
  | ⟨expr, span⟩, id => (id, ⟨expr, span⟩) :: match scopes.within? expr id with
    | some inner => expr.inside.attach.flatMap fun part => scopes.sites part.val inner
    | none => []
termination_by node => sizeOf node
decreasing_by
  have := Expr.sizeOf_lt_of_mem_inside part.property
  simp only [Node.mk.sizeOf_spec]
  omega

theorem Scopes.sites_eq (scopes : Scopes) (expr : Expr) (span : Span) (id : ScopeId) :
    scopes.sites ⟨expr, span⟩ id = (id, ⟨expr, span⟩) :: ((scopes.within? expr id).elim []
      fun inner => expr.inside.flatMap fun part => scopes.sites part inner) := by
  rw [sites]
  cases scopes.within? expr id with
  | none => rfl
  | some inner => simp [List.flatMap]

namespace Capture

variable {declared : Scopes}

theorem sameNames_markAll {change : Scope → Scope} (same : declared.SameNames scopes)
    (keeps : Scopes.KeepsNames change) (ids : List ScopeId) :
    declared.SameNames (markAll scopes change ids) := by
  induction ids generalizing scopes with
  | nil => exact same
  | cons id rest ih => exact ih (same.update keeps id)

theorem preserves_markSelf (id : ScopeId) : Preserves declared.SameNames (markSelf id) :=
  preserves_modify fun _ same => sameNames_markAll same (fun _ => by rfl) _

theorem sameNames_capture (same : declared.SameNames scopes) (owner current : ScopeId)
    (inner : List ScopeId) (name : Symbol) :
    declared.SameNames (capture scopes owner current inner name) := by
  refine Scopes.SameNames.update (sameNames_markAll (same.update ?_ owner) ?_ inner) ?_ current
  all_goals exact fun _ => rfl

theorem preserves_referenceAlong (current : ScopeId) (name : Symbol) (span : Span)
    (chain inner : List ScopeId) :
    Preserves declared.SameNames (referenceAlong current name span chain inner) := by
  induction chain generalizing inner with
  | nil =>
    exact preserves_modify fun _ same => same.update (fun _ => by rfl) current
  | cons id rest ih =>
    refine ensures_get.bind fun scopes _ => ?_
    dsimp only
    split
    · split
      · exact preserves_modify fun _ same => same.update (fun _ => by rfl) id
      · split
        · exact ensures_throw trivial
        · exact preserves_modify fun _ same => sameNames_capture same id current inner name
    · split
      · exact ensures_pure trivial
      · exact ih _

theorem preserves_reference (current : ScopeId) (name : Symbol) (span : Span) :
    Preserves declared.SameNames (reference current name span) :=
  ensures_get.bind fun _ _ => preserves_referenceAlong current name span _ _

/-! ## The walk -/

/-- What an expression notes by itself. -/
def note : Expr → Span → ScopeId → CaptureM Unit
  | .name name, span, id => reference id name span
  | .selfRef, _, id => markSelf id
  | .send none _ _ _, _, id => markSelf id
  | .resend _ _ _, _, id => markSelf id
  | _, _, _ => return

theorem visitAll_append (first second : List Node) (id : ScopeId) :
    visitAll (first ++ second) id = visitAll first id >>= fun _ => visitAll second id := by
  induction first with
  | nil => simp [visitAll]
  | cons node rest ih => simp [visitAll, ih]

theorem visitBindings_eq (bindings : List Binding) (id : ScopeId) :
    visitBindings bindings id = visitAll (bindings.filterMap Binding.value) id := by
  induction bindings with
  | nil => simp [visitBindings, visitAll]
  | cons binding rest ih =>
    obtain ⟨name, type, value, span⟩ := binding
    cases value <;> simp [visitBindings, visitAll, ih]

theorem visitHandlers_eq (handlers : List Handler) (id : ScopeId) :
    visitHandlers handlers id = visitAll (handlers.map Handler.body) id := by
  induction handlers with
  | nil => simp [visitHandlers, visitAll]
  | cons handler rest ih =>
    obtain ⟨exception, body⟩ := handler
    simp [visitHandlers, visitAll, ih]

theorem visitSlots_eq (slots : List Slot) (id : ScopeId) :
    visitSlots slots id = visitAll (slots.map Slot.value) id := by
  induction slots with
  | nil => simp [visitSlots, visitAll]
  | cons slot rest ih =>
    obtain ⟨name, value⟩ := slot
    simp [visitSlots, visitAll, ih]

/-- A node notes something by itself, then its children are visited. -/
theorem visitExpr_eq {expr : Expr} (noFunction : expr.isFunction = false) (span : Span)
    (id : ScopeId) :
    visitExpr expr span id = note expr span id >>= fun _ => visitAll expr.children id := by
  cases expr with
  | func function params body native name => cases noFunction
  | path object key => cases key <;> simp [visitExpr, note, visitAll, Expr.children]
  | globalVar name value => cases value <;> simp [visitExpr, note, visitAll, Expr.children]
  | send receiver message args ifDefined =>
    cases receiver <;> simp [visitExpr, note, visitAll, visitAll_append, Expr.children]
  | ifThen cond thenBranch elseBranch =>
    cases elseBranch <;> simp [visitExpr, note, visitAll, Expr.children]
  | forLoop var start limit step body =>
    cases step <;> simp [visitExpr, note, visitAll, Expr.children]
  | breakLoop value => cases value <;> simp [visitExpr, note, visitAll, Expr.children]
  | returnValue value => cases value <;> simp [visitExpr, note, visitAll, Expr.children]
  | _ =>
    simp [visitExpr, note, visitAll, visitAll_append, visitBindings_eq, visitHandlers_eq,
      visitSlots_eq, Expr.children]

theorem preserves_note (expr : Expr) (span : Span) (id : ScopeId) :
    Preserves declared.SameNames (note expr span id) := by
  unfold note
  split
  · exact preserves_reference _ _ _
  · exact preserves_markSelf _
  · exact preserves_markSelf _
  · exact preserves_markSelf _
  · exact ensures_pure trivial

/-- Noting one expression behind another. -/
def noteAll (sites : List (ScopeId × Node)) : CaptureM Unit :=
  sites.forM fun site => note site.2.expr site.2.span site.1

theorem noteAll_cons (site : ScopeId × Node) (rest : List (ScopeId × Node)) :
    noteAll (site :: rest) = note site.2.expr site.2.span site.1 >>= fun _ => noteAll rest :=
  rfl

theorem noteAll_append (first second : List (ScopeId × Node)) :
    noteAll (first ++ second) = noteAll first >>= fun _ => noteAll second := by
  induction first with
  | nil => simp [noteAll]
  | cons site rest ih => simp [noteAll_cons, ih]

theorem preserves_noteAll (sites : List (ScopeId × Node)) :
    Preserves declared.SameNames (noteAll sites) := by
  induction sites with
  | nil => exact ensures_pure trivial
  | cons site rest ih => exact (preserves_note _ _ _).seq fun _ => ih

/-- A walk notes an expression, then it goes on inside. -/
theorem visit_eq (expr : Expr) (span : Span) (id : ScopeId) :
    visit ⟨expr, span⟩ id = note expr span id >>= fun _ => do
      match (← get).within? expr id with
      | some inner => visitAll expr.inside inner
      | none => return := by
  rw [visit]
  cases expr with
  | func function params body native name =>
    have alone : ∀ inner, visit body inner = visitAll [body] inner := by
      simp [visitAll]
    rw [note, pure_bind]
    · refine congrArg (fun next => (get : CaptureM Scopes) >>= next) (funext fun scopes => ?_)
      change _ = match scopes.scopeOf? function with
        | some inner => visitAll [body] inner
        | none => pure ()
      cases scopes.scopeOf? function with
      | some inner => exact alone inner
      | none => rfl
    all_goals exact nofun
  | _ => exact visitExpr_eq rfl span id

theorem visitAll_eq_noteAll {nodes : List Node} {id : ScopeId} {before : Scopes}
    (each : ∀ node ∈ nodes, ∀ {before : Scopes}, declared.SameNames before →
      visit node id before = noteAll (declared.sites node id) before)
    (same : declared.SameNames before) :
    visitAll nodes id before = noteAll (nodes.flatMap fun node => declared.sites node id) before := by
  induction nodes generalizing before with
  | nil => rfl
  | cons node rest ih =>
    obtain ⟨first, others⟩ := List.forall_mem_cons.mp each
    rw [visitAll, List.flatMap_cons, noteAll_append, run_bind_congr (first same)]
    cases noted : noteAll (declared.sites node id) before with
    | ok _ middle =>
      rw [run_bind_of_ok noted, run_bind_of_ok noted]
      exact ih others ((preserves_noteAll _).of_ok same noted).1
    | error failure middle => rw [run_bind_of_error noted, run_bind_of_error noted]

/-- The walk over a node notes its parts in order. -/
theorem visit_eq_noteAll (node : Node) (id : ScopeId) {before : Scopes}
    (same : declared.SameNames before) :
    visit node id before = noteAll (declared.sites node id) before := by
  induction node using Node.induction generalizing id before with
  | step expr span ih =>
    rw [visit_eq, Scopes.sites_eq, noteAll_cons]
    cases noted : note expr span id before with
    | error failure middle => rw [run_bind_of_error noted, run_bind_of_error noted]
    | ok _ middle =>
      have same' := ((preserves_note expr span id).of_ok same noted).1
      rw [run_bind_of_ok noted, run_bind_of_ok noted]
      change (match middle.within? expr id with
        | some inner => visitAll expr.inside inner
        | none => return) middle = _
      have within : middle.within? expr id = declared.within? expr id := by
        simp only [Scopes.within?, Scopes.scopeOf?, same'.byFunction]
      rw [within]
      cases declared.within? expr id with
      | some inner => exact visitAll_eq_noteAll (fun part member => ih part member inner) same'
      | none => rfl

end Capture

/-- The scopes with references are those behind the walk, with the locations
of the remaining variables settled. -/
theorem Scopes.withReferences_eq_ok {declared : Scopes} {tree : Node}
    (referred : declared.withReferences tree = .ok scopes) :
    ∃ visited, Capture.visit tree Scopes.root declared = .ok () visited ∧
      scopes.scopes.size = visited.scopes.size ∧ scopes.byFunction = visited.byFunction ∧
      ∀ id, scopes.get id =
        if id < visited.scopes.size then Capture.settle (visited.get id) else visited.get id := by
  unfold Scopes.withReferences at referred
  split at referred
  · rename_i visited run
    cases referred
    refine ⟨visited, run, Array.size_map, rfl, fun id => ?_⟩
    simp only [Scopes.get, Array.getD_eq_getD_getElem?, Array.getElem?_map]
    split
    · rename_i inside
      simp [inside]
    · rename_i outside
      simp [outside]
  · cases referred

/-- The scopes with references have the declarations of those without. -/
theorem Scopes.sameNames_withReferences {declared : Scopes} {tree : Node}
    (referred : declared.withReferences tree = .ok scopes) : declared.SameNames scopes := by
  obtain ⟨visited, run, size, byFunction, get_eq⟩ := Scopes.withReferences_eq_ok referred
  rw [Capture.visit_eq_noteAll tree Scopes.root (.refl declared)] at run
  have same := ((Capture.preserves_noteAll _).of_ok (.refl declared) run).1
  refine ⟨size.trans same.size, fun id => ?_, byFunction.trans same.byFunction⟩
  rw [get_eq, ← same.declarations]
  split <;> rfl

end NewtonScript
