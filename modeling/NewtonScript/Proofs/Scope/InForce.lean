import Mathlib.Data.List.Induction
import NewtonScript.Emission
import NewtonScript.Proofs.Scope.Apart

/-!
# The values of constants

The emitter finds a constant in the table that the whole text left, so a
reference stands for the value of the last declaration of the constant in its
function, also when that declaration stands behind the reference.  Where none
stands behind, it is the value in force at the reference, and an initializer
at this place has the same value, unless the name is also a variable of a
function around.
-/

namespace NewtonScript

namespace Declaration

variable {before after : State} {id : ScopeId} {name : Symbol}

/-- The functions around a scope are those that were around it when it was
opened. -/
theorem Later.climb_eq {before after : Scopes} (later : Later before after)
    (numbered : after.Numbered) (steps : Nat) {id : ScopeId} (inside : id < before.scopes.size) :
    before.climb steps id = after.climb steps id := by
  induction steps generalizing id with
  | zero => rfl
  | succ steps ih =>
    have same := later.parent id inside
    rw [Scopes.climb, Scopes.climb, same]
    cases found : (before.get id).parent with
    | none => rfl
    | some parent =>
      have below := numbered id parent (same.trans found)
      simp only [ih (Nat.lt_trans below inside)]

/-- The last declaration of a constant among events binds it to a value. -/
def BoundLast (events : List Event) (start : State) (id : ScopeId) (name : Symbol)
    (value : Value) : Prop :=
  ∃ first constant node span second state,
    events = first ++ ⟨id, .constant constant (some node), span⟩ :: second ∧
      (constant == name) = true ∧ (∀ event ∈ second, ¬ event.Declares id name) ∧
        performAll first start = .ok () state ∧
          constantValue? state.scopes state.store id node = some value

/-- A constant has the value to which its last declaration bound it. -/
theorem boundLast_of_performAll (events : List Event) {value : Value}
    (run : performAll events before = .ok () after)
    (none : (before.scopes.get id).constants.get? name = none)
    (found : (after.scopes.get id).constants.get? name = some value) :
    BoundLast events before id name value := by
  induction events using List.reverseRecOn generalizing after with
  | nil =>
    cases run
    rw [none] at found
    cases found
  | append_singleton earlier event ih =>
    rw [performAll_append] at run
    obtain ⟨_, middle, ran, run⟩ := run_bind_eq_ok run
    obtain ⟨_, _, performed, run⟩ := run_bind_eq_ok run
    cases run
    by_cases declares : event.Declares id name
    · obtain ⟨rfl, constant, member, equal⟩ := declares
      cases effect_of_perform performed with
      | nothing _ act _ _ =>
        rw [act] at member
        cases member
      | named _ act _ _ =>
        rw [act] at member
        cases member
      | opened _ _ _ _ _ act _ _ =>
        rw [act] at member
        cases member
      | bound written node bound act known binds _ =>
        obtain ⟨id, _, span⟩ := event
        cases act
        cases List.mem_singleton.mp member
        rw [binds.constants] at found
        split at found
        · rw [Table.get?_insert_eq, if_pos equal] at found
          cases found
          exact ⟨earlier, constant, node, span, [], middle, rfl, equal, by simp, ran, known⟩
        · rename_i outside
          have absent : middle.scopes.get id = default := by
            simp only [true_and, Nat.not_lt] at outside
            simp [Scopes.get, outside]
          rw [absent] at found
          cases found
    · rw [get?_of_perform performed declares] at found
      obtain ⟨first, constant, node, span, second, state, rfl, equal, others, performed⟩ :=
        ih ran found
      refine ⟨first, constant, node, span, second ++ [event], state, by simp, equal, ?_, performed⟩
      simpa [or_imp, forall_and] using ⟨others, declares⟩

end Declaration

namespace Emission

/-- What a name that is a constant stands for is pushed. -/
theorem emit_name_of_resolve {ctx : Context} {name : Symbol} {value : Value} (span : Span)
    (resolved : ctx.scopes.resolve ctx.scope name = .constant value) :
    emit ⟨.name name, span⟩ false ctx =
      (do pushValue value; return true : EmitM Bool) ctx := by
  have pushed : (pushVariable name).run ctx = (pushValue value).run ctx := by
    have here : (read : EmitM Context).run ctx = pure ctx := rfl
    simp only [pushVariable, resolve, ReaderT.run_bind, here, pure_bind, resolved, ReaderT.run_pure]
  exact congrArg (· >>= fun _ => pure true) pushed

end Emission

open Declaration

namespace Scopes

variable {scopes : Scopes} {name : Symbol} {value : Value}

/-- A constant along a chain belongs to the first function that declares the
name in any way. -/
theorem exists_split_of_constantAlong {chain : List ScopeId}
    (found : scopes.constantAlong name chain = some value) :
    ∃ inner owner outer, chain = inner ++ owner :: outer ∧
      (scopes.get owner).constants.get? name = some value ∧
      ∀ id ∈ inner, (scopes.get id).constants.get? name = none := by
  induction chain with
  | nil => cases found
  | cons id rest ih =>
    simp only [constantAlong] at found
    split at found
    · cases found
    · split at found
      · rename_i bound
        cases found
        exact ⟨[], id, rest, rfl, bound, by simp⟩
      · rename_i unbound
        obtain ⟨inner, owner, outer, rfl, bound, others⟩ := ih found
        exact ⟨id :: inner, owner, outer, rfl, bound, List.forall_mem_cons.mpr ⟨unbound, others⟩⟩

theorem constantAlong_append {inner outer : List ScopeId} {owner : ScopeId}
    (bound : (scopes.get owner).constants.get? name = some value)
    (unbound : ∀ id ∈ inner, (scopes.get id).constants.get? name = none)
    (free : (inner ++ owner :: outer).any (fun id => (scopes.get id).owns name) = false) :
    scopes.constantAlong name (inner ++ owner :: outer) = some value := by
  induction inner with
  | nil =>
    simp only [List.nil_append, List.any_cons, Bool.or_eq_false_iff] at free
    simp [constantAlong, free.1, bound]
  | cons id rest ih =>
    obtain ⟨first, unbound⟩ := List.forall_mem_cons.mp unbound
    simp only [List.cons_append, List.any_cons, Bool.or_eq_false_iff] at free
    simp only [List.cons_append, constantAlong, free.1, first, Bool.false_eq_true, if_false]
    exact ih unbound free.2

theorem constant?_of_resolve {id : ScopeId} (resolved : scopes.resolve id name = .constant value) :
    scopes.constant? id name = some value := by
  unfold resolve at resolved
  split at resolved
  · cases resolved
  · split at resolved
    · rename_i found
      cases resolved
      exact found
    · split at resolved <;> cases resolved

theorem SameNames.constant? {declared : Scopes} (same : declared.SameNames scopes) (id : ScopeId) :
    scopes.constant? id name = declared.constant? id name := by
  have along : ∀ chain, scopes.constantAlong name chain = declared.constantAlong name chain := by
    intro chain
    induction chain with
    | nil => rfl
    | cons id rest ih => simp only [constantAlong, same.owns, same.constants, ih]
  rw [Scopes.constant?, Scopes.constant?, along, same.chain]

/-- A reference to a constant stands for the value of the last declaration of
the constant in its function.  If none of these stands behind the reference,
this is the last one before it, and an initializer at this place has the same
value, unless a function around has a variable of this name by then. -/
theorem constant_of_reference {tree : Node} {store store' : Store} {bag bag' : DiagnosticBag}
    {declared : Scopes} (collected : Scopes.ofTree tree store bag = (.ok declared, store', bag'))
    (referred : declared.withReferences tree = .ok scopes) {earlier later : List Event}
    {id : ScopeId} {span : Span}
    (reference : tree.events = earlier ++ ⟨id, .refer name, span⟩ :: later)
    (resolved : scopes.resolve id name = .constant value) :
    (∀ options, Emission.emit ⟨.name name, span⟩ false (.ofScope scopes options id) =
      (do Emission.pushValue value; return true : Emission.EmitM Bool)
        (.ofScope scopes options id)) ∧
    ∃ state, performAll earlier ⟨.ofSpan tree.span, store, bag⟩ = .ok () state ∧
      ∃ owner ∈ scopes.chain id,
        BoundLast tree.events ⟨.ofSpan tree.span, store, bag⟩ owner name value ∧
        ((∀ event ∈ later, ¬ event.Declares owner name) →
          BoundLast earlier ⟨.ofSpan tree.span, store, bag⟩ owner name value ∧
          constantValue? state.scopes state.store id ⟨.name name, span⟩ =
            if (scopes.chain id).any fun outer => (state.scopes.get outer).owns name then none
            else some value) := by
  refine ⟨fun options => Emission.emit_name_of_resolve span resolved, ?_⟩
  have same := sameNames_withReferences referred
  have numbered := (clean_ofTree collected).numbered
  have ran := exists_of_ofTree collected
  have whole := ran
  rw [reference, performAll_append] at ran
  obtain ⟨_, state, before, ran⟩ := run_bind_eq_ok ran
  have behind : performAll later state = .ok () ⟨declared, store', bag'⟩ := ran
  have inside : id < state.scopes.scopes.size := by
    have placed := tree.placed_events
    rw [reference] at placed
    rw [size_of_performAll _ before]
    exact (placed_append.mp placed).2.1
  have empty : ∀ other, ((Scopes.ofSpan tree.span).get other).constants.get? name = none := by
    intro other
    cases other <;> rfl
  have grown := later_of_performAll _ behind
  have chains : state.scopes.chain id = declared.chain id := grown.climb_eq numbered _ inside
  have along : declared.constant? id name = some value := by
    rw [← same.constant?]
    exact constant?_of_resolve resolved
  obtain ⟨inner, owner, outer, split, bound, unbound⟩ := exists_split_of_constantAlong along
  rw [same.chain, split]
  refine ⟨state, before, owner, by simp, boundLast_of_performAll _ whole (empty _) bound, ?_⟩
  intro others
  rw [get?_of_performAll _ behind others] at bound
  refine ⟨boundLast_of_performAll _ before (empty _) bound, ?_⟩
  rw [constantValue?, chains, split]
  split
  · rfl
  · rename_i free
    have unboundYet : ∀ other ∈ inner,
        (state.scopes.get other).constants.get? name = none := by
      intro other member
      have around : other ∈ declared.chain id := split ▸ List.mem_append_left _ member
      have below := Nat.lt_of_le_of_lt (le_of_mem_chain numbered around) inside
      exact grown.constants other below name (unbound other member)
    have known : state.scopes.constant? id name = some value := by
      rw [constant?, chains, split]
      exact constantAlong_append bound unboundYet (by simpa using free)
    rw [known]

/-- The name of a constant. -/
def sampleName : Symbol := .ofString "k"

/-- The declaration of a constant. -/
def sampleConstant (value : Int) : Binding :=
  ⟨sampleName, none, some ⟨.literal (.int value), Span.none⟩, Span.none⟩

/-- A constant, a reference to it, and declarations behind it. -/
def sampleTree (behind : List Binding) : Node :=
  ⟨.begin [⟨.constantDecl [sampleConstant 1], Span.none⟩, ⟨.name sampleName, Span.none⟩,
    ⟨.constantDecl behind, Span.none⟩], Span.none⟩

/-- The event of a declaration. -/
def sampleEvent (value : Int) : Event :=
  ⟨root, .constant sampleName (sampleConstant value).value, Span.none⟩

/-- A constant that is declared once has its value. -/
theorem constant_of_reference_once :
    ∃ owner, BoundLast [sampleEvent 1] ⟨.ofSpan Span.none, .empty, .empty⟩ owner sampleName
      (.int 1) := by
  have collected : ofTree (sampleTree []) .empty .empty = (.ok _, _, _) := rfl
  have reference : (sampleTree []).events =
    [sampleEvent 1] ++ ⟨root, .refer sampleName, Span.none⟩ :: [] := rfl
  obtain ⟨-, state, -, owner, -, -, inForce⟩ := constant_of_reference collected rfl reference
    (by with_unfolding_all rfl)
  exact ⟨owner, (inForce (by simp)).1⟩

/-- A constant that is declared again behind a reference has its second value
there already. -/
theorem not_inForce_redeclared :
    ∃ declared scopes store bag,
      ofTree (sampleTree [sampleConstant 2]) .empty .empty = (.ok declared, store, bag) ∧
      declared.withReferences (sampleTree [sampleConstant 2]) = .ok scopes ∧
      (sampleTree [sampleConstant 2]).events =
        [sampleEvent 1] ++ ⟨root, .refer sampleName, Span.none⟩ :: [sampleEvent 2] ∧
      BoundLast [sampleEvent 1] ⟨.ofSpan Span.none, .empty, .empty⟩ root sampleName (.int 1) ∧
      scopes.resolve root sampleName = .constant (.int 2) :=
  ⟨_, _, _, _, rfl, rfl, rfl,
    ⟨[], sampleName, _, Span.none, [], _, rfl, rfl, by simp, rfl, rfl⟩, by with_unfolding_all rfl⟩

end Scopes

end NewtonScript
