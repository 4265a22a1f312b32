import Mathlib.Data.List.Infix
import NewtonScript.Proofs.Emission.Literals
import NewtonScript.Proofs.Emission.Reached

/-!
# What emission leaves alone

Operands are patched by their places, and a function inside another one takes
the place of all that was emitted before.  Still the code before a node, the
literals that have numbers and the breaks that wait for outer loops are as they
were when the node has been emitted; and behind a function literal, emitted or
refused, the function around it goes on where it was.
-/

namespace NewtonScript.Emission

open Bytecode

/-- A break that is left open stands in the row. -/
theorem bounds_of_mem_openLabels {cells : List Cell} {index position : Nat} {label : Label}
    (member : label ∈ openLabels cells index position) :
    (index ≤ label.index ∧ label.index < index + cells.length) ∧
      position ≤ label.position ∧ label.position < position + bytesOf cells := by
  induction cells generalizing index position with
  | nil => cases member
  | cons cell rest ih =>
    have later (among : label ∈ openLabels rest (index + 1) (position + cell.size)) := ih among
    have wide : 0 < cell.size := cell.instr.size_pos
    rw [bytesOf_cons, List.length_cons]
    unfold openLabels at member
    split at member
    · rcases List.mem_cons.mp member with rfl | among
      · dsimp only
        omega
      · have := later among
        omega
    · have := later member
      omega

/-- Emission is local.  A node that is emitted adds to the code and to the
literals, and leaves what is there; it may leave breaks in its own code to the
innermost loop around it, and to no other.  All that it adds is its code in one
scope and with one layout, behind function literals inside it as before them.
The function with a scope, emitted or refused, leaves the function around it as
it was. -/
theorem emission_is_local :
    (∀ scopes options id node discard left state final,
      emit node discard (.ofScope scopes options id) state = .ok left final →
        state.function.code.bytes <+: final.function.code.bytes ∧ state.code <+: final.code ∧
        state.pool <+: final.pool ∧
        (∃ breaks, final.function.loops = addBreaks breaks state.function.loops ∧
          ∀ site ∈ breaks, (state.code.length ≤ site.index ∧ site.index < final.code.length) ∧
            state.size ≤ site.position ∧ site.position < final.size) ∧
        ∃ fragment : Fragment Instruction,
          (codeOf (.ofScope scopes options id) state.store.constants node {} discard).Rel
            (Primitive.Realized (Context.ofScope scopes options id).layout final.pool
              final.store.maps) fragment ∧
          final.code = state.code ++ (fragment.cells state.size).map Cell.instr) ∧
    (∀ id body ctx state block final,
      functionBlock id body ctx state = .ok block final → final.function = state.function) ∧
    ∀ id body ctx state failure final,
      functionBlock id body ctx state = .error failure final →
        final.function = state.function := by
  refine ⟨?_, ?_, ?_⟩
  · intro scopes options id node discard left state final run
    obtain ⟨-, fragment, related, grown⟩ :=
      yields_emit_ofStore scopes options state.store node id {} discard (.refl _ _) run
    have code : state.code <+: final.code := grown.code ▸ List.prefix_append _ _
    refine ⟨code.flatMap Instruction.encode, code, grown.keeps.pool,
      ⟨_, grown.loops, fun site member => ?_⟩, fragment, related, grown.code⟩
    have bounds := bounds_of_mem_openLabels (List.mem_reverse.mp member)
    rwa [← grown.size, ← List.length_map Cell.instr, ← List.length_append, ← grown.code] at bounds
  · intro id body ctx state block final run
    exact ((aside_functionBlock id body ctx _).of_ok rfl run).1
  · intro id body ctx state failure final run
    exact ((aside_functionBlock id body ctx _).of_error rfl run).1

end NewtonScript.Emission
