import NewtonScript.Proofs.Emission.Growth
import NewtonScript.Proofs.Flow.Graph
import NewtonScript.Proofs.Flow.OfTree

/-!
# Sealed blocks

The bytes of a sealed block are read back as the instructions of its code, and
every instruction has a level of the stack and of the handlers at which it is
reached.
-/

namespace NewtonScript.Emission

open Bytecode

variable {setting : Setting} {id : ScopeId} {body : Node} {block : CodeBlock} {pool : LiteralPool}
  {store : Store} {code : Fragment Instruction}
  (sealed : Sealed setting id body block pool store code)
include sealed

theorem Sealed.literals_eq :
    block.literals.getD [] = pool.values.toList := by
  rw [sealed.literals, LiteralPool.toLiterals?]
  split
  · rename_i empty
    simp [Array.isEmpty_iff.mp empty]
  · rfl

theorem Sealed.maps (shape : FrameMap)
    (member : .map shape ∈ pool.values.toList) : store.HasMap setting.Known shape := by
  rcases sealed.origins _ member with known | ⟨_, shared, equal⟩ | ⟨_, _, equal⟩
  · exact .inr known
  · cases equal
    exact .inl shared
  · cases equal

/-- The literals of a block are those of the pool that it was sealed with. -/
theorem literal?_of_sealed :
    block.literal? = fun index => pool.values.toList[index]? := by
  funext index
  rw [CodeBlock.literal?, ← sealed.literals_eq]
  cases block.literals <;> rfl

/-- The instructions of a sealed block. -/
theorem decodeAll_of_sealed :
    decodeAll block.code = .ok (locate ((code.cells 0).map Cell.instr) 0) := by
  rw [sealed.bytes]
  refine decodeAll_flatMap_encode ?_
  simp only [List.forall_mem_map]
  exact Fragment.canonical_cells (fun _ _ realized => realized.canonical) sealed.related 0

theorem Sealed.complete :
    Complete (code.cells 0) where
  closed := sealed.closed
  reach := sealed.reach
  small := Nat.lt_succ_of_le sealed.small

/-- The code of a function is that of its body and a return behind it. -/
theorem Sealed.exists_body :
    ∃ inner, code = .append inner (.finish 0) ∧
      (codeOf (setting.ctx id) setting.globals body {} false).Rel
        (Primitive.Realized (setting.ctx id).layout pool.values.toList store.maps) inner := by
  have related := sealed.related
  cases related with
  | append ofBody ofReturn =>
    cases ofReturn
    exact ⟨_, rfl, ofBody⟩

/-- Every instruction of a sealed block has a level, and does what its body
asks for. -/
theorem Sealed.annotated :
    ∃ levels, Annotated (Instruction.rules pool.values.toList (setting.ctx id).layout.base
      (variableCount (setting.ctx id)) (store.Coherent setting.Known) (BreakMark body)
      (ReturnDepth body)) (code.cells 0) levels := by
  have small := sealed.complete.small
  obtain ⟨inner, rfl, related⟩ := sealed.exists_body
  have unique : store.Coherent setting.Known → ∀ first second,
      Value.map first ∈ pool.values.toList → second ∈ store.maps → first.id = second.id →
        first = second :=
    fun coherent first second inPool shared =>
      coherent.id_injective first second (sealed.maps first inPool) (.inl shared)
  have flow := Flow.realized unique (flow_body (setting.ctx id) setting.globals body) related
  exact flow.annotated (Instruction.steady_rules _ _ _ _ _ _) (.inl rfl) small


end NewtonScript.Emission
