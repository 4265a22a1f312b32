import NewtonScript.Emission
import NewtonScript.Proofs.Invariant

/-!
# What emitting actions do

For every elementary action, when it succeeds and what it then does to the
state.  An action made of two succeeds exactly when the first one does and the
second one does from where the first one ends.
-/

namespace NewtonScript.Emission

open Bytecode

variable {operand : Nat} {α β : Type} {result : Unit} {state final middle : State} {label : Label}
  {opcode : Opcode} {action : EmitM α} {ctx : Context} {failure : Failure}

/-! ## Steps in a row -/

theorem bind_eq_ok {next : α → EmitM β} {result : β}
    (run : (action >>= next) ctx state = .ok result final) :
    ∃ value middle, action ctx state = .ok value middle ∧
      next value ctx middle = .ok result final :=
  run_bind_eq_ok run

theorem bind_of_ok {value : α} (run : action ctx state = .ok value middle) (next : α → EmitM β) :
    (action >>= next) ctx state = next value ctx middle := by
  change EStateM.bind (action ctx) (fun value => next value ctx) state = _
  rw [EStateM.bind, run]

theorem bind_of_error (run : action ctx state = .error failure middle) (next : α → EmitM β) :
    (action >>= next) ctx state = .error failure middle := by
  change EStateM.bind (action ctx) (fun value => next value ctx) state = _
  rw [EStateM.bind, run]

theorem bind_eq_error {next : α → EmitM β}
    (failed : (action >>= next) ctx state = .error failure final) :
    action ctx state = .error failure final ∨
      ∃ value middle, action ctx state = .ok value middle ∧
        next value ctx middle = .error failure final :=
  run_bind_eq_error failed

theorem pure_eq_ok_iff {value result : α} :
    (pure value : EmitM α) ctx state = .ok result final ↔ result = value ∧ final = state := by
  change EStateM.Result.ok value state = .ok result final ↔ _
  simp [eq_comm]

theorem throw_ne_ok {result : α} : (throw failure : EmitM α) ctx state ≠ .ok result final := by
  intro equal
  cases equal

/-! ## Instructions -/

/-- The instructions of the function so far. -/
def State.code (state : State) : List Instruction :=
  state.function.code.instructions.toList

/-- The number of bytes of the function so far. -/
def State.size (state : State) : Nat :=
  state.function.code.size

/-- The literals of the function so far. -/
def State.pool (state : State) : List Value :=
  state.function.literals.values.toList

/-- Replace the operand of an instruction in a row. -/
def setOperandAt (index operand : Nat) (code : List Instruction) : List Instruction :=
  code.modify index fun instr => { instr with operand := operand.toUInt16 }

/-- One state after another that differs from it only in the code. -/
structure State.SameBut (state final : State) : Prop where
  pool : final.pool = state.pool
  loops : final.function.loops = state.function.loops
  store : final.store = state.store

theorem push_eq_ok {instr : Instruction} (run : push instr ctx state = .ok result final) :
    final.code = state.code ++ [instr] ∧ final.size = state.size + instr.size ∧
      state.SameBut final := by
  cases run
  exact ⟨by simp [State.code, Buffer.push], rfl, ⟨rfl, rfl, rfl⟩⟩

theorem operand16_eq_ok {result : UInt16}
    (run : operand16 opcode operand ctx state = .ok result final) :
    operand < 65536 ∧ result = operand.toUInt16 ∧ final = state := by
  unfold operand16 Buffer.operand16 at run
  by_cases small : operand < 65536
  · rw [if_pos small] at run
    cases run
    exact ⟨small, rfl, rfl⟩
  · rw [if_neg small] at run
    cases run

theorem op_eq_ok (run : op opcode operand ctx state = .ok result final) :
    operand < 65536 ∧
      final.code = state.code ++ [Instruction.shortest opcode operand.toUInt16] ∧
      final.size = state.size + (Instruction.shortest opcode operand.toUInt16).size ∧
      state.SameBut final := by
  obtain ⟨word, middle, checked, pushed⟩ := bind_eq_ok run
  obtain ⟨small, rfl, rfl⟩ := operand16_eq_ok checked
  exact ⟨small, push_eq_ok pushed⟩

theorem reserve_eq_ok (run : reserve opcode ctx state = .ok label final) :
    label = ⟨state.code.length, state.size⟩ ∧
      final.code = state.code ++ [Buffer.reserved opcode] ∧ final.size = state.size + 3 ∧
      state.SameBut final := by
  cases run
  exact ⟨by simp [Buffer.nextLabel, State.code, State.size], by simp [State.code, Buffer.push],
    rfl, ⟨rfl, rfl, rfl⟩⟩

theorem here_eq_ok {position : Nat} (run : here ctx state = .ok position final) :
    position = state.size ∧ final = state := by
  cases run
  exact ⟨rfl, rfl⟩

theorem patch_eq_ok (run : patch label operand ctx state = .ok result final) :
    operand < 65536 ∧ final.code = setOperandAt label.index operand state.code ∧
      final.size = state.size ∧ state.SameBut final := by
  obtain ⟨_, _, read, run⟩ := bind_eq_ok run
  cases read
  obtain ⟨word, middle, checked, changed⟩ := bind_eq_ok run
  obtain ⟨small, rfl, rfl⟩ := operand16_eq_ok checked
  cases changed
  refine ⟨small, ?_, rfl, ⟨rfl, rfl, rfl⟩⟩
  simp [State.code, Buffer.setOperand, setOperandAt, Array.toList_modify]

theorem patchHere_eq_ok (run : patchHere label ctx state = .ok result final) :
    state.size < 65536 ∧ final.code = setOperandAt label.index state.size state.code ∧
      final.size = state.size ∧ state.SameBut final := by
  obtain ⟨position, middle, read, patched⟩ := bind_eq_ok run
  obtain ⟨rfl, rfl⟩ := here_eq_ok read
  exact patch_eq_ok patched

theorem State.SameBut.refl (state : State) : state.SameBut state :=
  ⟨rfl, rfl, rfl⟩

theorem State.SameBut.trans (first : state.SameBut middle) (second : middle.SameBut final) :
    state.SameBut final :=
  ⟨second.pool.trans first.pool, second.loops.trans first.loops, second.store.trans first.store⟩

/-- Replace the operands of the instructions at labels. -/
def setOperandsAt (operand : Nat) : List Label → List Instruction → List Instruction
  | [], code => code
  | label :: rest, code => setOperandsAt operand rest (setOperandAt label.index operand code)

theorem patchAllHere_eq_ok {labels : List Label}
    (run : patchAllHere labels ctx state = .ok result final) :
    final.code = setOperandsAt state.size labels state.code ∧ final.size = state.size ∧
      state.SameBut final := by
  induction labels generalizing state with
  | nil =>
    obtain ⟨-, rfl⟩ := pure_eq_ok_iff.mp run
    exact ⟨rfl, rfl, .refl _⟩
  | cons label rest ih =>
    obtain ⟨_, middle, patched, others⟩ := bind_eq_ok run
    obtain ⟨-, code, size, same⟩ := patchHere_eq_ok patched
    obtain ⟨code', size', same'⟩ := ih others
    refine ⟨?_, size'.trans size, same.trans same'⟩
    rw [code', code, size, setOperandsAt]

theorem patchAddressHere_eq_ok (run : patchAddressHere label ctx state = .ok result final) :
    state.size ≤ maxHandlerAddress ∧
      final.code = setOperandAt label.index (Immediate.ofInt state.size).toNat state.code ∧
      final.size = state.size ∧ state.SameBut final := by
  obtain ⟨position, middle, read, patched⟩ := bind_eq_ok run
  obtain ⟨rfl, rfl⟩ := here_eq_ok read
  by_cases near : middle.size ≤ maxHandlerAddress
  · rw [if_pos near] at patched
    exact ⟨near, (patch_eq_ok patched).2⟩
  · rw [if_neg near] at patched
    obtain ⟨_, _, _, thrown⟩ := bind_eq_ok patched
    exact absurd thrown throw_ne_ok

end NewtonScript.Emission
