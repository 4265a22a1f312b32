import NewtonScript.Proofs.Code.Pending
import NewtonScript.Proofs.Flow.Judgement

/-!
# What instructions do to the stack

The net effect of every instruction on the depth of the stack, and what is
asked of its operand: a literal is in the pool, a variable in the frame, a
frequent function in the table.  A primitive has the effect of each
instruction that it is turned into.
-/

namespace NewtonScript

open Bytecode Instruction

namespace Bytecode

/-- The change of the depth of the stack. -/
def Instruction.stackEffect (instr : Instruction) : Int :=
  match instr.op with
  | .push => 1
  | .pushConstant => 1
  | .findVar => 1
  | .getVar => 1
  | .incrVar => 1
  | .setVar => -1
  | .findAndSetVar => -1
  | .call => -instr.operand.toNat
  | .invoke => -instr.operand.toNat
  | .resend => -instr.operand.toNat
  | .resendIfDefined => -instr.operand.toNat
  | .send => -(instr.operand.toNat + 1)
  | .sendIfDefined => -(instr.operand.toNat + 1)
  | .makeFrame => -instr.operand.toNat
  | .makeArray => if instr.operand = 0xFFFF then -1 else -instr.operand.toNat
  | .getPath => -1
  | .setPath => if instr.operand = 0 then -3 else -2
  | .freqFunc =>
    match Frequent.ofIndex? instr.operand.toNat with
    | some function => 1 - function.arity
    | none => 0
  | .branch => 0
  | .branchIfTrue => -1
  | .branchIfFalse => -1
  | .branchIfLoopNotDone => -3
  | .newHandlers => -2 * instr.operand.toNat
  | .simple =>
    match instr.simple? with
    | some .pop => -1
    | some .iterNext => -1
    | some .dup => 1
    | some .pushSelf => 1
    | _ => 0

/-- The change of the number of installed handler tables. -/
def Instruction.handlerEffect (instr : Instruction) : Int :=
  if instr.op = .newHandlers then
    1
  else if instr.simple? = some .popHandlers then
    -1
  else
    0

/-- Whether an instruction leads to the next one only and leaves the handlers
alone. -/
def Instruction.isStraight (instr : Instruction) : Bool :=
  !instr.op.isBranch && instr.op != .newHandlers &&
    instr.simple? != some .ret && instr.simple? != some .popHandlers

/-- The operand of an instruction numbers something that is there. -/
structure Instruction.InRange (pool : List Value) (base count : Nat)
    (instr : Instruction) : Prop where
  literal : instr.op = .push → instr.operand.toNat < pool.length
  name : instr.op = .findVar ∨ instr.op = .findAndSetVar →
    ∃ name, pool[instr.operand.toNat]? = some (.symbol name)
  function : instr.op = .freqFunc →
    ∃ function, Frequent.ofIndex? instr.operand.toNat = some function
  slot : instr.op = .getVar ∨ instr.op = .setVar ∨ instr.op = .incrVar →
    base ≤ instr.operand.toNat ∧ instr.operand.toNat < base + count

/-- An instruction leads from one depth to another and on to the next one. -/
structure Instruction.Behaves (pool : List Value) (base count : Nat) (instr : Instruction)
    (depth depth' : Nat) : Prop where
  straight : instr.isStraight
  op_ne : instr.op ≠ .makeFrame
  inRange : instr.InRange pool base count
  effect : (depth' : Int) = depth + instr.stackEffect

end Bytecode

/-- A slot is one of so many, or no operand holds it. -/
def Held (count slot : Nat) : Prop :=
  slot < count ∨ 65536 ≤ slot

/-- The slots that code reads, those that it writes, and those that it puts
growing arrays into. -/
structure Access where
  Reads : Nat → Prop
  Writes : Nat → Prop
  Gathers : Nat → Prop

/-- The slots of a frame with so many variables. -/
def Access.frame (count : Nat) : Access :=
  ⟨Held count, Held count, fun _ => True⟩

/-- A primitive leads from one depth of the stack to another and uses slots
only as it may. -/
def Primitive.Moves (access : Access) : Primitive → Nat → Nat → Prop
  | .value _, depth, depth' => depth' = depth + 1
  | .text _, depth, depth' => depth' = depth + 1
  | .path _, depth, depth' => depth' = depth + 1
  | .map _, depth, depth' => depth' = depth + 1
  | .function _, depth, depth' => depth' = depth + 1
  | .lookup _, depth, depth' => depth' = depth + 1
  | .assign _, depth, depth' => depth = depth' + 1
  | .getVar slot, depth, depth' => access.Reads slot ∧ depth' = depth + 1
  | .setVar slot, depth, depth' => access.Writes slot ∧ depth = depth' + 1
  | .incrVar slot, depth, depth' => access.Writes slot ∧ depth' = depth + 1
  | .op .freqFunc index, depth, depth' =>
    ∃ function, Frequent.ofIndex? index = some function ∧ depth + 1 = depth' + function.arity
  | .op .call operand, depth, depth' => depth = depth' + operand
  | .op .invoke operand, depth, depth' => depth = depth' + operand
  | .op .resend operand, depth, depth' => depth = depth' + operand
  | .op .resendIfDefined operand, depth, depth' => depth = depth' + operand
  | .op .send operand, depth, depth' => depth = depth' + operand + 1
  | .op .sendIfDefined operand, depth, depth' => depth = depth' + operand + 1
  | .op .makeArray operand, depth, depth' => 0 < depth' ∧ depth = depth' + operand
  | .op .getPath _, depth, depth' => depth = depth' + 1
  | .op .setPath operand, depth, depth' =>
    operand = 0 ∧ depth = depth' + 3 ∨ operand = 1 ∧ depth = depth' + 2
  | .simple .pop, depth, depth' => depth = depth' + 1
  | .simple .iterNext, depth, depth' => depth = depth' + 1
  | .simple .dup, depth, depth' => depth' = depth + 1
  | .simple .pushSelf, depth, depth' => depth' = depth + 1
  | .simple .setLexScope, depth, depth' => depth' = depth
  | .simple .iterDone, depth, depth' => depth' = depth
  | _, _, _ => False

/-- The rules of primitives.  A frame is made directly behind its map, and an
array that grows is put into a variable at once. -/
def Primitive.rules (access : Access) (leaves : Mark → Prop) (finishes : Nat → Prop) :
    Rules Primitive where
  Moves := Primitive.Moves access
  Follows := fun first second depth depth' =>
    ∃ names, first = .map names ∧ second = .op .makeFrame names.length ∧
      depth = depth' + names.length
  Couples := fun first second depth depth' =>
    first = .op .makeArray Emission.growableArray ∧ ∃ slot, second = .setVar slot ∧
      access.Writes slot ∧ access.Gathers slot ∧ depth = depth' + 2
  Leaves := leaves
  Finishes := finishes

/-- The rules of instructions over a literal pool, in a frame with so many
variables from a number on.  An array of 65535 elements would be written as one
that grows, so its effect is only known where the stack is not that deep.  If
maps have numbers of their own, the map of a frame has as many slots as values
are taken. -/
def Bytecode.Instruction.rules (pool : List Value) (base count : Nat) (distinct : Prop)
    (leaves : Mark → Prop) (finishes : Nat → Prop) : Rules Instruction where
  Moves := fun instr depth depth' =>
    depth' ≤ depth + 1 ∧ (depth < 65536 → instr.Behaves pool base count depth depth')
  Follows := fun first second depth depth' => depth' ≤ depth + 1 ∧ second.op = .makeFrame ∧
    (depth' : Int) = depth + second.stackEffect ∧ first.op = .push ∧
      (distinct → ∃ shape, pool[first.operand.toNat]? = some (.map shape) ∧
        shape.slots.length = second.operand.toNat)
  Couples := fun _ _ _ _ => False
  Leaves := leaves
  Finishes := finishes

theorem Bytecode.Instruction.steady_rules (pool : List Value) (base count : Nat)
    (distinct : Prop) (leaves : Mark → Prop) (finishes : Nat → Prop) :
    (rules pool base count distinct leaves finishes).Steady :=
  ⟨fun _ _ _ moves => moves.1, fun _ _ _ _ follows => follows.1, fun _ _ _ _ => id⟩

/-! ## From primitives to instructions -/

section

variable {operand base count depth depth' : Nat} {layout : FrameLayout} {pool : List Value}
  {maps : List FrameMap} {instr : Instruction} {op : Opcode}

theorem Bytecode.Instruction.Behaves.push {property : Value → Prop}
    (found : LiteralAt pool .push property instr) :
    instr.Behaves pool base count depth (depth + 1) := by
  obtain ⟨index, value, there, _, small, rfl⟩ := found
  have inside := (List.getElem?_eq_some_iff.mp there).1
  refine ⟨rfl, by simp [shortest], ?_, ?_⟩
  · constructor <;> simp [shortest, toNat_toUInt16 small, inside]
  · simp [stackEffect, shortest]

/-- A name that is looked up or assigned to is in the pool as a symbol. -/
theorem Bytecode.Instruction.Behaves.named {name : Symbol}
    (found : LiteralAt pool op (fun known => known.sameLiteral (.symbol name)) instr)
    (named : op = .findVar ∧ depth' = depth + 1 ∨ op = .findAndSetVar ∧ depth = depth' + 1) :
    instr.Behaves pool base count depth depth' := by
  obtain ⟨index, value, there, same, small, rfl⟩ := found
  obtain ⟨stored, rfl⟩ : ∃ stored, value = .symbol stored := by
    cases value with
    | symbol stored => exact ⟨stored, rfl⟩
    | _ => simp [Value.sameLiteral] at same
  rcases named with ⟨rfl, moved⟩ | ⟨rfl, moved⟩
  all_goals
    refine ⟨rfl, by simp [shortest], ?_, ?_⟩
    · constructor <;> simp [shortest, toNat_toUInt16 small, there]
    · simp only [stackEffect, shortest]
      omega

/-- A variable is in the frame: a slot that no operand holds is never used. -/
theorem Bytecode.Instruction.Behaves.slot {slot : Nat}
    (operand : OperandIs op (layout.varIndex slot) instr) (held : Held count slot)
    (known : (op = .getVar ∨ op = .incrVar) ∧ depth' = depth + 1 ∨
      op = .setVar ∧ depth = depth' + 1) :
    instr.Behaves pool layout.base count depth depth' := by
  obtain ⟨small, rfl⟩ := operand
  have inside : slot < count := by
    rcases held with inside | large
    · exact inside
    · simp only [FrameLayout.varIndex] at small
      omega
  have bounds : layout.base ≤ layout.varIndex slot ∧
      layout.varIndex slot < layout.base + count := by
    simp only [FrameLayout.varIndex]
    omega
  rcases known with ⟨rfl | rfl, moved⟩ | ⟨rfl, moved⟩
  all_goals
    refine ⟨rfl, by simp [shortest], ?_, ?_⟩
    · constructor <;> simp [shortest, toNat_toUInt16 small, bounds]
    · simp only [stackEffect, shortest]
      omega

theorem Bytecode.Instruction.Behaves.function {index : Nat} {function : Frequent}
    (operand : OperandIs .freqFunc index instr) (found : Frequent.ofIndex? index = some function)
    (moved : depth + 1 = depth' + function.arity) :
    instr.Behaves pool base count depth depth' := by
  obtain ⟨small, rfl⟩ := operand
  refine ⟨rfl, by simp [shortest], ?_, ?_⟩
  · constructor <;> simp [shortest, toNat_toUInt16 small, found]
  · simp only [stackEffect, shortest, toNat_toUInt16 small, found]
    omega

/-- Operations whose operand is a count. -/
theorem Bytecode.Instruction.Behaves.counted (realized : OperandIs op operand instr)
    (known : (op = .call ∨ op = .invoke ∨ op = .resend ∨ op = .resendIfDefined) ∧
        depth = depth' + operand ∨
      (op = .send ∨ op = .sendIfDefined) ∧ depth = depth' + operand + 1 ∨
      op = .getPath ∧ depth = depth' + 1) : instr.Behaves pool base count depth depth' := by
  obtain ⟨small, rfl⟩ := realized
  rcases known with ⟨rfl | rfl | rfl | rfl, moved⟩ | ⟨rfl | rfl, moved⟩ | ⟨rfl, moved⟩
  all_goals
    refine ⟨rfl, by simp [shortest], ?_, ?_⟩
    · constructor <;> simp [shortest]
    · simp only [stackEffect, shortest, toNat_toUInt16 small]
      omega

theorem Bytecode.Instruction.Behaves.setPath (realized : OperandIs .setPath operand instr)
    (known : operand = 0 ∧ depth = depth' + 3 ∨ operand = 1 ∧ depth = depth' + 2) :
    instr.Behaves pool base count depth depth' := by
  obtain ⟨small, rfl⟩ := realized
  refine ⟨rfl, by simp [shortest], ?_, ?_⟩
  · constructor <;> simp [shortest]
  · rcases known with ⟨rfl, moved⟩ | ⟨rfl, moved⟩
    · show (depth' : Int) = depth + -3
      omega
    · show (depth' : Int) = depth + -2
      omega

/-- The elements of an array and its class are on the stack, so there are fewer
than mark an array that grows. -/
theorem Bytecode.Instruction.Behaves.makeArray
    (realized : OperandIs .makeArray operand instr) (shallow : depth < 65536)
    (known : 0 < depth' ∧ depth = depth' + operand ∨
      operand = Emission.growableArray ∧ depth = depth' + 1) :
    instr.Behaves pool base count depth depth' := by
  obtain ⟨small, rfl⟩ := realized
  have grows : operand.toUInt16 = 0xFFFF ↔ operand = Emission.growableArray := by
    rw [← UInt16.toNat_inj, toNat_toUInt16 small]
    rfl
  refine ⟨rfl, by simp [shortest], ?_, ?_⟩
  · constructor <;> simp [shortest]
  · simp only [stackEffect, shortest, toNat_toUInt16 small, grows]
    have marker : Emission.growableArray = 65535 := rfl
    split <;> omega

theorem Bytecode.Instruction.Behaves.simple {operation : SimpleOp}
    (moves : (Primitive.simple operation).Moves (.frame count) depth depth') :
    (ofSimple operation).Behaves pool base count depth depth' := by
  have read : (ofSimple operation).simple? = some operation := SimpleOp.decode?_encoding operation
  have op : (ofSimple operation).op = .simple := rfl
  refine ⟨?_, by simp [op], ?_, ?_⟩
  · cases operation <;> simp [Primitive.Moves] at moves <;> rfl
  · constructor <;> simp [op]
  · simp only [stackEffect, op, read]
    cases operation <;> simp only [Primitive.Moves] at moves <;> simp only [] <;> omega

/-- A primitive moves the stack as each instruction does that it is turned
into. -/
theorem Primitive.Moves.realized {primitive : Primitive}
    (moves : primitive.Moves (.frame count) depth depth')
    (realized : primitive.Realized layout pool maps instr) :
    depth' ≤ depth + 1 ∧
      (depth < 65536 → instr.Behaves pool layout.base count depth depth') := by
  cases primitive with
  | value literal =>
    simp only [Moves] at moves
    refine ⟨by omega, fun _ => ?_⟩
    subst moves
    simp only [Realized] at realized
    cases immediate : Immediate.ofValue? literal with
    | some operand =>
      simp only [immediate] at realized
      subst realized
      refine ⟨rfl, by simp [shortest], ?_, ?_⟩
      · constructor <;> simp [shortest]
      · simp [stackEffect, shortest]
    | none =>
      simp only [immediate] at realized
      exact .push realized
  | text | path | map | function =>
    subst moves
    exact ⟨Nat.le_refl _, fun _ => .push realized⟩
  | lookup name =>
    simp only [Moves] at moves
    exact ⟨by omega, fun _ => .named realized (.inl ⟨rfl, moves⟩)⟩
  | assign name =>
    simp only [Moves] at moves
    exact ⟨by omega, fun _ => .named realized (.inr ⟨rfl, moves⟩)⟩
  | getVar slot =>
    obtain ⟨held, moved⟩ := moves
    exact ⟨by omega, fun _ => .slot realized held (.inl ⟨.inl rfl, moved⟩)⟩
  | setVar slot =>
    obtain ⟨held, moved⟩ := moves
    exact ⟨by omega, fun _ => .slot realized held (.inr ⟨rfl, moved⟩)⟩
  | incrVar slot =>
    obtain ⟨held, moved⟩ := moves
    exact ⟨by omega, fun _ => .slot realized held (.inl ⟨.inr rfl, moved⟩)⟩
  | op opcode operand =>
    cases opcode with
    | freqFunc =>
      obtain ⟨function, found, moved⟩ := moves
      exact ⟨by omega, fun _ => .function realized found moved⟩
    | makeArray =>
      simp only [Moves] at moves
      exact ⟨by omega, fun shallow => .makeArray realized shallow (.inl moves)⟩
    | setPath =>
      simp only [Moves] at moves
      exact ⟨by omega, fun _ => .setPath realized moves⟩
    | call | invoke | resend | resendIfDefined =>
      simp only [Moves] at moves
      exact ⟨by omega, fun _ => .counted realized (.inl ⟨by simp, moves⟩)⟩
    | send | sendIfDefined =>
      simp only [Moves] at moves
      exact ⟨by omega, fun _ => .counted realized (.inr (.inl ⟨by simp, moves⟩))⟩
    | getPath =>
      simp only [Moves] at moves
      exact ⟨by omega, fun _ => .counted realized (.inr (.inr ⟨rfl, moves⟩))⟩
    | _ => cases moves
  | simple operation =>
    subst realized
    refine ⟨?_, fun _ => .simple moves⟩
    cases operation <;> simp only [Moves] at moves <;> omega

/-- Structured code flows in the same way when its items are turned into
instructions. -/
theorem Flow.realized {leaves : Mark → Prop} {finishes : Nat → Prop} {distinct : Prop}
    (unique : distinct → ∀ first second, Value.map first ∈ pool → second ∈ maps →
      first.id = second.id → first = second)
    {loop before after : Bytecode.Level} {code : Fragment Primitive} {code' : Fragment Instruction}
    (flow : code.Flow (Primitive.rules (.frame count) leaves finishes) loop before after)
    (related : code.Rel (Primitive.Realized layout pool maps) code') :
    code'.Flow (rules pool layout.base count distinct leaves finishes) loop before
      after := by
  refine Fragment.Flow.transfer ?_ ?_ ?_ ?_ ?_ flow related
  · intro primitive instr depth depth' realized moves
    exact moves.realized realized
  · rintro first first' second second' depth depth' realized realized' ⟨names, rfl, rfl, moved⟩
    obtain ⟨index, value, there, ⟨shape, shared, slots, same⟩, small, rfl⟩ := realized
    obtain ⟨small', rfl⟩ := realized'
    refine ⟨by omega, rfl, ?_, rfl, fun holds => ?_⟩
    · simp only [stackEffect, shortest, toNat_toUInt16 small']
      omega
    · obtain ⟨stored, rfl⟩ : ∃ stored, value = .map stored := by
        cases value with
        | map stored => exact ⟨stored, rfl⟩
        | _ => simp [Value.sameLiteral] at same
      have equal : stored = shape := by
        apply unique holds stored shape (List.mem_of_getElem? there) shared
        simpa [Value.sameLiteral] using same
      refine ⟨stored, ?_, ?_⟩
      · simpa [shortest, toNat_toUInt16 small] using there
      · simp only [shortest, toNat_toUInt16 small', equal]
        exact Symbol.length_eq_of_beq slots
  · rintro _ _ _ _ depth depth' realized realized' ⟨rfl, slot, rfl, held, -, rfl⟩
    exact ⟨depth' + 1, ⟨by omega, fun shallow => .makeArray realized shallow (.inr ⟨rfl, rfl⟩)⟩,
      by omega, fun _ => .slot realized' held (.inr ⟨rfl, rfl⟩)⟩
  · exact fun _ known => known
  · exact fun _ known => known

end

end NewtonScript
