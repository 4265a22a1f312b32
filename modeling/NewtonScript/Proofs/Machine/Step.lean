import Mathlib.Logic.Function.Basic
import Mathlib.Logic.Relation
import NewtonScript.Bytecode.Decoder
import NewtonScript.Bytecode.Frequent
import NewtonScript.Bytecode.Immediate
import NewtonScript.Value.Identity

/-!
# The stack machine

The part of the machine that runs code without calls and without objects:
pushing literals, variables, frequent functions and branches.  Values are left
open.  An interpretation says what value a literal stands for and what the
frequent functions do; it may only not tell literals apart that share one
place in a literal pool.
-/

namespace NewtonScript.Machine

open Bytecode

/-- The values of a run. -/
structure Interpretation (V : Type) where
  /-- The value of a literal. -/
  literal : Value → V
  literal_eq : ∀ {first second : Value}, first.sameLiteral second → literal first = literal second
  /-- The frequent functions; arguments come in their order. -/
  apply : Frequent → List V → V

/-- The evaluation stack, its top first, and the memory: the variables by their
numbers. -/
structure Data (V : Type) where
  stack : List V
  memory : Nat → V

variable {V : Type}

namespace Interpretation

/-- The value that counts as false. -/
def nil (interp : Interpretation V) : V :=
  interp.literal .nil

/-- The value of logical operators that are decided by their first operand. -/
def truth (interp : Interpretation V) : V :=
  interp.literal .truth

end Interpretation

namespace Data

/-- Push a value. -/
def push (value : V) (data : Data V) : Data V :=
  { data with stack := value :: data.stack }

/-- Pop a value into a variable. -/
def assign (index : Nat) : Data V → Option (Data V)
  | ⟨value :: rest, memory⟩ => some ⟨rest, Function.update memory index value⟩
  | ⟨[], _⟩ => none

/-- Replace the arguments on top of the stack, the last one first, by the
result of a function. -/
def call (interp : Interpretation V) (function : Frequent) (data : Data V) :
    Option (Data V) :=
  if function.arity ≤ data.stack.length then
    some { data with
      stack := interp.apply function (data.stack.take function.arity).reverse ::
        data.stack.drop function.arity }
  else
    none

/-- Carry out an operation without operand. -/
def simple : SimpleOp → Data V → Option (Data V)
  | .pop, ⟨_ :: rest, memory⟩ => some ⟨rest, memory⟩
  | .dup, ⟨value :: rest, memory⟩ => some ⟨value :: value :: rest, memory⟩
  | _, _ => none

end Data

/-- Carry out an instruction that does not branch, over the literals of its
block.  Instructions outside this part of the machine have no result. -/
def exec (interp : Interpretation V) (literals : Nat → Option Value)
    (instr : Instruction) (data : Data V) : Option (Data V) :=
  let operand := instr.operand.toNat
  match instr.op with
  | .push => (literals operand).map fun value => data.push (interp.literal value)
  | .pushConstant =>
    some (data.push (interp.literal (Immediate.toValue instr.operand)))
  | .getVar => some (data.push (data.memory operand))
  | .setVar => data.assign operand
  | .freqFunc => (Frequent.ofIndex? operand).bind fun function => data.call interp function
  | .simple => instr.simple?.bind fun op => data.simple op
  | _ => none

/-- Whether a branch is taken, and what it pops. -/
def branches [DecidableEq V] (interp : Interpretation V) :
    Opcode → Data V → Option (Bool × Data V)
  | .branch, data => some (true, data)
  | .branchIfTrue, ⟨value :: rest, memory⟩ =>
    some (value ≠ interp.nil, ⟨rest, memory⟩)
  | .branchIfFalse, ⟨value :: rest, memory⟩ =>
    some (value = interp.nil, ⟨rest, memory⟩)
  | _, _ => none

/-- A place in the code, and the data there. -/
structure Config (V : Type) where
  offset : Nat
  data : Data V

/-- One step of the machine over the instructions of a block. -/
inductive Step [DecidableEq V] (interp : Interpretation V) (literals : Nat → Option Value)
    (code : List Located) : Config V → Config V → Prop where
  | exec {located : Located} {data data' : Data V} (member : located ∈ code)
      (ran : exec interp literals located.instruction data = some data') :
      Step interp literals code ⟨located.offset, data⟩
        ⟨located.offset + located.instruction.size, data'⟩
  | branch {located : Located} {data data' : Data V} (member : located ∈ code)
      (decided : branches interp located.instruction.op data = some (true, data')) :
      Step interp literals code ⟨located.offset, data⟩ ⟨located.instruction.operand.toNat, data'⟩
  | pass {located : Located} {data data' : Data V} (member : located ∈ code)
      (decided : branches interp located.instruction.op data = some (false, data')) :
      Step interp literals code ⟨located.offset, data⟩
        ⟨located.offset + located.instruction.size, data'⟩

/-- Steps in a row. -/
abbrev Steps [DecidableEq V] (interp : Interpretation V) (literals : Nat → Option Value)
    (code : List Located) : Config V → Config V → Prop :=
  Relation.ReflTransGen (Step interp literals code)

/-- A run that comes to a return with these data. -/
def Returns [DecidableEq V] (interp : Interpretation V) (literals : Nat → Option Value)
    (code : List Located) (start : Config V) (data : Data V) : Prop :=
  ∃ offset, Steps interp literals code start ⟨offset, data⟩ ∧
    ⟨offset, .ofSimple .ret⟩ ∈ code

end NewtonScript.Machine
