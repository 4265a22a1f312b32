import Mathlib.Data.List.Forall2
import NewtonScript.Bytecode.Frequent
import NewtonScript.Proofs.Code.Fragment
import NewtonScript.Scope.FrameLayout
import NewtonScript.Store
import NewtonScript.Value.Identity

/-!
# Instructions before their operands are numbered

The items of a function's structured code name values, variables and functions
instead of numbering them.  A literal pool and a frame layout turn them into
instructions.  A pool that grows keeps every number it has given, so what an
item was turned into stays right.
-/

namespace NewtonScript

open Bytecode

/-- An instruction that names what it works on. -/
inductive Primitive where
  /-- Push a value that is known before the program runs. -/
  | value (value : Value)
  /-- Push a text that is made for this place. -/
  | text (text : String)
  /-- Push a path of several slots. -/
  | path (slots : List Symbol)
  /-- Push the map of a frame with these slots. -/
  | map (slots : List Symbol)
  /-- Push the code block of a function literal. -/
  | function (id : FuncId)
  /-- Look a variable up by its name. -/
  | lookup (name : Symbol)
  /-- Assign to a variable that is looked up by its name. -/
  | assign (name : Symbol)
  | getVar (slot : Nat)
  | setVar (slot : Nat)
  | incrVar (slot : Nat)
  /-- An operation whose operand is a number already. -/
  | op (op : Opcode) (operand : Nat)
  | simple (op : SimpleOp)

/-- Call a frequent function. -/
def Primitive.frequent (function : Frequent) : Primitive :=
  .op .freqFunc function.index

/-! ## Instructions over a literal pool -/

/-- An operation whose operand numbers a literal with a property. -/
def LiteralAt (pool : List Value) (op : Opcode) (property : Value → Prop)
    (instr : Instruction) : Prop :=
  ∃ index value, pool[index]? = some value ∧ property value ∧ index < 65536 ∧
    instr = .shortest op index.toUInt16

/-- An operation whose operand is a given number. -/
def OperandIs (op : Opcode) (operand : Nat) (instr : Instruction) : Prop :=
  operand < 65536 ∧ instr = .shortest op operand.toUInt16

/-- The instruction that a primitive is turned into.  The maps are those that
the store hands out. -/
def Primitive.Realized (layout : FrameLayout) (pool : List Value) (maps : List FrameMap) :
    Primitive → Instruction → Prop
  | .value literal, instr =>
    match Immediate.ofValue? literal with
    | some operand => instr = .shortest .pushConstant operand
    | none => LiteralAt pool .push (fun known => known.sameLiteral literal) instr
  | .text content, instr =>
    LiteralAt pool .push (fun known => ∃ id, known.sameLiteral (.string id content)) instr
  | .path slots, instr =>
    LiteralAt pool .push
      (fun known => ∃ id className, known.sameLiteral (.array id className (slots.map .symbol)))
      instr
  | .map slots, instr =>
    LiteralAt pool .push
      (fun known => ∃ shape ∈ maps, shape.slots == slots ∧ known.sameLiteral (.map shape))
      instr
  | .function _, instr =>
    LiteralAt pool .push (fun known => ∃ id block, known.sameLiteral (.block id block)) instr
  | .lookup name, instr =>
    LiteralAt pool .findVar (fun known => known.sameLiteral (.symbol name)) instr
  | .assign name, instr =>
    LiteralAt pool .findAndSetVar (fun known => known.sameLiteral (.symbol name)) instr
  | .getVar slot, instr => OperandIs .getVar (layout.varIndex slot) instr
  | .setVar slot, instr => OperandIs .setVar (layout.varIndex slot) instr
  | .incrVar slot, instr => OperandIs .incrVar (layout.varIndex slot) instr
  | .op opcode operand, instr => OperandIs opcode operand instr
  | .simple operation, instr => instr = .ofSimple operation

theorem LiteralAt.mono {pool pool' : List Value} {op : Opcode} {property property' : Value → Prop}
    {instr : Instruction} (found : LiteralAt pool op property instr)
    (grown : pool <+: pool') (weaker : ∀ value, property value → property' value) :
    LiteralAt pool' op property' instr := by
  obtain ⟨index, value, at_index, holds, small, rfl⟩ := found
  obtain ⟨added, rfl⟩ := grown
  have inside : index < pool.length := by
    by_contra outside
    rw [List.getElem?_eq_none (by omega)] at at_index
    cases at_index
  refine ⟨index, value, ?_, weaker value holds, small, rfl⟩
  rw [List.getElem?_append_left inside, at_index]

/-- What a primitive was turned into stays right while the pool and the maps
grow. -/
theorem Primitive.Realized.mono {layout : FrameLayout} {pool pool' : List Value}
    {maps maps' : List FrameMap} {primitive : Primitive} {instr : Instruction}
    (realized : primitive.Realized layout pool maps instr)
    (grown : pool <+: pool') (kept : maps ⊆ maps') :
    primitive.Realized layout pool' maps' instr := by
  cases primitive with
  | value literal =>
    simp only [Realized] at realized ⊢
    cases immediate : Immediate.ofValue? literal with
    | some operand => simpa only [immediate] using realized
    | none =>
      rw [immediate] at realized
      exact realized.mono grown fun _ same => same
  | map slots =>
    simp only [Realized] at realized ⊢
    refine realized.mono grown fun known => ?_
    rintro ⟨shape, member, equal, same⟩
    exact ⟨shape, kept member, equal, same⟩
  | text | path | function | lookup | assign =>
    simp only [Realized] at realized ⊢
    exact realized.mono grown fun _ same => same
  | getVar | setVar | incrVar | op | simple => exact realized

/-! ## Fragments item by item -/

namespace Bytecode.Fragment

variable {α β : Type} {R S : α → β → Prop}

/-- Two fragments of one structure whose items are related. -/
inductive Rel (R : α → β → Prop) : Fragment α → Fragment β → Prop where
  | empty : Rel R .empty .empty
  | plain {item : α} {item' : β} (related : R item item') : Rel R (.plain item) (.plain item')
  | append {first second : Fragment α} {first' second' : Fragment β}
      (left : Rel R first first') (right : Rel R second second') :
      Rel R (.append first second) (.append first' second')
  | leave (mark : Mark) : Rel R (.leave mark) (.leave mark)
  | finish (operands : Nat) : Rel R (.finish operands) (.finish operands)
  | skip {op : Opcode} {body : Fragment α} {body' : Fragment β} (inner : Rel R body body') :
      Rel R (.skip op body) (.skip op body')
  | fork {op : Opcode} {yes no : Fragment α} {yes' no' : Fragment β}
      (left : Rel R yes yes') (right : Rel R no no') : Rel R (.fork op yes no) (.fork op yes' no')
  | back {op : Opcode} {body : Fragment α} {body' : Fragment β} (inner : Rel R body body') :
      Rel R (.back op body) (.back op body')
  | guarded {test body : Fragment α} {test' body' : Fragment β}
      (left : Rel R test test') (right : Rel R body body') :
      Rel R (.guarded test body) (.guarded test' body')
  | entered {op : Opcode} {body test : Fragment α} {body' test' : Fragment β}
      (left : Rel R body body') (right : Rel R test test') :
      Rel R (.entered op body test) (.entered op body' test')
  | scope {body : Fragment α} {body' : Fragment β} (inner : Rel R body body') :
      Rel R (.scope body) (.scope body')
  | joined {first rest : Fragment α} {first' rest' : Fragment β}
      (left : Rel R first first') (right : Rel R rest rest') :
      Rel R (.joined first rest) (.joined first' rest')
  | handled {names : List α} {names' : List β} {body handlers : Fragment α}
      {body' handlers' : Fragment β} (table : List.Forall₂ R names names')
      (left : Rel R body body') (right : Rel R handlers handlers') :
      Rel R (.handled names body handlers) (.handled names' body' handlers')

theorem Rel.mono {fragment : Fragment α} {fragment' : Fragment β} (related : Rel R fragment fragment')
    (weaker : ∀ item item', R item item' → S item item') : Rel S fragment fragment' := by
  induction related with
  | empty => exact .empty
  | plain related => exact .plain (weaker _ _ related)
  | append _ _ left right => exact .append left right
  | leave mark => exact .leave mark
  | finish operands => exact .finish operands
  | skip _ inner => exact .skip inner
  | fork _ _ left right => exact .fork left right
  | back _ inner => exact .back inner
  | guarded _ _ left right => exact .guarded left right
  | entered _ _ left right => exact .entered left right
  | scope _ inner => exact .scope inner
  | joined _ _ left right => exact .joined left right
  | handled table _ _ left right => exact .handled (table.imp weaker) left right

end Bytecode.Fragment

end NewtonScript
