import Mathlib.Data.List.ReduceOption
import NewtonScript.Proofs.Flow.Items
import NewtonScript.Proofs.Flow.Soundness

/-!
# Rows of items

A fragment is laid out as a row: its items, and between them what its own
structure adds.  The row tells which items stand directly behind one another,
and how long the code is at least.  Where code flows, each entry of its row has
one cell, and the stack is never deeper than the row is long.
-/

namespace NewtonScript

variable {access : Access}

namespace Bytecode

/-- Whether an operation is one of those that structured code adds to its
items. -/
def Opcode.isStructure : Opcode → Bool
  | .branch | .branchIfTrue | .branchIfFalse | .branchIfLoopNotDone | .newHandlers
  | .pushConstant | .simple => true
  | _ => false

theorem Opcode.isStructure_of_taken? {op : Opcode} {count : Nat}
    (takes : op.taken? = some count) : op.isStructure = true := by
  cases op <;> first | rfl | cases takes

/-- Something is known of an item, alone or together with one beside it. -/
def Rules.Allows {α : Type} (rules : Rules α) (item : α) : Prop :=
  ∃ depth depth', rules.Moves item depth depth' ∨
    ∃ other, rules.Follows other item depth depth' ∨ rules.Couples item other depth depth' ∨
      rules.Couples other item depth depth'

namespace Fragment

variable {α : Type} {rules : Rules α} {R : α → Instruction → Prop}

/-- The entries for a table of handlers: names and addresses. -/
def tableRow (names : List α) : List (Option α) :=
  names.flatMap fun name => [some name, none]

/-- The items of a fragment and, in their places, what is added to them. -/
def row : Fragment α → List (Option α)
  | empty => []
  | plain item => [some item]
  | leave _ | finish _ => [none]
  | append first second => first.row ++ second.row
  | skip _ body => none :: body.row
  | fork _ yes no => none :: (yes.row ++ none :: no.row)
  | back _ body => body.row ++ [none]
  | guarded test body => test.row ++ none :: (body.row ++ [none])
  | entered _ body test => none :: (body.row ++ (test.row ++ [none]))
  | scope body => body.row
  | joined first rest => first.row ++ none :: rest.row
  | handled names body handlers =>
    tableRow names ++ none :: (body.row ++ none :: none :: (handlers.row ++ [none]))

/-- A cell holds the instruction for an item, or one that was added. -/
def Fills (rules : Rules α) (R : α → Instruction → Prop) : Option α → Cell → Prop
  | some item, cell => rules.Allows item ∧ ∃ instr, cell = .plain instr ∧ R item instr
  | none, cell => cell.instr.op.isStructure = true

theorem fills_plain {item : α} {instr : Instruction} (allows : rules.Allows item)
    (related : R item instr) : Fills rules R (some item) (.plain instr) :=
  ⟨allows, instr, rfl, related⟩

theorem Fills.close {entry : Option α} {cell : Cell} (fills : Fills rules R entry cell)
    (bounds : LoopBounds) : Fills rules R entry (cell.close bounds) := by
  cases entry with
  | some item =>
    obtain ⟨allows, instr, rfl, related⟩ := fills
    exact fills_plain allows related
  | none => rcases cell with _ | _ | ⟨mark, _ | bounds⟩ | _ <;> exact fills

theorem fills_tableCells {names : List α} {names' : List Instruction} {addresses : List Nat}
    (pushes : ∀ name ∈ names, rules.Allows name) (table : List.Forall₂ R names names')
    (length : addresses.length = names'.length) :
    List.Forall₂ (Fills rules R) (tableRow names) (tableCells names' addresses) := by
  induction table generalizing addresses with
  | nil => exact .nil
  | cons head _ ih =>
    obtain ⟨address, rest, rfl⟩ := List.exists_cons_of_length_eq_add_one length
    obtain ⟨first, others⟩ := List.forall_mem_cons.mp pushes
    exact .cons (fills_plain first head) (.cons rfl (ih others (Nat.succ.inj length)))

/-- Where code flows, the cells of code that is related to it fill its row. -/
theorem Flow.fills {loop before after : Level} {code : Fragment α} {code' : Fragment Instruction}
    (flow : code.Flow rules loop before after) (related : code.Rel R code') (start : Nat) :
    List.Forall₂ (Fills rules R) code.row (code'.cells start) := by
  induction flow generalizing code' start with
  | empty => cases related with | empty => exact .nil
  | plain _ _ moves =>
    cases related with | plain same => exact .cons (fills_plain ⟨_, _, .inl moves⟩ same) .nil
  | pair _ _ moves follows =>
    cases related with | append left right =>
    cases left with | plain first =>
    cases right with | plain second =>
    exact .cons (fills_plain ⟨_, _, .inl moves⟩ first)
      (.cons (fills_plain ⟨_, _, .inr ⟨_, .inl follows⟩⟩ second) .nil)
  | couple couples _ ih =>
    cases related with | append left right =>
    cases left with | plain first =>
    cases right with | append left rest =>
    cases left with | plain second =>
    exact .cons (fills_plain ⟨_, _, .inr ⟨_, .inr (.inl couples)⟩⟩ first)
      (.cons (fills_plain ⟨_, _, .inr ⟨_, .inr (.inr couples)⟩⟩ second) (ih rest _))
  | append _ _ ofFirst ofSecond =>
    cases related with | append left right =>
    exact List.rel_append (ofFirst left _) (ofSecond right _)
  | leave | finish =>
    cases related
    exact .cons rfl .nil
  | skip takes _ ih =>
    cases related with | skip inner =>
    exact .cons (Opcode.isStructure_of_taken? takes) (ih inner _)
  | fork takes _ _ ofYes ofNo =>
    cases related with | fork left right =>
    exact .cons (Opcode.isStructure_of_taken? takes)
      (List.rel_append (ofYes left _) (.cons rfl (ofNo right _)))
  | endless _ _ ih =>
    cases related with | back inner => exact List.rel_append (ih inner _) (.cons rfl .nil)
  | back takes _ ih =>
    cases related with | back inner =>
    exact List.rel_append (ih inner _) (.cons (Opcode.isStructure_of_taken? takes) .nil)
  | guarded _ _ ofTest ofBody =>
    cases related with | guarded left right =>
    exact List.rel_append (ofTest left _) (.cons rfl (List.rel_append (ofBody right _)
      (.cons rfl .nil)))
  | entered takes _ _ _ ofBody ofTest =>
    cases related with | entered left right =>
    exact .cons rfl (List.rel_append (ofBody left _) (List.rel_append (ofTest right _)
      (.cons (Opcode.isStructure_of_taken? takes) .nil)))
  | scope _ _ ih =>
    cases related with | scope inner =>
    exact List.forall₂_map_right_iff.mpr ((ih inner start).imp fun _ _ fills => fills.close _)
  | joined _ _ ofFirst ofRest =>
    cases related with | joined left right =>
    exact List.rel_append (ofFirst left _) (.cons rfl (ofRest right _))
  | handled pushes splits _ _ ofBody ofHandlers =>
    cases related with | handled table left right =>
    refine List.rel_append (fills_tableCells (fun name member => ⟨0, 1, .inl (pushes name member 0)⟩)
      table (length_entries (table.length_eq ▸ right.splits splits) _)) (.cons rfl ?_)
    exact List.rel_append (ofBody left _) (.cons rfl (.cons rfl
      (List.rel_append (ofHandlers right _) (.cons rfl .nil))))
  | unhandled _ ih =>
    cases related with | handled table left right =>
    cases table
    cases right
    exact .cons rfl (List.rel_append (ih left _) (.cons rfl (.cons rfl (.cons rfl .nil))))

end Fragment

end Bytecode

open Bytecode

/-! ## Arrays that grow -/

/-- The entry that makes an array which grows. -/
abbrev growing : Option Primitive :=
  some (.op .makeArray Emission.growableArray)

/-- In a row, arrays that grow are put into variables at once. -/
inductive Tidy (gathers : Nat → Prop) : List (Option Primitive) → Prop where
  | nil : Tidy gathers []
  | cons {entry : Option Primitive} {rest : List (Option Primitive)} (other : entry ≠ growing)
      (behind : Tidy gathers rest) : Tidy gathers (entry :: rest)
  | gathered {slot : Nat} {rest : List (Option Primitive)} (known : gathers slot)
      (behind : Tidy gathers rest) : Tidy gathers (growing :: some (.setVar slot) :: rest)

variable {gathers : Nat → Prop} {first second : List (Option Primitive)}

theorem Tidy.append (left : Tidy gathers first) (right : Tidy gathers second) :
    Tidy gathers (first ++ second) := by
  induction left with
  | nil => exact right
  | cons other _ ih => exact .cons other ih
  | gathered known _ ih => exact .gathered known ih

theorem Tidy.of_append (tidy : Tidy gathers (first ++ second)) : Tidy gathers second := by
  induction first with
  | nil => exact tidy
  | cons entry rest ih =>
    refine ih ?_
    rw [List.cons_append] at tidy
    generalize rest ++ second = row at tidy ⊢
    cases tidy with
    | cons _ behind => exact behind
    | gathered _ behind => exact .cons (by simp) behind

/-- A row leads from one depth of the stack to another.  The stack is never
deeper than the row is long, so a short row has no array with so many elements
that it would be one that grows. -/
structure Leads (gathers : Nat → Prop) (row : List (Option Primitive)) (depth depth' : Nat) :
    Prop where
  low : depth' ≤ depth + row.length
  tidy : depth + row.length < 65536 → Tidy gathers row

namespace Leads

variable {depth depth' middle start : Nat}

theorem nil : Leads gathers [] depth depth :=
  ⟨Nat.le_refl _, fun _ => .nil⟩

theorem append (left : Leads gathers first depth middle) (right : Leads gathers second middle depth') :
    Leads gathers (first ++ second) depth depth' := by
  have low := left.low
  have low' := right.low
  refine ⟨by rw [List.length_append]; omega, fun small => ?_⟩
  rw [List.length_append] at small
  exact (left.tidy (by omega)).append (right.tidy (by omega))

/-- Rows with something between them that was added.  What stands behind begins
no deeper than the row before it allows. -/
theorem across (left : Leads gathers first depth middle) (right : Leads gathers second start depth')
    (low : start ≤ depth + first.length + 1) :
    Leads gathers (first ++ none :: second) depth depth' := by
  have low' := right.low
  refine ⟨by rw [List.length_append, List.length_cons]; omega, fun small => ?_⟩
  rw [List.length_append, List.length_cons] at small
  exact (left.tidy (by omega)).append (.cons (by simp) (right.tidy (by omega)))

end Leads

theorem Primitive.Moves.le {primitive : Primitive} {depth depth' : Nat}
    (moves : primitive.Moves access depth depth') : depth' ≤ depth + 1 := by
  cases primitive with
  | op opcode operand => cases opcode <;> simp only [Moves] at moves <;> grind
  | simple operation => cases operation <;> simp only [Moves] at moves <;> omega
  | _ =>
    simp only [Moves] at moves
    omega

theorem Primitive.Moves.leads {primitive : Primitive} {depth depth' : Nat}
    (moves : primitive.Moves access depth depth') :
    Leads gathers [some primitive] depth depth' := by
  refine ⟨moves.le, fun small => .cons ?_ .nil⟩
  rintro ⟨⟩
  have marker : Emission.growableArray = 65535 := rfl
  simp only [Moves, List.length_singleton] at moves small
  omega

theorem leads_tableRow {names : List Primitive} {depth : Nat}
    (pushes : ∀ name ∈ names, ∀ depth, name.Moves access depth (depth + 1)) :
    Leads gathers (Fragment.tableRow names) depth (depth + 2 * names.length) := by
  induction names generalizing depth with
  | nil => exact .nil
  | cons name names ih =>
    obtain ⟨first, others⟩ := List.forall_mem_cons.mp pushes
    have sum : depth + 2 * (names.length + 1) = depth + 2 + 2 * names.length := by omega
    rw [List.length_cons, sum]
    exact (first depth).leads.across (ih others) (Nat.le_refl _)

/-- The row of code that flows. -/
theorem Bytecode.Fragment.Flow.leads {leaves : Mark → Prop} {finishes : Nat → Prop}
    {loop before after : Level} {code : Fragment Primitive}
    (flow : code.Flow (Primitive.rules access leaves finishes) loop before after) :
    Leads access.Gathers code.row before.depth after.depth := by
  induction flow with
  | empty => exact .nil
  | plain _ _ moves => exact moves.leads
  | pair _ _ moves follows =>
    refine (Primitive.Moves.leads moves).append ?_
    obtain ⟨names, rfl, rfl, moved⟩ := follows
    exact ⟨by simp [Fragment.row]; omega, fun _ => .cons (by simp) .nil⟩
  | couple couples _ ih =>
    obtain ⟨rfl, slot, rfl, -, known, rfl⟩ := couples
    obtain ⟨low, tidy⟩ := ih
    dsimp only at low tidy
    constructor
    · simp only [Fragment.row, List.length_append, List.length_singleton]
      omega
    · intro small
      simp only [Fragment.row, List.length_append, List.length_singleton] at small
      exact .gathered known (tidy (by omega))
  | append _ _ left right => exact left.append right
  | leave _ _ low => exact Leads.nil.across .nil (by simp [Mark.levelAbove]; omega)
  | finish _ _ _ low => exact Leads.nil.across .nil (by simp; omega)
  | skip _ _ ih => exact Leads.nil.across ih (by simp; omega)
  | fork _ _ _ left right =>
    exact Leads.nil.across (left.across right (by simp; omega)) (by simp; omega)
  | endless _ low ih => exact ih.across .nil (by simp; omega)
  | back _ _ ih => exact ih.across .nil (by simp; omega)
  | guarded _ _ left right =>
    have low := left.low
    dsimp only at low
    exact left.across (right.across .nil (by simp; omega)) (by simp; omega)
  | entered _ _ _ low left right =>
    exact Leads.nil.across (left.append (right.across .nil (by simp; omega))) (by simp; omega)
  | scope _ _ ih => exact ih
  | joined _ _ left right => exact left.across right (by omega)
  | @handled _ names depth depth' _ body alternatives pushes _ _ _ left right =>
    have low : depth' ≤ depth + alternatives.row.length := right.low
    have behind : Leads access.Gathers (none :: (alternatives.row ++ [none])) depth depth' :=
      Leads.nil.across (right.across .nil (Nat.le_succ_of_le low)) (Nat.le_succ _)
    exact (leads_tableRow pushes).across (left.across behind (by simp; omega)) (by simp; omega)
  | @unhandled _ depth depth' _ body _ ih =>
    have low : depth' ≤ depth + body.row.length := ih.low
    have behind : Leads access.Gathers [none, none] depth' depth' :=
      Leads.nil.across (Leads.nil.across .nil (Nat.le_succ _)) (Nat.le_succ _)
    exact Leads.nil.across (ih.across behind (Nat.le_succ_of_le low)) (Nat.le_succ _)

end NewtonScript
