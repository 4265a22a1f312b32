import NewtonScript.Proofs.Code.Decode
import NewtonScript.Proofs.Code.Immediate
import NewtonScript.Proofs.Machine.Step

/-!
# Runs of structured code

How structured code runs that ends by itself, without positions: a branch
chooses between parts, and a loop repeats its parts.  When such code is laid
out, the machine goes from its first position to the one behind it in the same
way.  An item of the code, run over the values and variables that it names, and
the instruction it is turned into do the same.
-/

namespace NewtonScript

open Bytecode

namespace Bytecode.Fragment

/-- The runs of structured code over data, given what single items and
branches do. -/
inductive Runs {α S : Type} (item : α → S → Option S) (choose : Opcode → S → Option (Bool × S)) :
    Fragment α → S → S → Prop where
  | empty {s : S} : Runs item choose .empty s s
  | plain {a : α} {s t : S} (ran : item a s = some t) : Runs item choose (.plain a) s t
  | append {first second : Fragment α} {s t u : S} (left : Runs item choose first s t)
      (right : Runs item choose second t u) : Runs item choose (.append first second) s u
  | skipOver {op : Opcode} {body : Fragment α} {s t : S} (taken : choose op s = some (true, t)) :
      Runs item choose (.skip op body) s t
  | skipInto {op : Opcode} {body : Fragment α} {s t u : S} (passed : choose op s = some (false, t))
      (inner : Runs item choose body t u) : Runs item choose (.skip op body) s u
  | forkYes {op : Opcode} {yes no : Fragment α} {s t u : S}
      (passed : choose op s = some (false, t)) (inner : Runs item choose yes t u)  :
      Runs item choose (.fork op yes no) s u
  | forkNo {op : Opcode} {yes no : Fragment α} {s t u : S} (taken : choose op s = some (true, t))
      (inner : Runs item choose no t u) : Runs item choose (.fork op yes no) s u
  | backOut {op : Opcode} {body : Fragment α} {s t u : S} (inner : Runs item choose body s t)
      (passed : choose op t = some (false, u)) : Runs item choose (.back op body) s u
  | backAgain {op : Opcode} {body : Fragment α} {s t u v : S} (inner : Runs item choose body s t)
      (taken : choose op t = some (true, u)) (again : Runs item choose (.back op body) u v) :
      Runs item choose (.back op body) s v
  | guardedOut {test body : Fragment α} {s t u : S} (left : Runs item choose test s t)
      (taken : choose .branchIfFalse t = some (true, u)) :
      Runs item choose (.guarded test body) s u
  | guardedAgain {test body : Fragment α} {s t u v w : S} (left : Runs item choose test s t)
      (passed : choose .branchIfFalse t = some (false, u)) (right : Runs item choose body u v)
      (again : Runs item choose (.guarded test body) v w) :
      Runs item choose (.guarded test body) s w
  | scope {body : Fragment α} {s t : S} (inner : Runs item choose body s t) :
      Runs item choose (.scope body) s t

/-- Code of the same structure whose items do the same runs in the same way. -/
theorem Runs.rel {α β S : Type} {item : α → S → Option S} {item' : β → S → Option S}
    {choose : Opcode → S → Option (Bool × S)} {R : α → β → Prop}
    (same : ∀ a b s t, R a b → item a s = some t → item' b s = some t)
    {code : Fragment α} {code' : Fragment β} {s t : S} (runs : Runs item choose code s t)
    (related : Rel R code code') : Runs item' choose code' s t := by
  induction runs generalizing code' with
  | empty =>
    cases related
    exact .empty
  | plain ran =>
    cases related with
    | plain related => exact .plain (same _ _ _ _ related ran)
  | append _ _ left right =>
    cases related with
    | append first second => exact .append (left first) (right second)
  | skipOver taken =>
    cases related
    exact .skipOver taken
  | skipInto passed _ inner =>
    cases related with
    | skip body => exact .skipInto passed (inner body)
  | forkYes passed _ inner =>
    cases related with
    | fork yes no => exact .forkYes passed (inner yes)
  | forkNo taken _ inner =>
    cases related with
    | fork yes no => exact .forkNo taken (inner no)
  | backOut _ passed inner =>
    cases related with
    | back body => exact .backOut (inner body) passed
  | backAgain _ taken _ inner again =>
    cases related with
    | back body => exact .backAgain (inner body) taken (again (.back body))
  | guardedOut _ taken left =>
    cases related with
    | guarded test body => exact .guardedOut (left test) taken
  | guardedAgain _ passed _ _ left right again =>
    cases related with
    | guarded test body =>
      exact .guardedAgain (left test) passed (right body) (again (.guarded test body))
  | scope _ inner =>
    cases related with
    | scope body => exact .scope (inner body)

end Bytecode.Fragment

namespace Machine

variable {offset : Nat} {instr : Instruction}

/-! ## Laid out code -/

/-- The cells of a row stand in some code from a position on; nothing is said
about open breaks. -/
def Embedded (code : List Located) : Nat → List Cell → Prop
  | _, [] => True
  | offset, cell :: rest =>
    (cell.isOpen = false → ⟨offset, cell.instr⟩ ∈ code) ∧
      Embedded code (offset + cell.size) rest

variable {code : List Located}

@[simp]
theorem embedded_append {first second : List Cell} :
    Embedded code offset (first ++ second) ↔
      Embedded code offset first ∧ Embedded code (offset + bytesOf first) second := by
  induction first generalizing offset with
  | nil => simp [Embedded]
  | cons cell rest ih =>
    simp [Embedded, ih, and_assoc, Nat.add_assoc]

@[simp]
theorem embedded_plain {rest : List Cell} :
    Embedded code offset (.plain instr :: rest) ↔
      ⟨offset, instr⟩ ∈ code ∧ Embedded code (offset + instr.size) rest := by
  simp [Embedded, Cell.isOpen, Cell.instr]

theorem Embedded.of_close {loop : LoopBounds} {cells : List Cell}
    (embedded : Embedded code offset (cells.map (.close loop))) : Embedded code offset cells := by
  induction cells generalizing offset with
  | nil => exact trivial
  | cons cell rest ih =>
    obtain ⟨here, there⟩ := embedded
    rw [Cell.size_close] at there
    refine ⟨fun closed => ?_, ih there⟩
    rw [Cell.close_eq_self closed] at here
    exact here closed

theorem embedded_locate (cells : List Cell) (offset : Nat) :
    ∀ before, Embedded (before ++ locate (cells.map Cell.instr) offset) offset cells := by
  induction cells generalizing offset with
  | nil => exact fun _ => trivial
  | cons cell rest ih =>
    intro before
    refine ⟨fun _ => by simp [locate], ?_⟩
    have there := ih (offset + cell.size) (before ++ [⟨offset, cell.instr⟩])
    simpa [locate, Cell.size] using there

/-! ## The machine on laid out code -/

section

variable {V : Type} [DecidableEq V] {interp : Interpretation V} {literals : Nat → Option Value}

/-- A plain cell that branches. -/
theorem step_taken {target : Nat} {data data' : Data V} (member : ⟨offset, instr⟩ ∈ code)
    (taken : branches interp instr.op data = some (true, data'))
    (operand : instr.operand = target.toUInt16) (small : target < 65536) :
    Steps interp literals code ⟨offset, data⟩ ⟨target, data'⟩ := by
  have step : Step interp literals code _ _ := .branch member taken
  simp only [operand, toNat_toUInt16 small] at step
  exact .single step

/-- A plain cell that does not branch. -/
theorem step_passed {data data' : Data V} (member : ⟨offset, instr⟩ ∈ code)
    (passed : branches interp instr.op data = some (false, data')) :
    Steps interp literals code ⟨offset, data⟩ ⟨offset + instr.size, data'⟩ :=
  .single (.pass member passed)

theorem steps_of_runs {fragment : Fragment Instruction} {start : Nat} {data data' : Data V}
    (runs : fragment.Runs (exec interp literals) (branches interp) data data')
    (embedded : Embedded code start (fragment.cells start))
    (small : start + bytesOf (fragment.cells start) < 65536) :
    Steps interp literals code ⟨start, data⟩
      ⟨start + bytesOf (fragment.cells start), data'⟩ := by
  induction runs generalizing start with
  | empty =>
    exact .refl
  | plain ran =>
    simp only [Fragment.cells, embedded_plain] at embedded ⊢
    exact .single (.exec embedded.1 ran)
  | append _ _ left right =>
    simp only [Fragment.cells, embedded_append, bytesOf_append] at embedded small ⊢
    have before := left embedded.1 (by omega)
    have behind := right embedded.2 (by omega)
    rw [← Nat.add_assoc]
    exact before.trans behind
  | @skipOver op body _ _ taken =>
    simp only [Fragment.cells, embedded_plain, bytesOf_cons, Cell.size_plain,
      Instruction.size_wideOf] at embedded small ⊢
    rw [← Nat.add_assoc]
    exact step_taken embedded.1 taken rfl (by omega)
  | @skipInto op body _ _ _ passed _ inner =>
    simp only [Fragment.cells, embedded_plain, bytesOf_cons, Cell.size_plain,
      Instruction.size_wideOf] at embedded small ⊢
    have rest := inner embedded.2 (by omega)
    rw [← Nat.add_assoc]
    exact (step_passed embedded.1 passed).trans rest
  | @forkYes op yes no _ _ _ passed _ inner =>
    simp only [Fragment.cells, embedded_plain, embedded_append, bytesOf_cons, bytesOf_append,
      Cell.size_plain, Instruction.size_wideOf] at embedded small ⊢
    obtain ⟨choice, part, leave, -⟩ := embedded
    have first := inner part (by omega)
    simp only [← Nat.add_assoc] at leave small ⊢
    exact (step_passed choice passed).trans (first.trans (step_taken leave rfl rfl (by omega)))
  | @forkNo op yes no _ _ _ taken _ inner =>
    simp only [Fragment.cells, embedded_plain, embedded_append, bytesOf_cons, bytesOf_append,
      Cell.size_plain, Instruction.size_wideOf] at embedded small ⊢
    obtain ⟨choice, -, -, part⟩ := embedded
    simp only [← Nat.add_assoc] at part small ⊢
    exact (step_taken choice taken rfl (by omega)).trans (inner part (by omega))
  | backOut _ passed inner =>
    simp only [Fragment.cells, embedded_plain, embedded_append, bytesOf_cons, bytesOf_append,
      bytesOf_nil, Cell.size_plain] at embedded small ⊢
    have body := inner embedded.1 (by omega)
    rw [← Nat.add_assoc]
    exact body.trans (step_passed embedded.2.1 passed)
  | @backAgain op body _ _ _ _ _ taken _ inner again =>
    have rest := again embedded small
    simp only [Fragment.cells, embedded_plain, embedded_append, bytesOf_cons, bytesOf_append,
      bytesOf_nil, Cell.size_plain] at embedded small
    have first := inner embedded.1 (by omega)
    exact first.trans ((step_taken embedded.2.1 taken rfl (by omega)).trans rest)
  | @guardedOut test body _ _ _ _ taken left =>
    simp only [Fragment.cells, embedded_plain, embedded_append, bytesOf_cons, bytesOf_append,
      bytesOf_nil, Cell.size_plain, Instruction.size_wideOf] at embedded small ⊢
    have first := left embedded.1 (by omega)
    simp only [← Nat.add_assoc, Nat.add_zero] at small ⊢
    exact first.trans (step_taken embedded.2.1 taken rfl (by omega))
  | @guardedAgain test body _ _ _ _ _ _ passed _ _ left right again =>
    have rest := again embedded small
    simp only [Fragment.cells, embedded_plain, embedded_append, bytesOf_cons, bytesOf_append,
      bytesOf_nil, Cell.size_plain, Instruction.size_wideOf] at embedded small
    have first := left embedded.1 (by omega)
    have second := right embedded.2.2.1 (by omega)
    exact first.trans ((step_passed embedded.2.1 passed).trans (second.trans
      ((step_taken embedded.2.2.2.1 rfl rfl (by omega)).trans rest)))
  | scope _ inner =>
    simp only [Fragment.cells, bytesOf_map_close] at embedded small ⊢
    exact inner embedded.of_close small

end

/-! ## Items -/

section

variable {V : Type}

/-- Carry out an item of structured code over the variables of a function. -/
def execItem (interp : Interpretation V) (layout : FrameLayout) (primitive : Primitive)
    (data : Data V) : Option (Data V) :=
  match primitive with
  | .value literal => some (data.push (interp.literal literal))
  | .getVar slot => some (data.push (data.memory (layout.varIndex slot)))
  | .setVar slot => data.assign (layout.varIndex slot)
  | .op .freqFunc index =>
    (Frequent.ofIndex? index).bind fun function => data.call interp function
  | .simple op => data.simple op
  | _ => none

@[simp]
theorem simple?_ofSimple (op : SimpleOp) : (Instruction.ofSimple op).simple? = some op := by
  simp [Instruction.simple?, Instruction.ofSimple]

theorem exec_of_realized {interp : Interpretation V} {layout : FrameLayout}
    {pool : List Value} {maps : List FrameMap} {primitive : Primitive} {instr : Instruction}
    {data data' : Data V} (realized : primitive.Realized layout pool maps instr)
    (ran : execItem interp layout primitive data = some data') :
    exec interp (fun index => pool[index]?) instr data = some data' := by
  cases primitive with
  | value literal =>
    simp only [Primitive.Realized] at realized
    cases immediate : Immediate.ofValue? literal with
    | some operand =>
      simp only [immediate] at realized
      rw [realized]
      simp only [exec, Instruction.shortest, Immediate.toValue_of_ofValue? immediate]
      exact ran
    | none =>
      simp only [immediate] at realized
      obtain ⟨index, known, found, same, small, rfl⟩ := realized
      simp only [exec, Instruction.shortest, toNat_toUInt16 small, found, Option.map_some,
        interp.literal_eq same]
      exact ran
  | getVar slot =>
    obtain ⟨small, rfl⟩ := realized
    simp only [exec, Instruction.shortest, toNat_toUInt16 small]
    exact ran
  | setVar slot =>
    obtain ⟨small, rfl⟩ := realized
    simp only [exec, Instruction.shortest, toNat_toUInt16 small]
    exact ran
  | op opcode operand =>
    obtain ⟨small, rfl⟩ := realized
    cases opcode <;> simp only [execItem, reduceCtorEq] at ran
    simpa only [exec, Instruction.shortest, toNat_toUInt16 small] using ran
  | simple op =>
    rw [realized]
    have opcode : (Instruction.ofSimple op).op = .simple := rfl
    simp only [exec, opcode, simple?_ofSimple]
    exact ran
  | text | path | map | function | lookup | assign | incrVar =>
    simp only [execItem, reduceCtorEq] at ran

end

end Machine

end NewtonScript
