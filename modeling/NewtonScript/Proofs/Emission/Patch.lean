import NewtonScript.Proofs.Emission.Pieces

/-!
# Branches that are completed later

A branch forward is reserved first and gets its operand when its target is
reached.  For every kind of structured code: the steps that reserve, emit the
parts and complete the branches lay that code out.
-/

namespace NewtonScript.Emission

open Bytecode

variable {operand : Nat} {result : Unit} {label : Label} {opcode : Opcode} {cells : List Cell}
  {action action' : EmitM Unit} {body test : Fragment Primitive} {setting : Setting} {ctx : Context}
  {state first middle final : State}

@[simp]
theorem size_reserved (opcode : Opcode) : (Buffer.reserved opcode).size = 3 := rfl

theorem setOperandAt_append {before : List Instruction} {instr : Instruction}
    (operand : Nat) (rest : List Instruction) :
    setOperandAt before.length operand (before ++ instr :: rest) =
      before ++ { instr with operand := operand.toUInt16 } :: rest := by
  induction before with
  | nil => simp [setOperandAt]
  | cons head tail ih => simpa [setOperandAt] using ih

/-! ## Rows that grow -/

namespace Grown

theorem length (grown : Grown setting state final cells) :
    final.code.length = state.code.length + cells.length := by
  simp [grown.code]

/-- An instruction in a row that was added gets its operand. -/
theorem set (before : List Cell) (cell : Cell) {after : List Cell} {instr : Instruction}
    (grown : Grown setting state middle (before ++ .plain instr :: after))
    (place : label.index = state.code.length + before.length)
    (changed : final.code = setOperandAt label.index operand middle.code ∧
      final.size = middle.size ∧ middle.SameBut final)
    (given : cell.instr = { instr with operand := operand.toUInt16 })
    (size : cell.size = instr.size) (closed : cell.isOpen = false)
    (near : ∀ target, cell = .address target → target ≤ maxHandlerAddress) :
    Grown setting state final (before ++ cell :: after) where
  code := by
    have front : label.index = (state.code ++ before.map Cell.instr).length := by simp [place]
    rw [changed.1, grown.code, List.map_append, ← List.append_assoc, front, List.map_cons,
      Cell.instr, setOperandAt_append, ← given]
    simp
  size := by
    rw [changed.2.1, grown.size]
    simp [size]
  loops := by
    have plain : (Cell.plain instr).isOpen = false := rfl
    rw [changed.2.2.loops, grown.loops, openLabels_append, openLabels_append]
    simp [openLabels, size, closed, plain]
  closed := by
    intro none other member
    rcases List.mem_append.mp member with front | member
    · exact grown.closed none other (List.mem_append_left _ front)
    · rcases List.mem_cons.mp member with rfl | behind
      · exact closed
      · exact grown.closed none other (List.mem_append_right _ (.tail _ behind))
  reach := by
    intro target member
    rcases List.mem_append.mp member with front | member
    · exact grown.reach target (List.mem_append_left _ front)
    · rcases List.mem_cons.mp member with same | behind
      · exact near target same.symm
      · exact grown.reach target (List.mem_append_right _ (.tail _ behind))
  keeps := grown.keeps.trans (changed.2.2.keeps setting)
  origins := by
    rw [changed.2.2.pool, changed.2.2.store]
    exact grown.origins

/-- What an action yields stands behind what was there. -/
theorem emit {code : Fragment Primitive} (grown : Grown setting state middle cells)
    (ready : Store.Harmless setting.Known setting.origin state.store)
    (yields : Yields setting ctx action () code) (run : action ctx middle = .ok result final) :
    Keeps setting middle final ∧ ∃ fragment,
      code.Rel (Primitive.Realized ctx.layout final.pool final.store.maps) fragment ∧
        Grown setting state final (cells ++ fragment.cells (state.size + bytesOf cells)) := by
  obtain ⟨-, fragment, related, added⟩ := yields (ready.trans grown.keeps.store) run
  refine ⟨added.keeps, fragment, related, ?_⟩
  rw [← grown.size]
  exact grown.trans added

theorem reserve (grown : Grown setting state middle cells)
    (run : Emission.reserve opcode ctx middle = .ok label final) :
    Keeps setting middle final ∧ label.index = state.code.length + cells.length ∧
      Grown setting state final (cells ++ [.plain (Buffer.reserved opcode)]) := by
  obtain ⟨rfl, code, size, same⟩ := reserve_eq_ok run
  exact ⟨same.keeps setting, grown.length, grown.trans (.of_sameBut
    (by simpa [Cell.instr] using code) (by simpa using size) (by simp [Cell.isOpen])
    (by simp) same)⟩

theorem op (grown : Grown setting state middle cells)
    (run : Emission.op opcode operand ctx middle = .ok result final) :
    Keeps setting middle final ∧
      Grown setting state final (cells ++ [.plain (.shortest opcode operand.toUInt16)]) := by
  obtain ⟨-, code, size, same⟩ := op_eq_ok run
  exact ⟨same.keeps setting, grown.trans (.of_sameBut (by simpa [Cell.instr] using code)
    (by simpa using size) (by simp [Cell.isOpen]) (by simp) same)⟩

/-- A reserved branch leads to the end of the row. -/
theorem patchHere (before : List Cell) {after : List Cell}
    (grown : Grown setting state middle (before ++ .plain (Buffer.reserved opcode) :: after))
    (place : label.index = state.code.length + before.length)
    (run : Emission.patchHere label ctx middle = .ok result final) :
    Keeps setting middle final ∧ Grown setting state final
      (before ++ .plain (.wideOf opcode (state.size + bytesOf before + 3 + bytesOf after)) ::
        after) := by
  obtain ⟨-, changed⟩ := patchHere_eq_ok run
  have ended : middle.size = state.size + bytesOf before + 3 + bytesOf after := by
    rw [grown.size, bytesOf_append, bytesOf_cons, Cell.size_plain, size_reserved]
    omega
  rw [← ended]
  exact ⟨changed.2.2.keeps setting, grown.set before _ place changed rfl rfl rfl (by rintro _ ⟨⟩)⟩

end Grown

/-! ## Branches forward -/

theorem yields_skip (opcode : Opcode) (yields : Yields setting ctx action () body) :
    Yields setting ctx
      (do
        let label ← reserve opcode
        action
        patchHere label)
      () (.skip opcode body) := by
  intro state final result ready run
  obtain ⟨label, first, reserved, run⟩ := bind_eq_ok run
  obtain ⟨_, middle, emitted, patched⟩ := bind_eq_ok run
  obtain ⟨-, place, opened⟩ := (Grown.refl setting state).reserve reserved
  obtain ⟨-, fragment, related, grown⟩ := opened.emit ready yields emitted
  obtain ⟨keeps, closed⟩ := grown.patchHere [] place patched
  exact ⟨rfl, .skip opcode fragment, .skip (keeps.rel related), closed⟩

theorem yields_fork (opcode : Opcode) {yes no : Fragment Primitive}
    (yields : Yields setting ctx action () yes) (yields' : Yields setting ctx action' () no) :
    Yields setting ctx
      (do
        let label ← reserve opcode
        action
        let label' ← reserve .branch
        patchHere label
        action'
        patchHere label')
      () (.fork opcode yes no) := by
  intro state final result ready run
  obtain ⟨label, first, reserved, run⟩ := bind_eq_ok run
  obtain ⟨_, second, emitted, run⟩ := bind_eq_ok run
  obtain ⟨label', third, reserved', run⟩ := bind_eq_ok run
  obtain ⟨_, fourth, patched, run⟩ := bind_eq_ok run
  obtain ⟨_, middle, emitted', patched'⟩ := bind_eq_ok run
  obtain ⟨-, place, opened⟩ := (Grown.refl setting state).reserve reserved
  obtain ⟨-, fragment, related, grown⟩ := opened.emit ready yields emitted
  obtain ⟨keeps, place', opened'⟩ := grown.reserve reserved'
  -- The branch to the second part is completed where the first part ends.
  obtain ⟨keeps₁, closed⟩ := Grown.patchHere [] (by simpa using opened') place patched
  obtain ⟨keeps₂, fragment', related', grown'⟩ := closed.emit ready yields' emitted'
  -- The branch over the second part is completed where that one ends.
  obtain ⟨keeps₃, closed'⟩ := Grown.patchHere (_ :: fragment.cells (state.size + 3))
    (by simpa using grown') (by simpa using place') patched'
  refine ⟨rfl, .fork opcode fragment fragment', .fork ?_ (keeps₃.rel related'), ?_⟩
  · exact (keeps.trans (keeps₁.trans (keeps₂.trans keeps₃))).rel related
  · simpa [Fragment.cells, Nat.add_assoc] using closed'

/-! ## Branches back -/

theorem yields_back (opcode : Opcode) (yields : Yields setting ctx action () body) :
    Yields setting ctx
      (do
        let top ← here
        action
        op opcode top)
      () (.back opcode body) := by
  intro state final result ready run
  obtain ⟨_, _, read, run⟩ := bind_eq_ok run
  obtain ⟨rfl, rfl⟩ := here_eq_ok read
  obtain ⟨_, middle, emitted, branch⟩ := bind_eq_ok run
  obtain ⟨-, fragment, related, grown⟩ := (Grown.refl setting _).emit ready yields emitted
  obtain ⟨keeps, again⟩ := grown.op branch
  exact ⟨rfl, .back opcode fragment, .back (keeps.rel related), again⟩

theorem yields_guarded (yields : Yields setting ctx action () test)
    (yields' : Yields setting ctx action' () body) :
    Yields setting ctx
      (do
        let top ← here
        action
        let exit ← reserve .branchIfFalse
        action'
        op .branch top
        patchHere exit)
      () (.guarded test body) := by
  intro state final result ready run
  obtain ⟨_, _, read, run⟩ := bind_eq_ok run
  obtain ⟨rfl, rfl⟩ := here_eq_ok read
  obtain ⟨_, first, emitted, run⟩ := bind_eq_ok run
  obtain ⟨label, second, reserved, run⟩ := bind_eq_ok run
  obtain ⟨_, third, emitted', run⟩ := bind_eq_ok run
  obtain ⟨_, middle, branch, patched⟩ := bind_eq_ok run
  obtain ⟨-, fragment, related, grown⟩ := (Grown.refl setting _).emit ready yields emitted
  obtain ⟨keeps, place, opened⟩ := grown.reserve reserved
  obtain ⟨keeps₁, fragment', related', grown'⟩ := opened.emit ready yields' emitted'
  obtain ⟨keeps₂, again⟩ := grown'.op branch
  obtain ⟨keeps₃, closed⟩ := Grown.patchHere _ (by simpa using again) place patched
  refine ⟨rfl, .guarded fragment fragment', .guarded ?_ ((keeps₂.trans keeps₃).rel related'), ?_⟩
  · exact (keeps.trans (keeps₁.trans (keeps₂.trans keeps₃))).rel related
  · simpa [Fragment.cells, Nat.add_assoc] using closed

theorem yields_entered (opcode : Opcode) (yields : Yields setting ctx action () body)
    (yields' : Yields setting ctx action' () test) :
    Yields setting ctx
      (do
        let label ← reserve .branch
        let top ← here
        action
        patchHere label
        action'
        op opcode top)
      () (.entered opcode body test) := by
  intro state final result ready run
  obtain ⟨label, first, reserved, run⟩ := bind_eq_ok run
  obtain ⟨_, _, read, run⟩ := bind_eq_ok run
  obtain ⟨rfl, rfl⟩ := here_eq_ok read
  obtain ⟨_, second, emitted, run⟩ := bind_eq_ok run
  obtain ⟨_, third, patched, run⟩ := bind_eq_ok run
  obtain ⟨_, middle, emitted', branch⟩ := bind_eq_ok run
  obtain ⟨-, place, opened⟩ := (Grown.refl setting state).reserve reserved
  obtain ⟨-, fragment, related, grown⟩ := opened.emit ready yields emitted
  obtain ⟨keeps, closed⟩ := grown.patchHere [] place patched
  obtain ⟨keeps₁, fragment', related', grown'⟩ := closed.emit ready yields' emitted'
  rw [opened.size] at branch
  obtain ⟨keeps₂, again⟩ := grown'.op branch
  refine ⟨rfl, .entered opcode fragment fragment', .entered ?_ (keeps₂.rel related'), ?_⟩
  · exact (keeps.trans (keeps₁.trans keeps₂)).rel related
  · simpa [Fragment.cells, Nat.add_assoc] using again

/-! ## Loops -/

/-- Only the open loops differ. -/
theorem openLoop_eq_ok (run : openLoop ctx state = .ok result final) :
    final.code = state.code ∧ final.size = state.size ∧ final.pool = state.pool ∧
      final.store = state.store ∧ final.function.loops = [] :: state.function.loops := by
  cases run
  exact ⟨rfl, rfl, rfl, rfl, rfl⟩

theorem patchBreaks_eq_ok {breaks : List Label} {outer : List (List Label)}
    (loops : state.function.loops = breaks :: outer)
    (run : patchBreaks ctx state = .ok result final) :
    final.code = setOperandsAt state.size breaks.reverse state.code ∧ final.size = state.size ∧
      final.pool = state.pool ∧ final.store = state.store ∧ final.function.loops = outer := by
  obtain ⟨_, _, read, run⟩ := bind_eq_ok run
  cases read
  obtain ⟨_, _, changed, run⟩ := bind_eq_ok run
  cases changed
  obtain ⟨code, size, same⟩ := patchAllHere_eq_ok run
  rw [loops] at code
  have left : final.function.loops = state.function.loops.tail := same.loops
  rw [loops] at left
  exact ⟨code, size, same.pool, same.store, left⟩

/-- Completing the open breaks of a row closes them. -/
theorem setOperandsAt_openLabels (before : List Instruction) (cells : List Cell)
    (position entry exit : Nat) :
    setOperandsAt exit (openLabels cells before.length position) (before ++ cells.map Cell.instr) =
      before ++ (cells.map (Cell.close ⟨entry, exit⟩)).map Cell.instr := by
  induction cells generalizing before position with
  | nil => rfl
  | cons cell rest ih =>
    cases isOpen : cell.isOpen with
    | false =>
      simpa [openLabels, isOpen, Cell.close_eq_self isOpen] using
        ih (before ++ [cell.instr]) (position + cell.size)
    | true =>
      obtain ⟨mark, rfl⟩ := Cell.isOpen_iff.mp isOpen
      have closed := ih (before ++ [Instruction.wideOf .branch exit]) (position + 3)
      simp only [openLabels, isOpen, if_true, setOperandsAt, List.map_cons]
      rw [setOperandAt_append]
      simpa [Cell.close, Cell.instr, Buffer.reserved, Instruction.wideOf] using closed

theorem yields_scope (yields : Yields setting ctx action () body) :
    Yields setting ctx
      (do
        openLoop
        action
        patchBreaks)
      () (.scope body) := by
  intro state final result ready run
  obtain ⟨_, first, opened, run⟩ := bind_eq_ok run
  obtain ⟨_, middle, emitted, patched⟩ := bind_eq_ok run
  obtain ⟨code, size, pool, store, loops⟩ := openLoop_eq_ok opened
  obtain ⟨-, fragment, related, grown⟩ := yields (store ▸ ready) emitted
  have inner := grown.loops
  rw [loops] at inner
  simp only [addBreaks, List.append_nil] at inner
  obtain ⟨code', size', pool', store', loops'⟩ := patchBreaks_eq_ok inner patched
  have keeps : Keeps setting middle final := ⟨pool' ▸ List.prefix_refl _, store' ▸ .refl _ _⟩
  have closed : ∀ cell ∈ (Fragment.scope fragment).cells state.size, cell.isOpen = false := by
    simp [Fragment.cells]
  have ended : middle.size = state.size + bytesOf (fragment.cells state.size) := by
    rw [grown.size, size]
  refine ⟨rfl, .scope fragment, .scope (keeps.rel related), ?_⟩
  exact {
    code := by
      rw [code', List.reverse_reverse, grown.code, code, size,
        setOperandsAt_openLabels state.code _ state.size state.size, ended]
      rw [Fragment.cells]
    size := by
      rw [size', ended]
      simp [Fragment.cells]
    loops := by rw [openLabels_eq_nil closed]; simpa using loops'
    closed := fun _ => closed
    reach := by
      intro target member
      simp only [Fragment.cells, List.mem_map] at member
      obtain ⟨cell, member, equal⟩ := member
      have same : cell = .address target := by
        rcases cell with _ | _ | ⟨mark, _ | bounds⟩ | _ <;> simp_all [Cell.close]
      exact grown.reach target (by rw [size, ← same]; exact member)
    keeps := by
      refine Keeps.trans ⟨?_, ?_⟩ (grown.keeps.trans keeps)
      · exact pool ▸ List.prefix_refl _
      · exact store ▸ .refl _ _
    origins := by
      rw [pool', store', ← pool]
      exact grown.origins }

theorem refuseOutsideLoop_eq_ok {span : Span}
    (run : refuseOutsideLoop span ctx state = .ok result final) :
    state.function.loops ≠ [] ∧ final = state := by
  obtain ⟨_, _, read, run⟩ := bind_eq_ok run
  cases read
  split at run
  · exact absurd run throw_ne_ok
  · rename_i inside
    obtain ⟨-, rfl⟩ := pure_eq_ok_iff.mp run
    exact ⟨by simpa using inside, rfl⟩

theorem breakHere_eq_ok {breaks : List Label} {outer : List (List Label)}
    (loops : state.function.loops = breaks :: outer)
    (run : breakHere ctx state = .ok result final) :
    final.code = state.code ++ [Buffer.reserved .branch] ∧ final.size = state.size + 3 ∧
      final.pool = state.pool ∧ final.store = state.store ∧
      final.function.loops = (⟨state.code.length, state.size⟩ :: breaks) :: outer := by
  obtain ⟨label, middle, reserved, run⟩ := bind_eq_ok run
  obtain ⟨rfl, code, size, same⟩ := reserve_eq_ok reserved
  have loops' := same.loops.trans loops
  cases run
  simp only [State.code, State.size, State.pool, loops'] at code size ⊢
  exact ⟨code, size, same.pool, same.store, trivial⟩

theorem yields_leave {code : Fragment Primitive} (yields : Yields setting ctx action () code)
    (span : Span) (mark : Mark) :
    Yields setting ctx
      (do
        refuseOutsideLoop span
        action
        breakHere)
      () (code ++ .leave mark) := by
  intro state final result ready run
  obtain ⟨_, first, refused, run⟩ := bind_eq_ok run
  obtain ⟨inLoop, same⟩ := refuseOutsideLoop_eq_ok refused
  rw [same] at run
  obtain ⟨_, middle, emitted, left⟩ := bind_eq_ok run
  obtain ⟨-, grows⟩ := yields ready emitted
  have inside : middle.function.loops ≠ [] := by
    obtain ⟨fragment, -, grown⟩ := grows
    rw [grown.loops]
    simpa [addBreaks_eq_nil_iff] using inLoop
  obtain ⟨breaks, outer, loops⟩ := List.exists_cons_of_ne_nil inside
  obtain ⟨code, size, pool, store, loops'⟩ := breakHere_eq_ok loops left
  refine ⟨rfl, grows.append ⟨.leave mark, .leave mark, ?_⟩⟩
  simp only [Fragment.cells]
  exact {
    code := by simpa [Cell.instr] using code
    size := by simpa using size
    loops := by simp [loops', loops, openLabels, Cell.isOpen, addBreaks]
    closed := fun none => absurd none inside
    reach := by simp
    keeps := ⟨pool ▸ List.prefix_refl _, store ▸ .refl _ _⟩
    origins := by rw [pool]; exact fun _ member => .inl member }

end NewtonScript.Emission
