import NewtonScript.Proofs.Flow.Labelling

/-!
# Code with a flow can be labelled

One lemma for each way to build a fragment puts the rows of its parts together;
the branches between the parts are told their targets by the finished row.  The
levels of the whole then come by induction over the flow.
-/

namespace NewtonScript.Bytecode

open Instruction

variable {addresses : List Nat} {names : List Instruction} {code : Fragment Instruction}
  {rules : Rules Instruction} {loop before middle after : Level} {levels : Nat → Option Level}
  {start count depth depth' handlers : Nat} {op : Opcode} {cells firstCells secondCells : List Cell}
  {row first second : Row}

/-- Levels that hold without looking around. -/
abbrev Closed (rules : Rules Instruction) (loop : Level) (start : Nat) (cells : List Cell)
    (before after : Level) (row : Row) : Prop :=
  Labels rules loop (fun _ => True) start cells before after row

namespace Closed

variable {target : UInt16}

/-- Levels that hold anyway hold under an assumption. -/
theorem weaken {given : (Nat → Option Level) → Prop}
    (labels : Closed rules loop start cells before after row) :
    Labels rules loop given start cells before after row :=
  labels.discharge fun _ _ _ => trivial

theorem skip (takes : op.taken? = some count) (low : depth + count ≤ start)
    (small : start + 3 + bytesOf cells < 65536)
    (inner : Closed rules loop (start + 3) cells ⟨depth, handlers⟩ ⟨depth, handlers⟩ row) :
    ∃ row, Closed rules loop start (.plain (.wideOf op (start + 3 + bytesOf cells)) :: cells)
      ⟨depth + count, handlers⟩ ⟨depth, handlers⟩ row := by
  let branch := wideOf op (start + 3 + bytesOf cells)
  have front : Labels rules loop
      (fun levels => levels (start + 3 + bytesOf cells) = some ⟨depth, handlers⟩) start
      [.plain branch] ⟨depth + count, handlers⟩ ⟨depth, handlers⟩
      [(.plain branch, ⟨depth + count, handlers⟩)] :=
    .choice takes (toNat_toUInt16 small) low
  refine ⟨_, (front.append inner.weaken).discharge fun levels _ placed => ?_⟩
  exact inner.last (front.ends inner placed).2

/-- A branch to the end of what stands behind it, in front of a piece. -/
theorem jumpOver {target : Nat} (equal : target = start + 3 + bytesOf cells)
    (small : target < 65536) (low : after.depth ≤ start) (low' : before.depth ≤ start + 3)
    (inner : Closed rules loop (start + 3) cells before after row) :
    Closed rules loop start (.plain (.wideOf .branch target) :: cells) after after
      ((.plain (.wideOf .branch target), after) :: row) := by
  have front : Labels rules loop (fun levels => levels target = some after) start
      [.plain (.wideOf .branch target)] after before [(.plain (.wideOf .branch target), after)] :=
    .jump rfl (toNat_toUInt16 small) low low'
  refine (front.append inner.weaken).discharge fun levels _ placed => ?_
  rw [equal]
  exact inner.last (front.ends inner placed).2

theorem joined {target : Nat} (equal : target = start + bytesOf firstCells + 3 + bytesOf secondCells)
    (small : target < 65536) (low : before.depth ≤ start)
    (left : Closed rules loop start firstCells before after first)
    (right : Closed rules loop (start + bytesOf firstCells + 3) secondCells before after second) :
    Closed rules loop start (firstCells ++ .plain (.wideOf .branch target) :: secondCells)
      before after (first ++ (.plain (.wideOf .branch target), after) :: second) :=
  left.append (right.jumpOver equal small left.low (by omega))

theorem fork {middle : Nat} (takes : op.taken? = some count) (low : depth + count ≤ start)
    (equal : middle = start + 3 + bytesOf firstCells + 3) 
    (small : middle + bytesOf secondCells < 65536)
    (left : Closed rules loop (start + 3) firstCells ⟨depth, handlers⟩ after first)
    (right : Closed rules loop middle secondCells ⟨depth, handlers⟩ after second) :
    ∃ row, Closed rules loop start (.plain (.wideOf op middle) :: (firstCells ++
      .plain (.wideOf .branch (middle + bytesOf secondCells)) :: secondCells))
      ⟨depth + count, handlers⟩ after row := by
  let branch := wideOf op middle
  have front : Labels rules loop (fun levels => levels middle = some ⟨depth, handlers⟩) start
      [.plain branch] ⟨depth + count, handlers⟩ ⟨depth, handlers⟩
      [(.plain branch, ⟨depth + count, handlers⟩)] :=
    .choice takes (toNat_toUInt16 (by omega)) low
  subst equal
  have behind := left.joined rfl small (by simp; omega) right
  refine ⟨_, (front.append behind.weaken).discharge fun levels _ placed => ?_⟩
  obtain ⟨_, inArms⟩ := front.ends behind placed
  obtain ⟨_, inSecond⟩ := left.ends (right.jumpOver rfl small left.low (by simp; omega)) inArms
  exact right.entry levels inSecond.2

theorem endless (equal : target.toNat = start) (low : depth ≤ before.depth + 1)
    (inner : Closed rules loop start cells before before row) :
    ∃ row, Closed rules loop start (cells ++ [.plain (.shortest .branch target)]) before
      ⟨depth, before.handlers⟩ row := by
  have size := (shortest .branch target).size_pos
  have again : Labels rules loop (fun levels => levels start = some before) (start + bytesOf cells)
      [.plain (.shortest .branch target)] before ⟨depth, before.handlers⟩
      [(.plain (.shortest .branch target), before)] :=
    .jump rfl equal inner.low (by have := inner.low; simp; omega)
  refine ⟨_, (inner.weaken.append again).discharge fun levels _ placed => ?_⟩
  exact inner.entry levels (inner.ends again placed).1

theorem back (takes : op.taken? = some count) (equal : target.toNat = start)
    (inner : Closed rules loop start cells ⟨depth, handlers⟩ ⟨depth + count, handlers⟩ row) :
    ∃ row, Closed rules loop start (cells ++ [.plain (.shortest op target)]) ⟨depth, handlers⟩
      ⟨depth, handlers⟩ row := by
  have again : Labels rules loop (fun levels => levels start = some ⟨depth, handlers⟩)
      (start + bytesOf cells) [.plain (.shortest op target)] ⟨depth + count, handlers⟩
      ⟨depth, handlers⟩ [(.plain (.shortest op target), ⟨depth + count, handlers⟩)] :=
    .choice takes equal inner.low
  refine ⟨_, (inner.weaken.append again).discharge fun levels _ placed => ?_⟩
  exact inner.entry levels (inner.ends again placed).1

theorem guarded (equal : target.toNat = start)
    (small : start + bytesOf firstCells + 3 + bytesOf secondCells +
      (Cell.plain (.shortest .branch target)).size < 65536)
    (left : Closed rules loop start firstCells before ⟨depth + 1, handlers⟩ first)
    (right : Closed rules loop (start + bytesOf firstCells + 3) secondCells ⟨depth, handlers⟩ before
      second) :
    ∃ row, Closed rules loop start (firstCells ++
      .plain (.wideOf .branchIfFalse (start + bytesOf firstCells + 3 + bytesOf secondCells +
        (Cell.plain (.shortest .branch target)).size)) ::
      (secondCells ++ [.plain (.shortest .branch target)])) before ⟨depth, handlers⟩ row := by
  let again := shortest .branch target
  let finish := start + bytesOf firstCells + 3 + bytesOf secondCells + (Cell.plain again).size
  let test := wideOf .branchIfFalse finish
  let given := fun levels : Nat → Option Level =>
    levels start = some before ∧ levels finish = some ⟨depth, handlers⟩
  have low : depth + 1 ≤ start + bytesOf firstCells := left.low
  have choose : Labels rules loop given (start + bytesOf firstCells) [.plain test]
      ⟨depth + 1, handlers⟩ ⟨depth, handlers⟩ [(.plain test, ⟨depth + 1, handlers⟩)] :=
    (Labels.choice rfl (toNat_toUInt16 small) low).discharge fun _ known _ => known.2
  have repeated : Labels rules loop given (start + bytesOf firstCells + 3 + bytesOf secondCells)
      [.plain again] before ⟨depth, handlers⟩ [(.plain again, before)] :=
    (Labels.jump rfl equal right.low (by simp; omega)).discharge fun _ known _ => known.1
  have body := right.weaken.append repeated
  refine ⟨_, (left.weaken.append (choose.append body)).discharge fun levels _ placed => ?_⟩
  obtain ⟨inTest, inRest⟩ := left.ends (choose.append body) placed
  have behind := (choose.append body).last inRest
  refine ⟨left.entry levels inTest, ?_⟩
  rw [← behind]
  congr 1
  simp [finish, again, test]
  omega

theorem entered {middle : Nat} (takes : op.taken? = some count) (equal : target.toNat = start + 3)
    (same : middle = start + 3 + bytesOf firstCells) (small : middle < 65536)
    (low : before.depth ≤ start) (low' : depth ≤ before.depth)
    (left : Closed rules loop (start + 3) firstCells ⟨depth, handlers⟩ before first)
    (right : Closed rules loop middle secondCells before ⟨depth + count, handlers⟩ second) :
    ∃ row, Closed rules loop start (.plain (.wideOf .branch middle) :: (firstCells ++
      (secondCells ++ [.plain (.shortest op target)]))) before ⟨depth, handlers⟩ row := by
  let enter := wideOf .branch middle
  let again := shortest op target
  let given := fun levels : Nat → Option Level =>
    levels middle = some before ∧ levels (start + 3) = some ⟨depth, handlers⟩
  have front : Labels rules loop given start [.plain enter] before ⟨depth, handlers⟩
      [(.plain enter, before)] :=
    (Labels.jump rfl (toNat_toUInt16 small) low (by simp [enter]; omega)).discharge
      fun _ known _ => known.1
  have repeated : Labels rules loop given (middle + bytesOf secondCells) [.plain again]
      ⟨depth + count, handlers⟩ ⟨depth, handlers⟩ [(.plain again, ⟨depth + count, handlers⟩)] :=
    (Labels.choice takes equal right.low).discharge fun _ known _ => known.2
  have test := right.weaken.append repeated
  subst same
  have behind := left.weaken.append test
  refine ⟨_, (front.append behind).discharge fun levels _ placed => ?_⟩
  obtain ⟨_, inRest⟩ := front.ends behind placed
  obtain ⟨_, inTest⟩ := left.ends test inRest
  exact ⟨test.entry levels inTest, behind.entry levels inRest⟩

/-- A loop knows its bounds when it is complete. -/
theorem scope (small : start + bytesOf cells < 65536)
    (inner : Closed rules before start cells before before.pushed row) :
    ∃ row, Closed rules loop start (cells.map (.close ⟨start, start + bytesOf cells⟩)) before
      before.pushed row := by
  refine ⟨row.close ⟨start, start + bytesOf cells⟩, ?_⟩
  constructor
  · rw [Row.cells_close, inner.cells_eq]
  · rw [bytesOf_map_close]
    exact inner.low
  · intro levels placed
    exact inner.entry levels ((placed_close _).mp placed)
  · intro levels _ placed
    have inside := (placed_close _).mp placed
    have fitting := inner.fits levels trivial inside
    exact fitting.close (inner.entry levels inside) (inner.last inside) small

end Closed

/-! ## Tables of handlers -/

theorem length_le_tableSize (names : List Instruction) : names.length ≤ tableSize names := by
  induction names with
  | nil => exact Nat.le_refl _
  | cons name names ih =>
    simp only [tableSize, List.length_cons]
    omega

theorem length_entries (splits : code.Splits count) (start : Nat) :
    (code.entries count start).length = count := by
  induction splits generalizing start with
  | last code => cases code <;> rfl
  | joined _ ih => simp [Fragment.entries, ih]

/-- A table pushes a name and an address for each handler. -/
theorem Closed.table (pushes : ∀ name ∈ names, ∀ depth, rules.Moves name depth (depth + 1))
    (length : addresses.length = names.length) (low : depth ≤ start) :
    ∃ row, Closed rules loop start (tableCells names addresses) ⟨depth, handlers⟩
      ⟨depth + 2 * names.length, handlers⟩ row := by
  induction names generalizing addresses depth start with
  | nil => exact ⟨[], .nil low⟩
  | cons name names ih =>
    obtain ⟨address, rest, rfl⟩ := List.exists_cons_of_length_eq_add_one length
    have size := name.size_pos
    have pushName : Closed rules loop start [.plain name] ⟨depth, handlers⟩ ⟨depth + 1, handlers⟩
        [(.plain name, ⟨depth, handlers⟩)] :=
      .one low (by simp; omega) fun _ _ behind =>
        .plain (pushes name List.mem_cons_self depth) behind
    have pushAddress : Closed rules loop (start + name.size) [.address address]
        ⟨depth + 1, handlers⟩ ⟨depth + 2, handlers⟩ [(.address address, ⟨depth + 1, handlers⟩)] :=
      .one (by simp; omega) (by simp; omega) fun _ _ behind => .address behind
    obtain ⟨row, labels⟩ := ih (fun other member => pushes other (List.mem_cons_of_mem name member))
      (Nat.succ.inj length) (show depth + 2 ≤ start + name.size + 3 by omega)
    have sum : depth + 2 * (names.length + 1) = depth + 2 + 2 * names.length := by omega
    rw [List.length_cons, sum]
    exact ⟨_, pushName.append (pushAddress.append labels)⟩

/-- A table and the instruction that installs it. -/
theorem Labels.install (pushes : ∀ name ∈ names, ∀ depth, rules.Moves name depth (depth + 1))
    (length : addresses.length = names.length) (few : names.length < 65536) (low : depth ≤ start) :
    ∃ row, Labels rules loop
      (fun levels => ∀ address ∈ addresses, levels address = some ⟨depth, handlers + 1⟩) start
      (tableCells names addresses ++ [.plain (installer names.length)]) ⟨depth, handlers⟩
      ⟨depth, handlers + 1⟩ row := by
  obtain ⟨row, table⟩ : ∃ row, Closed rules loop start (tableCells names addresses)
      ⟨depth, handlers⟩ ⟨depth + 2 * names.length, handlers⟩ row :=
    Closed.table pushes length low
  let install := Cell.plain (installer names.length)
  have size : bytesOf row.cells = bytesOf (tableCells names addresses) :=
    congrArg bytesOf table.cells_eq
  have before : ∀ levels, Placed levels start
      (row ++ [(install, ⟨depth + 2 * names.length, handlers⟩)]) ⟨depth, handlers + 1⟩ →
      Placed levels start row ⟨depth + 2 * names.length, handlers⟩ :=
    fun levels placed => placed.left placed.right.1
  refine ⟨row ++ [(install, ⟨depth + 2 * names.length, handlers⟩)], ?_, ?_, ?_, ?_⟩
  · simp [table.cells_eq, install]
  · exact Nat.le_add_right_of_le low
  · intro levels placed
    exact table.entry levels (before levels placed)
  · intro levels entered placed
    have fits : Fits rules loop levels (tableCells names addresses)
        (start + bytesOf row.cells + install.size) install ⟨depth + 2 * names.length, handlers⟩ :=
      .install (List.nil_append _).symm length few placed.right.2 entered
    have deep : depth + 2 * names.length ≤ start + bytesOf row.cells := size ▸ table.low
    rw [fitting_append]
    refine ⟨table.fits levels trivial (before levels placed), ⟨deep, ?_⟩, trivial⟩
    exact table.cells_eq ▸ fits

/-- A body with handlers.  The alternatives begin where the addresses say. -/
theorem Closed.handled {other installed : Nat}
    (pushes : ∀ name ∈ names, ∀ depth, rules.Moves name depth (depth + 1))
    (length : addresses.length = names.length) (low : depth ≤ start)
    (same : installed = start + tableSize names + (installer names.length).size)
    (small : installed + bytesOf firstCells + 6 + bytesOf secondCells + 3 < 65536)
    (low' : other ≤ installed + bytesOf firstCells)
    (left : Closed rules loop installed firstCells ⟨depth, handlers + 1⟩ ⟨depth', handlers + 1⟩
      first) (right : Closed rules loop (installed + bytesOf firstCells + 6) secondCells
      ⟨other, handlers + 1⟩ ⟨depth', handlers + 1⟩ second)
    (entered : ∀ levels, Placed levels (installed + bytesOf firstCells + 6) second
      ⟨depth', handlers + 1⟩ → ∀ address ∈ addresses, levels address = some ⟨depth, handlers + 1⟩) :
    ∃ row, Closed rules loop start (tableCells names addresses ++ .plain (installer names.length) ::
      (firstCells ++ .plain remover ::
        .plain (.wideOf .branch (installed + bytesOf firstCells + 6 + bytesOf secondCells + 3)) ::
          (secondCells ++ [.plain remover]))) ⟨depth, handlers⟩ ⟨depth', handlers⟩ row := by
  have few : names.length < 65536 := by
    have := length_le_tableSize names
    omega
  let finish := installed + bytesOf firstCells + 6 + bytesOf secondCells + 3
  let given := fun levels : Nat → Option Level =>
    (∀ address ∈ addresses, levels address = some ⟨depth, handlers + 1⟩) ∧
      levels finish = some ⟨depth', handlers⟩
  obtain ⟨row, table⟩ : ∃ row, Labels rules loop
      (fun levels => ∀ address ∈ addresses, levels address = some ⟨depth, handlers + 1⟩) start
      (tableCells names addresses ++ [.plain (installer names.length)]) ⟨depth, handlers⟩
      ⟨depth, handlers + 1⟩ row :=
    Labels.install pushes length few low
  have front : Labels rules loop given start _ _ _ row := table.discharge fun _ known _ => known.1
  have begins : start + bytesOf (tableCells names addresses ++ [.plain (installer names.length)]) =
      installed := by
    simp [bytesOf_tableCells length]
    omega
  -- The alternatives, and in front of them the branch that passes them by.
  have last : Labels rules loop given (installed + bytesOf firstCells + 6 + bytesOf secondCells)
      [.plain remover] ⟨depth', handlers + 1⟩ ⟨depth', handlers⟩
      [(.plain remover, ⟨depth', handlers + 1⟩)] :=
    .remove right.low
  have alternatives := right.weaken.append last
  have removed : Labels rules loop given (installed + bytesOf firstCells) [.plain remover]
      ⟨depth', handlers + 1⟩ ⟨depth', handlers⟩ [(.plain remover, ⟨depth', handlers + 1⟩)] :=
    .remove left.low
  have pass : Labels rules loop given (installed + bytesOf firstCells + 3)
      [.plain (.wideOf .branch finish)] ⟨depth', handlers⟩ ⟨other, handlers + 1⟩
      [(.plain (.wideOf .branch finish), ⟨depth', handlers⟩)] :=
    (Labels.jump rfl (toNat_toUInt16 small) removed.low (by simp; omega)).discharge
      fun _ known _ => known.2
  have behind := left.weaken.append (removed.append (pass.append alternatives))
  have whole := front.append (begins.symm ▸ behind)
  rw [List.append_assoc] at whole
  refine ⟨_, whole.discharge fun levels _ placed => ?_⟩
  obtain ⟨_, inBody⟩ := front.ends (begins.symm ▸ behind) placed
  rw [begins] at inBody
  obtain ⟨_, inRemoved⟩ := left.ends (removed.append (pass.append alternatives)) inBody
  obtain ⟨_, inPass⟩ := removed.ends (pass.append alternatives) inRemoved
  obtain ⟨_, inAlternatives⟩ := pass.ends alternatives inPass
  obtain ⟨inSecond, inLast⟩ := right.ends last inAlternatives
  exact ⟨entered levels inSecond, last.last inLast⟩

/-! ## Whole fragments -/

theorem entries_of_ne_joined (other : ∀ first rest, code ≠ .joined first rest) {address : Nat}
    (member : address ∈ code.entries count start) : address = start := by
  cases count with
  | zero => simp [Fragment.entries] at member
  | succ count =>
    cases code with
    | joined first rest => exact absurd rfl (other first rest)
    | _ => simpa [Fragment.entries] using member

/-- A fragment is labelled, and its alternatives begin at its own level. -/
def Labelled (rules : Rules Instruction) (loop : Level) (code : Fragment Instruction)
    (before after : Level) (start : Nat) : Prop :=
  ∃ row, Closed rules loop start (code.cells start) before after row ∧
    ∀ levels, Placed levels start row after →
      ∀ count, ∀ address ∈ code.entries count start, levels address = some before

theorem Labelled.of_closed (other : ∀ first rest, code ≠ .joined first rest)
    (labels : ∃ row, Closed rules loop start (code.cells start) before after row) :
    Labelled rules loop code before after start := by
  obtain ⟨row, labels⟩ := labels
  refine ⟨row, labels, fun levels placed count address member => ?_⟩
  rw [entries_of_ne_joined other member]
  exact labels.entry levels placed

theorem Fragment.Flow.labelled (steady : rules.Steady) (flow : Flow rules loop code before after)
    (low : before.depth ≤ start) (small : start + bytesOf (code.cells start) < 65536) :
    Labelled rules loop code before after start := by
  induction flow generalizing start with
  | empty loop level =>
    exact .of_closed (by simp) ⟨[], .nil low⟩
  | @plain item depth depth' loop handlers moves =>
    have low : depth ≤ start := low
    have size := item.size_pos
    have step := steady.moves _ _ _ moves
    exact .of_closed (by simp) ⟨_, .one low (by simp; omega) fun _ _ behind =>
      .plain moves behind⟩
  | @pair first second depth depth' loop handlers moves follows =>
    have low : depth ≤ start := low
    have size := first.size_pos
    have size' := second.size_pos
    have step := steady.follows _ _ _ _ follows
    refine .of_closed (by simp) ⟨[(.plain first, ⟨depth, handlers⟩),
      (.plain second, ⟨depth + 1, handlers⟩)], rfl, ?_, fun _ placed => placed.1, ?_⟩
    · simp [Fragment.cells]
      omega
    · intro levels _ placed
      refine ⟨⟨low, .plain moves placed.2.1⟩, ⟨?_, ?_⟩, trivial⟩
      · simp
        omega
      · exact .follows rfl follows placed.2.2
  | couple couples => exact absurd couples (steady.couples _ _ _ _)
  | append left right leftHypothesis rightHypothesis =>
    simp only [cells, bytesOf_append] at small
    obtain ⟨first, leftLabels, _⟩ := leftHypothesis low (by omega)
    obtain ⟨second, rightLabels, _⟩ := rightHypothesis leftLabels.low (by omega)
    exact .of_closed (by simp) ⟨_, leftLabels.append rightLabels⟩
  | @leave mark depth loop known low' =>
    have low : loop.depth + 1 + mark.operands ≤ start := low
    exact .of_closed (by simp) ⟨_, .one low (by simp; omega) fun _ _ _ => .unclosed known⟩
  | @finish operands depth loop handlers known low' =>
    have low : operands + 1 ≤ start := low
    exact .of_closed (by simp) ⟨_, .one low (by simp; omega) fun _ _ _ => .finish handlers known⟩
  | @skip loop op count depth handlers body takes _ ih =>
    have low : depth + count ≤ start := low
    simp only [cells, bytesOf_cons, Cell.size_plain, size_wideOf] at small
    obtain ⟨row, labels, _⟩ := ih (show depth ≤ start + 3 by omega) (by omega)
    exact .of_closed (by simp) (labels.skip takes low (by omega))
  | @fork loop after op count depth handlers yes no takes _ _ leftHypothesis rightHypothesis =>
    have low : depth + count ≤ start := low
    simp only [cells, bytesOf_cons, bytesOf_append, Cell.size_plain, size_wideOf]
      at small
    obtain ⟨first, leftLabels, _⟩ := leftHypothesis (show depth ≤ start + 3 by omega) (by omega)
    obtain ⟨second, rightLabels, _⟩ := rightHypothesis
      (show depth ≤ start + 3 + bytesOf (yes.cells (start + 3)) + 3 by omega) (by omega)
    exact .of_closed (by simp) (leftLabels.fork takes low rfl (by omega) rightLabels)
  | endless _ low' ih =>
    simp only [cells, bytesOf_append] at small
    obtain ⟨row, labels, _⟩ := ih low (by omega)
    exact .of_closed (by simp) (labels.endless (toNat_toUInt16 (by omega)) low')
  | back takes _ ih =>
    simp only [cells, bytesOf_append] at small
    obtain ⟨row, labels, _⟩ := ih low (by omega)
    exact .of_closed (by simp) (labels.back takes (toNat_toUInt16 (by omega)))
  | @guarded loop before depth handlers test body _ _ leftHypothesis rightHypothesis =>
    simp only [cells, bytesOf_append, bytesOf_cons, bytesOf_nil, Cell.size_plain,
      size_wideOf] at small
    obtain ⟨first, leftLabels, _⟩ := leftHypothesis low (by omega)
    have deep : depth + 1 ≤ start + bytesOf (test.cells start) := leftLabels.low
    obtain ⟨second, rightLabels, _⟩ := rightHypothesis
      (show depth ≤ start + bytesOf (test.cells start) + 3 by omega) (by omega)
    exact .of_closed (by simp)
      (leftLabels.guarded (toNat_toUInt16 (by omega)) (by rw [Cell.size_plain]; omega) rightLabels)
  | @entered loop before op count depth handlers body test takes _ _ low' leftHypothesis
      rightHypothesis =>
      simp only [cells, bytesOf_append, bytesOf_cons, bytesOf_nil, Cell.size_plain,
        size_wideOf] at small
      obtain ⟨first, leftLabels, _⟩ := leftHypothesis (show depth ≤ start + 3 by omega) (by omega)
      obtain ⟨second, rightLabels, _⟩ := rightHypothesis leftLabels.low (by omega)
      exact .of_closed (by simp)
        (leftLabels.entered takes (toNat_toUInt16 (by omega)) rfl (by omega) low low' rightLabels)
  | scope loop _ ih =>
    simp only [cells, bytesOf_map_close] at small
    obtain ⟨row, labels, _⟩ := ih low small
    exact .of_closed (by simp) (labels.scope small)
  | @joined loop before after first rest _ _ leftHypothesis rightHypothesis =>
    simp only [cells, bytesOf_append, bytesOf_cons, Cell.size_plain, size_wideOf]
      at small
    obtain ⟨firstRow, leftLabels, _⟩ := leftHypothesis low (by omega)
    obtain ⟨secondRow, rightLabels, entered⟩ := rightHypothesis
      (show before.depth ≤ start + bytesOf (first.cells start) + 3 by omega) (by omega)
    have labels := leftLabels.joined rfl (by omega) low rightLabels
    refine ⟨_, labels, fun levels placed count address member => ?_⟩
    have behind := (leftLabels.ends (rightLabels.jumpOver rfl (by omega) leftLabels.low
      (by omega)) placed).2
    rcases count with _ | _ | count
    · simp [entries] at member
    · simp only [entries, List.mem_singleton] at member
      rw [member]
      exact labels.entry levels placed
    · simp only [entries, List.mem_cons] at member
      rcases member with rfl | member
      · exact labels.entry levels placed
      · exact entered levels behind.2 _ _ member
  | @handled loop names depth depth' handlers body alternatives pushes splits _ _ leftHypothesis
      rightHypothesis =>
      have low : depth ≤ start := low
      simp only [cells, bytesOf_append, bytesOf_cons, bytesOf_nil, Cell.size_plain,
        size_wideOf, size_remover, bytesOf_tableCells (length_entries splits _)]
        at small
      obtain ⟨first, leftLabels, _⟩ := leftHypothesis
        (show depth ≤ start + tableSize names + (installer names.length).size by omega) (by omega)
      obtain ⟨second, rightLabels, entered⟩ := rightHypothesis
        (show depth ≤ start + tableSize names + (installer names.length).size +
          bytesOf (body.cells (start + tableSize names + (installer names.length).size)) + 6
          by omega) (by omega)
      exact .of_closed (by simp) (Closed.handled pushes (length_entries splits _) low rfl (by omega)
        (by omega) leftLabels rightLabels fun levels placed => entered levels placed _)
  | @unhandled loop depth depth' handlers body _ ih =>
    have low : depth ≤ start := low
    simp only [cells, bytesOf_append, bytesOf_cons, bytesOf_nil, Cell.size_plain,
      size_wideOf, size_remover, List.length_nil, tableSize] at small
    obtain ⟨row, labels, _⟩ := ih (show depth ≤ start + tableSize [] + (installer 0).size by omega)
      (by simp only [tableSize]; omega)
    have low' : depth' ≤ start + tableSize [] + (installer 0).size +
      bytesOf (body.cells (start + tableSize [] + (installer 0).size)) := labels.low
    refine .of_closed (by simp) (Closed.handled (by simp) rfl low rfl ?_ low' labels (.nil ?_)
      (by simp [entries]))
    · simp only [tableSize, List.length_nil, cells, bytesOf_nil]
      omega
    · exact Nat.le_add_right_of_le low'

end NewtonScript.Bytecode
