import NewtonScript.Proofs.Flow.Judgement

/-!
# Levels of laid out code

Code with a flow can be labelled: every cell gets the level in front of it, so
that each cell leads to cells whose labels fit.  Where a branch leads is only
known when the code around it is labelled too.  So the labels of a piece are
chosen first, and then judged against any assignment of levels to positions
that places the piece.
-/

namespace NewtonScript.Bytecode

/-- Cells with the levels in front of them. -/
abbrev Row := List (Cell × Level)

/-- The cells of a row. -/
def Row.cells (row : Row) : List Cell :=
  row.map Prod.fst

@[simp]
theorem Row.cells_nil : Row.cells [] = [] := rfl

@[simp]
theorem Row.cells_cons (cell : Cell) (level : Level) (rest : Row) :
    Row.cells ((cell, level) :: rest) = cell :: Row.cells rest := rfl

@[simp]
theorem Row.cells_append (first second : Row) :
    Row.cells (first ++ second) = first.cells ++ second.cells :=
  List.map_append

/-- Positions have the levels of a row that begins at a position, and the
position behind it has a given level. -/
def Placed (levels : Nat → Option Level) : Nat → Row → Level → Prop
  | start, [], exit => levels start = some exit
  | start, (cell, level) :: rest, exit =>
    levels start = some level ∧ Placed levels (start + cell.size) rest exit

/-- A cell leads from its level to positions with the right levels.  The cells
in front of it tell which addresses an installed table holds. -/
inductive Fits (rules : Rules Instruction) (loop : Level) (levels : Nat → Option Level)
    (before : List Cell) (next : Nat) : Cell → Level → Prop where
  | plain {instr : Instruction} {depth depth' handlers : Nat}
      (moves : rules.Moves instr depth depth') (behind : levels next = some ⟨depth', handlers⟩) :
      Fits rules loop levels before next (.plain instr) ⟨depth, handlers⟩
  | follows {instr first : Instruction} {front : List Cell} {depth depth' handlers : Nat}
      (equal : before = front ++ [.plain first]) (follows : rules.Follows first instr depth depth')
      (behind : levels next = some ⟨depth', handlers⟩) :
      Fits rules loop levels before next (.plain instr) ⟨depth, handlers⟩
  | jump {instr : Instruction} {level : Level} (op : instr.op = .branch)
      (target : levels instr.operand.toNat = some level) :
      Fits rules loop levels before next (.plain instr) level
  | choice {instr : Instruction} {count depth handlers : Nat}
      (takes : instr.op.taken? = some count)
      (target : levels instr.operand.toNat = some ⟨depth, handlers⟩)
      (behind : levels next = some ⟨depth, handlers⟩) :
      Fits rules loop levels before next (.plain instr) ⟨depth + count, handlers⟩
  | address {target : Nat} {level : Level} (behind : levels next = some level.pushed) :
      Fits rules loop levels before next (.address target) level
  | install {front : List Cell} {names : List Instruction} {addresses : List Nat}
      {depth handlers : Nat} (equal : before = front ++ tableCells names addresses)
      (length : addresses.length = names.length) (small : names.length < 65536)
      (behind : levels next = some ⟨depth, handlers + 1⟩)
      (entered : ∀ address ∈ addresses, levels address = some ⟨depth, handlers + 1⟩) :
      Fits rules loop levels before next (.plain (installer names.length))
        ⟨depth + 2 * names.length, handlers⟩
  | remove {depth handlers : Nat} (behind : levels next = some ⟨depth, handlers⟩) :
      Fits rules loop levels before next (.plain remover) ⟨depth, handlers + 1⟩
  | unclosed {mark : Mark} (known : rules.Leaves mark) :
      Fits rules loop levels before next (.leave mark none) (mark.levelAbove loop)
  | leave {mark : Mark} {bounds : LoopBounds} {entry : Level} (known : rules.Leaves mark)
      (entered : levels bounds.entry = some entry)
      (left : levels bounds.exit = some entry.pushed) (small : bounds.exit < 65536) :
      Fits rules loop levels before next (.leave mark (some bounds)) (mark.levelAbove entry)
  | finish {operands : Nat} (handlers : Nat) (known : rules.Finishes operands) :
      Fits rules loop levels before next (.finish operands) ⟨operands + 1, handlers⟩

/-- Every cell of a row fits, and no level is deeper than its position allows. -/
def Fitting (rules : Rules Instruction) (loop : Level) (levels : Nat → Option Level) :
    List Cell → Nat → Row → Prop
  | _, _, [] => True
  | before, start, (cell, level) :: rest =>
    (level.depth ≤ start ∧ Fits rules loop levels before (start + cell.size) cell level) ∧
      Fitting rules loop levels (before ++ [cell]) (start + cell.size) rest

variable {rules : Rules Instruction} {loop loop' before middle after : Level}
  {levels : Nat → Option Level} {start next : Nat} {front : List Cell} {first second row : Row}
  {exit : Level}

/-! ## Rows one behind another -/

theorem Placed.last_level (placed : Placed levels start row exit) :
    levels (start + bytesOf row.cells) = some exit := by
  induction row generalizing start with
  | nil => exact placed
  | cons cell rest ih =>
    have behind := ih placed.2
    rwa [Nat.add_assoc] at behind

theorem Placed.right (placed : Placed levels start (first ++ second) exit) :
    Placed levels (start + bytesOf first.cells) second exit := by
  induction first generalizing start with
  | nil => exact placed
  | cons cell rest ih =>
    have behind := ih placed.2
    rwa [Nat.add_assoc] at behind

theorem Placed.left (placed : Placed levels start (first ++ second) exit)
    (level : levels (start + bytesOf first.cells) = some middle) :
    Placed levels start first middle := by
  induction first generalizing start with
  | nil => exact level
  | cons cell rest ih =>
    refine ⟨placed.1, ih placed.2 ?_⟩
    rwa [Nat.add_assoc]

theorem fitting_append : Fitting rules loop levels front start (first ++ second) ↔
    Fitting rules loop levels front start first ∧
      Fitting rules loop levels (front ++ first.cells) (start + bytesOf first.cells) second := by
  induction first generalizing front start with
  | nil => simp [Fitting]
  | cons cell rest ih =>
    obtain ⟨cell, level⟩ := cell
    simp [Fitting, ih, Nat.add_assoc, and_assoc]

/-! ## The cells in front -/

theorem Fits.behind {cell : Cell} {level : Level} (front' : List Cell)
    (fits : Fits rules loop levels front next cell level) :
    Fits rules loop levels (front' ++ front) next cell level := by
  cases fits with
  | plain moves behind => exact .plain moves behind
  | follows equal follows behind =>
    subst equal
    exact .follows (List.append_assoc _ _ _).symm follows behind
  | jump op target => exact .jump op target
  | choice takes target behind => exact .choice takes target behind
  | address behind => exact .address behind
  | install equal length small behind entered =>
    subst equal
    exact .install (List.append_assoc _ _ _).symm length small behind entered
  | remove behind => exact .remove behind
  | unclosed known => exact .unclosed known
  | leave known entered left small => exact .leave known entered left small
  | finish handlers known => exact .finish handlers known

theorem Fitting.behind (front' : List Cell) (fitting : Fitting rules loop levels front start row) :
    Fitting rules loop levels (front' ++ front) start row := by
  induction row generalizing front start with
  | nil => exact fitting
  | cons cell rest ih =>
    refine ⟨⟨fitting.1.1, fitting.1.2.behind front'⟩, ?_⟩
    rw [List.append_assoc]
    exact ih fitting.2

/-! ## Closing breaks -/

/-- Close the breaks of a row. -/
def Row.close (bounds : LoopBounds) (row : Row) : Row :=
  row.map fun labelled => (labelled.1.close bounds, labelled.2)

@[simp]
theorem Row.cells_close (bounds : LoopBounds) (row : Row) :
    (row.close bounds).cells = row.cells.map (Cell.close bounds) := by
  simp [close, cells]

theorem placed_close (bounds : LoopBounds) :
    Placed levels start (row.close bounds) exit ↔ Placed levels start row exit := by
  induction row generalizing start with
  | nil => rfl
  | cons cell rest ih =>
    simp only [Row.close, List.map_cons, Placed, Cell.size_close]
    exact and_congr_right fun _ => ih

theorem map_close_tableCells (bounds : LoopBounds) (names : List Instruction)
    (addresses : List Nat) :
    (tableCells names addresses).map (Cell.close bounds) = tableCells names addresses := by
  induction names generalizing addresses with
  | nil => rfl
  | cons name names ih =>
    cases addresses with
    | nil => rfl
    | cons address addresses =>
      simp only [tableCells, List.map_cons, ih]
      rfl

theorem Fits.close {bounds : LoopBounds} {cell : Cell} {level : Level}
    (entered : levels bounds.entry = some loop) (left : levels bounds.exit = some loop.pushed)
    (small : bounds.exit < 65536) (fits : Fits rules loop levels front next cell level) :
    Fits rules loop' levels (front.map (Cell.close bounds)) next (cell.close bounds) level := by
  cases fits with
  | plain moves behind => exact .plain moves behind
  | follows equal follows behind =>
    subst equal
    exact .follows (List.map_append) follows behind
  | jump op target => exact .jump op target
  | choice takes target behind => exact .choice takes target behind
  | address behind => exact .address behind
  | install equal length few behind inside =>
    subst equal
    rw [List.map_append, map_close_tableCells]
    exact .install rfl length few behind inside
  | remove behind => exact .remove behind
  | unclosed known => exact .leave known entered left small
  | leave known entered left small => exact .leave known entered left small
  | finish handlers known => exact .finish handlers known

theorem Fitting.close {bounds : LoopBounds} (entered : levels bounds.entry = some loop)
    (left : levels bounds.exit = some loop.pushed) (small : bounds.exit < 65536)
    (fitting : Fitting rules loop levels front start row) :
    Fitting rules loop' levels (front.map (Cell.close bounds)) start (row.close bounds) := by
  induction row generalizing front start with
  | nil => exact trivial
  | cons cell rest ih =>
    simp only [Row.close, List.map_cons, Fitting, Cell.size_close]
    refine ⟨⟨fitting.1.1, fitting.1.2.close entered left small⟩, ?_⟩
    have behind := ih fitting.2
    rwa [List.map_append] at behind

/-! ## Labelled pieces -/

/-- A row labels the cells of a piece that leads from one level to another,
given what is known of the positions around it. -/
structure Labels (rules : Rules Instruction) (loop : Level) (given : (Nat → Option Level) → Prop)
    (start : Nat) (cells : List Cell) (before after : Level) (row : Row) : Prop where
  cells_eq : row.cells = cells
  low : after.depth ≤ start + bytesOf cells
  entry : ∀ levels, Placed levels start row after → levels start = some before
  fits : ∀ levels, given levels → Placed levels start row after →
    Fitting rules loop levels [] start row

namespace Labels

variable {given given' : (Nat → Option Level) → Prop} {cells firstCells secondCells : List Cell}
  {instr : Instruction} {target count depth handlers : Nat}

theorem nil (low : after.depth ≤ start) : Labels rules loop given start [] after after [] where
  cells_eq := rfl
  low := low
  entry := fun _ placed => placed
  fits := fun _ _ _ => trivial

theorem one {cell : Cell} (low : before.depth ≤ start) (low' : after.depth ≤ start + cell.size)
    (fits : ∀ levels, given levels → levels (start + cell.size) = some after →
      Fits rules loop levels [] (start + cell.size) cell before) :
    Labels rules loop given start [cell] before after [(cell, before)] where
  cells_eq := rfl
  low := low'
  entry := fun _ placed => placed.1
  fits := fun levels known placed => ⟨⟨low, fits levels known placed.2⟩, trivial⟩

/-- A branch that is always taken.  Nothing is known of the level behind it. -/
theorem jump (op : instr.op = .branch) (operand : instr.operand.toNat = target)
    (low : before.depth ≤ start) (low' : after.depth ≤ start + instr.size) :
    Labels rules loop (fun levels => levels target = some before) start [.plain instr]
      before after [(.plain instr, before)] :=
  one low low' fun _ known _ => .jump op (operand ▸ known)

/-- A branch that is taken or not. -/
theorem choice (takes : instr.op.taken? = some count)
    (operand : instr.operand.toNat = target) (low : depth + count ≤ start) :
    Labels rules loop (fun levels => levels target = some ⟨depth, handlers⟩) start
      [.plain instr] ⟨depth + count, handlers⟩ ⟨depth, handlers⟩
      [(.plain instr, ⟨depth + count, handlers⟩)] :=
  one low (by simp; omega) fun _ known behind => .choice takes (operand ▸ known) behind

theorem remove (low : depth ≤ start) :
    Labels rules loop given start [.plain remover] ⟨depth, handlers + 1⟩ ⟨depth, handlers⟩
      [(.plain remover, ⟨depth, handlers + 1⟩)] :=
  one low (by simp; omega) fun _ _ behind => .remove behind

/-- The levels at both ends of two pieces. -/
theorem ends (left : Labels rules loop given start firstCells before middle first)
    (right : Labels rules loop given' (start + bytesOf firstCells) secondCells middle after second)
    (placed : Placed levels start (first ++ second) after) :
    Placed levels start first middle ∧
      Placed levels (start + bytesOf firstCells) second after := by
  have size : bytesOf first.cells = bytesOf firstCells := congrArg bytesOf left.cells_eq
  have behind := placed.right
  rw [size] at behind
  refine ⟨placed.left ?_, behind⟩
  rw [size]
  exact right.entry levels behind

theorem append (left : Labels rules loop given start firstCells before middle first)
    (right : Labels rules loop given (start + bytesOf firstCells) secondCells middle after second) :
    Labels rules loop given start (firstCells ++ secondCells) before after (first ++ second) := by
  have size : bytesOf first.cells = bytesOf firstCells := congrArg bytesOf left.cells_eq
  constructor
  · rw [Row.cells_append, left.cells_eq, right.cells_eq]
  · have := right.low
    rw [bytesOf_append]
    omega
  · intro levels placed
    exact left.entry levels (left.ends right placed).1
  · intro levels known placed
    obtain ⟨inFirst, inSecond⟩ := left.ends right placed
    have behind := (right.fits levels known inSecond).behind first.cells
    rw [List.append_nil] at behind
    rw [fitting_append, size]
    exact ⟨left.fits levels known inFirst, behind⟩

/-- Less needs to be given if the row itself tells the rest. -/
theorem discharge (labels : Labels rules loop given start cells before after row)
    (known : ∀ levels, given' levels → Placed levels start row after → given levels) :
    Labels rules loop given' start cells before after row where
  cells_eq := labels.cells_eq
  low := labels.low
  entry := labels.entry
  fits := fun levels other placed => labels.fits levels (known levels other placed) placed

theorem last (labels : Labels rules loop given start cells before after row)
    (placed : Placed levels start row after) : levels (start + bytesOf cells) = some after := by
  have last := placed.last_level
  rwa [labels.cells_eq] at last

end Labels

end NewtonScript.Bytecode
