import NewtonScript.Proofs.Flow.Soundness

/-!
# Levels of the code of a function

The code of a function ends with a return.  Every position at which one of its
cells begins has a level, and no other position has one: nothing leads into
the middle of an instruction or behind the last one.
-/

namespace NewtonScript.Bytecode

variable {levels levels' : Nat → Option Level} {start offset : Nat} {row : Row} {exit level : Level}

/-- The level of a position, given a row that begins at a position and the
level behind it. -/
def Row.levelAt (exit : Level) : Row → Nat → Nat → Option Level
  | [], start, offset => if offset = start then some exit else none
  | (cell, level) :: rest, start, offset =>
    if offset = start then some level else levelAt exit rest (start + cell.size) offset

theorem Placed.congr (same : ∀ offset, start ≤ offset → levels offset = levels' offset)
    (placed : Placed levels start row exit) : Placed levels' start row exit := by
  induction row generalizing start with
  | nil => exact (same start (Nat.le_refl _)).symm.trans placed
  | cons labelled rest ih =>
    refine ⟨(same start (Nat.le_refl _)).symm.trans placed.1, ih ?_ placed.2⟩
    intro offset behind
    exact same offset (Nat.le_of_add_right_le behind)

theorem placed_levelAt (row : Row) (start : Nat) (exit : Level) :
    Placed (row.levelAt exit start) start row exit := by
  induction row generalizing start with
  | nil => exact if_pos rfl
  | cons labelled rest ih =>
    obtain ⟨cell, level⟩ := labelled
    refine ⟨if_pos rfl, (ih (start + cell.size)).congr ?_⟩
    intro offset behind
    have size := cell.size_pos
    exact (if_neg (by omega)).symm

/-- A level belongs to a cell of the row or to the one behind it. -/
theorem Row.split_of_levelAt (last : Cell) (found : row.levelAt exit start offset = some level) :
    ∃ before cell after, row ++ [(last, exit)] = before ++ (cell, level) :: after ∧
      offset = start + bytesOf (Row.cells before) := by
  induction row generalizing start with
  | nil =>
    simp only [levelAt] at found
    split at found
    · simp only [Option.some.injEq] at found
      subst found
      exact ⟨[], last, [], rfl, by assumption⟩
    · cases found
  | cons labelled rest ih =>
    obtain ⟨cell, own⟩ := labelled
    simp only [levelAt] at found
    split at found
    · simp only [Option.some.injEq] at found
      subst found
      exact ⟨[], cell, _, rfl, by assumption⟩
    · obtain ⟨before, inner, after, equal, position⟩ := ih found
      refine ⟨(cell, own) :: before, inner, after, by simp [equal], ?_⟩
      rw [position, Row.cells_cons, bytesOf_cons, Nat.add_assoc]

theorem Placed.level_of_split {last cell : Cell} {before after : Row}
    (placed : Placed levels start row exit)
    (equal : row ++ [(last, exit)] = before ++ (cell, level) :: after) :
    levels (start + bytesOf before.cells) = some level := by
  induction before generalizing row start with
  | nil =>
    cases row with
    | nil =>
      simp only [List.nil_append, List.cons.injEq, Prod.mk.injEq] at equal
      rw [← equal.1.2]
      exact placed
    | cons labelled rest =>
      simp only [List.cons_append, List.nil_append, List.cons.injEq] at equal
      have own := placed.1
      rw [equal.1] at own
      exact own
  | cons labelled before ih =>
    cases row with
    | nil => simp at equal
    | cons other rest =>
      simp only [List.cons_append, List.cons.injEq] at equal
      obtain ⟨rfl, equal⟩ := equal
      have behind := ih placed.2 equal
      rwa [Nat.add_assoc] at behind

/-- Every cell has a level that fits, and only cells have levels. -/
structure Annotated (rules : Rules Instruction) (cells : List Cell) (levels : Nat → Option Level) :
    Prop where
  start : levels 0 = some ⟨0, 0⟩
  fits : ∀ before cell after, cells = before ++ cell :: after →
    ∃ level, levels (bytesOf before) = some level ∧ level.depth ≤ bytesOf before ∧
      Fits rules ⟨0, 0⟩ levels before (bytesOf before + cell.size) cell level
  inside : ∀ offset level, levels offset = some level →
    ∃ before cell after, cells = before ++ cell :: after ∧ offset = bytesOf before

theorem Fragment.Flow.annotated {rules : Rules Instruction} (steady : rules.Steady)
    (finishes : rules.Finishes 0) {code : Fragment Instruction}
    (flow : code.Flow rules ⟨0, 0⟩ ⟨0, 0⟩ ⟨1, 0⟩)
    (small : bytesOf ((Fragment.append code (.finish 0)).cells 0) < 65536) :
    ∃ levels, Annotated rules ((Fragment.append code (.finish 0)).cells 0) levels := by
  simp only [cells, bytesOf_append] at small ⊢
  obtain ⟨row, labels, -⟩ := flow.labelled steady (Nat.le_refl 0) (by omega)
  let levels := row.levelAt ⟨1, 0⟩ 0
  have placed : Placed levels 0 row ⟨1, 0⟩ := placed_levelAt row 0 ⟨1, 0⟩
  have cells_eq : Row.cells (row ++ [(.finish 0, ⟨1, 0⟩)]) = code.cells 0 ++ [.finish 0] := by
    rw [Row.cells_append, labels.cells_eq]
    rfl
  have size : bytesOf row.cells = bytesOf (code.cells 0) := congrArg bytesOf labels.cells_eq
  have fitting : Fitting rules ⟨0, 0⟩ levels [] 0 (row ++ [(.finish 0, ⟨1, 0⟩)]) := by
    refine fitting_append.mpr ⟨labels.fits levels trivial placed, ⟨?_, .finish 0 finishes⟩, trivial⟩
    rw [size]
    exact labels.low
  refine ⟨levels, labels.entry levels placed, ?_, ?_⟩
  · intro before cell after split
    rw [← cells_eq] at split
    obtain ⟨front, back, equal, rfl, behind⟩ := List.map_eq_append_iff.mp split
    obtain ⟨⟨own, level⟩, rest, rfl, rfl, rfl⟩ := List.map_eq_cons_iff.mp behind
    have level_eq := placed.level_of_split equal
    rw [equal] at fitting
    obtain ⟨-, ⟨low, fits⟩, -⟩ := fitting_append.mp fitting
    rw [Nat.zero_add] at level_eq low fits
    exact ⟨level, level_eq, low, fits⟩
  · intro offset level found
    obtain ⟨before, cell, after, equal, position⟩ := Row.split_of_levelAt (.finish 0) found
    refine ⟨Row.cells before, cell, Row.cells after, ?_, by simpa using position⟩
    rw [← cells_eq, equal]
    simp

end NewtonScript.Bytecode
