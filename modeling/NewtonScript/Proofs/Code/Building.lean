import Mathlib.Algebra.Ring.Nat
import NewtonScript.Proofs.Code.Reading

/-!
# Building code and reading it back

Whatever operations a buffer undergoes, its bytes are read as the instructions
that were added, in their order.  Each stands at the position at which it was
added.  A reserved instruction has the operand that it was given last.
-/

namespace NewtonScript.Bytecode

variable {label : Label}

/-! ## Operations -/

/-- What can be done to a buffer.  Reserved instructions are numbered in the
order in which they are reserved. -/
inductive Operation where
  | emit (op : Opcode) (operand : Nat)
  | emitSimple (op : SimpleOp)
  | reserve (op : Opcode)
  | patch (label operand : Nat)
  | patchHere (label : Nat)
  | branchTo (op : Opcode) (target : Nat)
deriving DecidableEq, Repr

/-- A buffer, and the labels of what was reserved in it. -/
structure Builder where
  buffer : Buffer := .empty
  labels : List Label := []

namespace Builder

/-- A buffer in place of another. -/
def withBuffer (builder : Builder) (buffer : Buffer) : Builder :=
  { builder with buffer }

/-- Use a label that was handed out. -/
def patching (builder : Builder) (label : Nat)
    (change : Label → Except OperandTooLarge Buffer) : Except OperandTooLarge Builder :=
  match builder.labels[label]? with
  | some label => (change label).map builder.withBuffer
  | none => .ok builder

/-- Perform one operation. -/
def perform (builder : Builder) : Operation → Except OperandTooLarge Builder
  | .emit op operand => (builder.buffer.emit op operand).map builder.withBuffer
  | .emitSimple op => .ok (builder.withBuffer (builder.buffer.emitSimple op))
  | .reserve op =>
    let (label, buffer) := builder.buffer.reserve op
    .ok ⟨buffer, builder.labels ++ [label]⟩
  | .patch label operand =>
    builder.patching label fun label => builder.buffer.patch label operand
  | .patchHere label => builder.patching label fun label => builder.buffer.patchHere label
  | .branchTo op target => (builder.buffer.emit op target).map builder.withBuffer

/-- The builder behind an operation: what it gives, or what was there if it is
refused. -/
def after (builder : Builder) : Except OperandTooLarge Builder → Builder
  | .ok changed => changed
  | .error _ => builder

/-- Perform one operation, which may be refused. -/
def step (builder : Builder) (operation : Operation) : Builder :=
  builder.after (builder.perform operation)

/-- The builder behind some operations. -/
def run (operations : List Operation) : Builder :=
  operations.foldl step {}

end Builder

/-! ## What is expected -/

namespace Operation

/-- The instruction of an operation without operand. -/
def simple : SimpleOp → Instruction
  | .pop => ⟨.simple, 0, false⟩
  | .dup => ⟨.simple, 1, false⟩
  | .ret => ⟨.simple, 2, false⟩
  | .pushSelf => ⟨.simple, 3, false⟩
  | .setLexScope => ⟨.simple, 4, false⟩
  | .iterNext => ⟨.simple, 5, false⟩
  | .iterDone => ⟨.simple, 6, false⟩
  | .popHandlers => ⟨.simple, 1, true⟩

/-- The instruction that an operation adds, if it is not refused.  Operands
above six make it wide. -/
def added? : Operation → Option Instruction
  | .emit op operand => if operand < 65536 then some ⟨op, operand.toUInt16, 6 < operand⟩ else none
  | .emitSimple op => some (simple op)
  | .reserve op => some ⟨op, 0, true⟩
  | .patch _ _ => none
  | .patchHere _ => none
  | .branchTo op target => if target < 65536 then some ⟨op, target.toUInt16, 6 < target⟩ else none

/-- The number of bytes that an operation adds. -/
def size (operation : Operation) : Nat :=
  (operation.added?.map Instruction.size).getD 0

/-- The operand that an operation gives to a label, at the end of so many
bytes. -/
def given? (label position : Nat) : Operation → Option Nat
  | .patch other operand => if other = label ∧ operand < 65536 then some operand else none
  | .patchHere other => if other = label ∧ position < 65536 then some position else none
  | _ => none

/-- The operand that some operations give to a label last. -/
def lastGiven? (label : Nat) : Nat → List Operation → Option Nat
  | _, [] => none
  | position, operation :: rest =>
    (lastGiven? label (position + operation.size) rest).or (operation.given? label position)

/-- The instructions that some operations add behind so many bytes and so many
labels. -/
def listing : Nat → Nat → List Operation → List Located
  | _, _, [] => []
  | position, labels, .reserve op :: rest =>
    ⟨position, ⟨op, ((lastGiven? labels (position + 3) rest).getD 0).toUInt16, true⟩⟩ ::
      listing (position + 3) (labels + 1) rest
  | position, labels, operation :: rest =>
    (operation.added?.map (Located.mk position)).toList ++
      listing (position + operation.size) labels rest

/-- The number of bytes that some operations add. -/
def sizeOfAll (operations : List Operation) : Nat :=
  (operations.map size).sum

end Operation

/-! ## Rows with labels -/

/-- An instruction, and its number if it was reserved. -/
structure Entry where
  instr : Instruction
  label : Option Nat

namespace Entry

/-- The entry with an operand in place of its own, if there is one. -/
def give (entry : Entry) (operand : Option Nat) : Entry :=
  match operand with
  | some operand => ⟨{ entry.instr with operand := operand.toUInt16 }, entry.label⟩
  | none => entry

/-- The entry behind an operation at the end of so many bytes. -/
def behind (position : Nat) (operation : Operation) (entry : Entry) : Entry :=
  entry.give (entry.label.bind fun label => operation.given? label position)

/-- The entry behind some operations. -/
def settled (position : Nat) (operations : List Operation) (entry : Entry) : Entry :=
  entry.give (entry.label.bind fun label => Operation.lastGiven? label position operations)

@[simp]
theorem label_give (entry : Entry) (operand : Option Nat) :
    (entry.give operand).label = entry.label := by
  cases operand <;> rfl

theorem give_give (entry : Entry) (first second : Option Nat) :
    (entry.give first).give second = entry.give (second.or first) := by
  cases first <;> cases second <;> rfl

@[simp]
theorem size_give (entry : Entry) (operand : Option Nat) :
    (entry.give operand).instr.size = entry.instr.size := by
  cases operand <;> rfl

@[simp]
theorem wide_give (entry : Entry) (operand : Option Nat) :
    (entry.give operand).instr.wide = entry.instr.wide := by
  cases operand <;> rfl

theorem settled_behind (position : Nat) (operation : Operation) (rest : List Operation)
    (entry : Entry) :
    (entry.behind position operation).settled (position + operation.size) rest =
      entry.settled position (operation :: rest) := by
  simp only [settled, behind, label_give, give_give]
  cases entry.label <;> rfl

end Entry

/-- The entry that an operation adds, behind so many labels. -/
def Operation.leaves? (labels : Nat) : Operation → Option Entry
  | .reserve op => some ⟨⟨op, 0, true⟩, some labels⟩
  | operation => operation.added?.map fun instr => ⟨instr, none⟩

theorem Operation.instruction_leaves? (labels : Nat) (operation : Operation) :
    (operation.leaves? labels).map Entry.instr = operation.added? := by
  cases operation <;> simp [leaves?, added?]

/-- A builder holds the instructions of some entries, and its labels number
those that were reserved. -/
structure Tracks (builder : Builder) (entries : List Entry) : Prop where
  instructions : builder.buffer.instructions.toList = entries.map Entry.instr
  size : builder.buffer.size = rowSize (entries.map Entry.instr)
  labels : ∀ label index, (builder.labels[label]?).map Label.index = some index ↔
    (entries[index]?).bind Entry.label = some label
  canonical : ∀ entry ∈ entries, entry.instr.Canonical
  wide : ∀ entry ∈ entries, entry.label.isSome → entry.instr.wide
  positions : ∀ label ∈ builder.labels,
    label.position = rowSize ((entries.take label.index).map Entry.instr)

/-- The number of labels behind an operation. -/
def Operation.labelsBehind (labels : Nat) : Operation → Nat
  | .reserve _ => labels + 1
  | _ => labels

theorem listing_cons (position labels : Nat) (operation : Operation) (rest : List Operation) :
    (Operation.listing position labels (operation :: rest)).map Located.instruction =
      ((operation.leaves? labels).toList.map fun entry =>
        (entry.settled (position + operation.size) rest).instr) ++
          (Operation.listing (position + operation.size) (operation.labelsBehind labels) rest).map
            Located.instruction := by
  have plain : ∀ (added : Option Instruction) (more : List Located),
      ((added.map (Located.mk position)).toList ++ more).map Located.instruction =
        ((added.map fun instr => Entry.mk instr none).toList.map fun entry =>
          (entry.settled (position + operation.size) rest).instr) ++
            more.map Located.instruction := by
    intro added more
    cases added <;> rfl
  cases operation with
  | reserve op =>
    simp only [Operation.listing, Operation.leaves?, Operation.labelsBehind, Operation.size,
      Operation.added?, Option.map_some, Option.getD_some, Option.toList_some, List.map_cons,
      List.map_nil, List.singleton_append, List.cons.injEq]
    refine ⟨?_, rfl⟩
    simp only [Entry.settled, Option.bind_some, Instruction.size, if_true]
    cases Operation.lastGiven? labels (position + 3) rest <;> rfl
  | _ => exact plain _ _

variable {builder : Builder} {entries : List Entry}

namespace Tracks

theorem empty : Tracks {} [] where
  instructions := rfl
  size := rfl
  labels := by simp
  canonical := by simp
  wide := by simp
  positions := by simp

theorem rowSize_append (first second : List Instruction) :
    rowSize (first ++ second) = rowSize first + rowSize second := by
  induction first with
  | nil => simp [rowSize]
  | cons instr rest ih =>
    simp [rowSize, ih, Nat.add_assoc]

theorem rowSize_give (entries : List Entry) (operand : Entry → Option Nat) :
    rowSize ((entries.map fun entry => entry.give (operand entry)).map Entry.instr) =
      rowSize (entries.map Entry.instr) := by
  induction entries with
  | nil => rfl
  | cons entry rest ih =>
    simp only [List.map_cons, rowSize, Entry.size_give, ih]

theorem labels_step (builder : Builder) (operation : Operation) :
    (builder.step operation).labels.length = operation.labelsBehind builder.labels.length := by
  have kept (result : Except OperandTooLarge Buffer) :
      (builder.after (result.map builder.withBuffer)).labels.length = builder.labels.length := by
    cases result <;> rfl
  have patched (number : Nat) (change : Label → Except OperandTooLarge Buffer) :
      (builder.after (builder.patching number change)).labels.length = builder.labels.length := by
    unfold Builder.patching
    cases builder.labels[number]? with
    | some label => exact kept _
    | none => rfl
  cases operation with
  | emit op operand => exact kept _
  | emitSimple op => rfl
  | reserve op => simp [Builder.step, Builder.perform, Builder.after, Operation.labelsBehind]
  | patch number operand => exact patched number _
  | patchHere number => exact patched number _
  | branchTo op target => exact kept _

variable (tracks : Tracks builder entries)
include tracks

theorem length_eq :
    builder.buffer.instructions.size = entries.length := by
  rw [← Array.length_toList, tracks.instructions, List.length_map]

theorem index_lt (member : label ∈ builder.labels) : label.index < entries.length := by
  obtain ⟨number, found⟩ := List.getElem?_of_mem member
  have here := (tracks.labels number label.index).mp (by simp [found])
  by_contra outside
  rw [List.getElem?_eq_none (Nat.le_of_not_lt outside)] at here
  cases here

/-- An instruction is added. -/
theorem push {instr : Instruction} (canonical : instr.Canonical) :
    Tracks (builder.withBuffer (builder.buffer.push instr)) (entries ++ [⟨instr, none⟩]) where
  instructions := by simp [Builder.withBuffer, Buffer.push, tracks.instructions]
  size := by
    simp [Builder.withBuffer, tracks.size, rowSize_append, rowSize]
  labels label index := by
    rw [Builder.withBuffer, tracks.labels, List.getElem?_append]
    split
    · rfl
    · rename_i behind
      rw [List.getElem?_eq_none (Nat.le_of_not_lt behind)]
      cases found : [(⟨instr, none⟩ : Entry)][index - entries.length]? with
      | none => rfl
      | some entry =>
        obtain rfl := List.mem_singleton.mp (List.mem_of_getElem? found)
        rfl
  canonical := by
    simpa [or_imp, forall_and, canonical] using tracks.canonical
  wide := by
    simpa [or_imp, forall_and] using tracks.wide
  positions label member := by
    rw [List.take_append_of_le_length (Nat.le_of_lt (tracks.index_lt member))]
    exact tracks.positions label member

/-- An instruction is reserved. -/
theorem reserve (op : Opcode) :
    Tracks ⟨builder.buffer.push (Buffer.reserved op), builder.labels ++ [builder.buffer.nextLabel]⟩
      (entries ++ [⟨⟨op, 0, true⟩, some builder.labels.length⟩]) where
  instructions := by simp [Buffer.push, Buffer.reserved, tracks.instructions]
  size := by
    simp [tracks.size, rowSize_append, rowSize, Buffer.reserved]
  labels label index := by
    have known := tracks.labels label index
    have length := tracks.length_eq
    grind [Buffer.nextLabel]
  canonical := by
    simpa [or_imp, forall_and, Instruction.Canonical] using tracks.canonical
  wide := by
    simpa [or_imp, forall_and] using tracks.wide
  positions label member := by
    rcases List.mem_append.mp member with old | new
    · rw [List.take_append_of_le_length (Nat.le_of_lt (tracks.index_lt old))]
      exact tracks.positions label old
    · obtain rfl := List.mem_singleton.mp new
      simp [Buffer.nextLabel, tracks.length_eq, tracks.size]

/-- A reserved instruction is given an operand. -/
theorem give {number : Nat} (found : builder.labels[number]? = some label) (operand : Nat) :
    Tracks (builder.withBuffer (builder.buffer.setOperand label operand.toUInt16))
      (entries.map fun entry =>
        entry.give (if entry.label = some number then some operand else none)) where
  instructions := by
    have here := (tracks.labels number label.index).mp (by simp [found])
    have only : ∀ index, (entries[index]?).bind Entry.label = some number → index = label.index := by
      intro index other
      have := (tracks.labels number index).mpr other
      simpa [found] using this.symm
    simp only [Builder.withBuffer, Buffer.setOperand, Array.toList_modify, tracks.instructions]
    apply List.ext_getElem?
    intro index
    simp only [List.getElem?_modify, List.getElem?_map]
    cases at_index : entries[index]? with
    | none => simp
    | some entry =>
      by_cases equal : label.index = index
      · subst equal
        rw [at_index, Option.bind_some] at here
        simp [here, Entry.give]
      · have other : entry.label ≠ some number := fun labelled =>
          equal (only index (by simpa [at_index] using labelled)).symm
        simp [other, equal, Entry.give]
  size := by
    rw [Buffer.setOperand, tracks.size]
    exact (rowSize_give _ _).symm
  labels other index := by
    rw [Builder.withBuffer, tracks.labels]
    simp only [List.getElem?_map, Option.bind_map, Function.comp_def, Entry.label_give]
  canonical := by
    simp only [List.forall_mem_map]
    intro entry member
    split
    · rename_i labelled
      refine Instruction.canonical_of_wide ?_
      exact tracks.wide entry member (by simp [labelled])
    · exact tracks.canonical entry member
  wide := by
    simpa using tracks.wide
  positions other member := by
    rw [← List.map_take, rowSize_give]
    exact tracks.positions other member

/-- A label is used, which was handed out or not, with an operand that fits or
not. -/
theorem patch (number operand : Nat) :
    Tracks (builder.after (builder.patching number fun label => builder.buffer.patch label operand))
      (entries.map fun entry => entry.give (if entry.label = some number ∧ operand < 65536 then
        some operand else none)) := by
  have unchanged (none : ∀ entry ∈ entries, ¬ (entry.label = some number ∧ operand < 65536)) :
      (entries.map fun entry => entry.give (if entry.label = some number ∧ operand < 65536 then
        some operand else Option.none)) = entries := by
    refine (List.map_congr_left fun entry member => ?_).trans (List.map_id _)
    rw [if_neg (none entry member)]
    rfl
  unfold Builder.patching
  cases found : builder.labels[number]? with
  | none =>
    rw [unchanged]
    · exact tracks
    · rintro entry member ⟨labelled, -⟩
      obtain ⟨index, at_index⟩ := List.getElem?_of_mem member
      have := (tracks.labels number index).mpr (by simp [at_index, labelled])
      simp [found] at this
  | some label =>
    by_cases small : operand < 65536
    · simpa [Buffer.patch, Buffer.operand16, small, Except.map, Builder.after] using
        tracks.give found operand
    · rw [unchanged fun _ _ fits => small fits.2]
      simpa [Buffer.patch, Buffer.operand16, small, Except.map, Builder.after] using tracks

/-- An operation is emitted, if its operand fits. -/
theorem emit (op : Opcode) (operand : Nat) :
    Tracks (builder.after ((builder.buffer.emit op operand).map builder.withBuffer))
      (entries ++ ((if operand < 65536 then some (Instruction.mk op operand.toUInt16 (6 < operand))
        else none).map fun instr => Entry.mk instr none).toList) := by
  by_cases small : operand < 65536
  · have written : Instruction.shortest op operand.toUInt16 = ⟨op, operand.toUInt16, 6 < operand⟩ := by
      have above : maxShortOperand < operand.toUInt16 ↔ 6 < operand := by
        rw [UInt16.lt_iff_toNat_lt, toNat_toUInt16 small]
        rfl
      simp only [Instruction.shortest, above]
    have pushed := tracks.push (Instruction.canonical_shortest op operand.toUInt16)
    rw [written] at pushed
    simpa [Buffer.emit, Buffer.operand16, small, Except.map, Builder.after, written] using pushed
  · simpa [Buffer.emit, Buffer.operand16, small, Except.map, Builder.after] using tracks

/-- What one operation does. -/
theorem step (operation : Operation) :
    Tracks (builder.step operation) ((entries.map (Entry.behind builder.buffer.size operation)) ++
      (operation.leaves? builder.labels.length).toList) := by
  have same (none : ∀ label, operation.given? label builder.buffer.size = none) :
      entries.map (Entry.behind builder.buffer.size operation) = entries := by
    refine (List.map_congr_left fun entry _ => ?_).trans (List.map_id _)
    cases labelled : entry.label <;> simp [Entry.behind, labelled, none, Entry.give]
  have given {number operand : Nat} (equal : ∀ label, operation.given? label builder.buffer.size =
      if number = label ∧ operand < 65536 then some operand else none) :
      entries.map (Entry.behind builder.buffer.size operation) = entries.map fun entry =>
        entry.give (if entry.label = some number ∧ operand < 65536 then some operand else none) := by
    refine List.map_congr_left fun entry _ => ?_
    cases labelled : entry.label <;> simp [Entry.behind, labelled, equal, eq_comm]
  cases operation with
  | emit op operand =>
    rw [same fun _ => rfl]
    exact tracks.emit op operand
  | emitSimple op =>
    rw [same fun _ => rfl]
    have written : Entry.mk (.ofSimple op) none = ⟨Operation.simple op, none⟩ := by
      cases op <;> rfl
    have pushed := tracks.push (Instruction.canonical_ofSimple op)
    rw [written] at pushed
    exact pushed
  | reserve op =>
    rw [same fun _ => rfl]
    exact tracks.reserve op
  | patch number operand =>
    rw [given fun label => rfl]
    simpa [Operation.leaves?, Operation.added?, Builder.step, Builder.perform] using
      tracks.patch number operand
  | patchHere number =>
    rw [given fun label => rfl]
    simpa [Operation.leaves?, Operation.added?, Builder.step, Builder.perform, Buffer.patchHere] using
      tracks.patch number builder.buffer.size
  | branchTo op target =>
    rw [same fun _ => rfl]
    exact tracks.emit op target

theorem size_step (operation : Operation) :
    (builder.step operation).buffer.size = builder.buffer.size + operation.size := by
  rw [(tracks.step operation).size, List.map_append, rowSize_append, tracks.size]
  congr 1
  · exact rowSize_give _ _
  · rw [Operation.size, ← operation.instruction_leaves? builder.labels.length]
    cases operation.leaves? builder.labels.length <;> simp [rowSize]

theorem size_run (operations : List Operation) :
    (operations.foldl Builder.step builder).buffer.size =
      builder.buffer.size + Operation.sizeOfAll operations := by
  induction operations generalizing builder entries with
  | nil => rfl
  | cons operation rest ih =>
    rw [List.foldl_cons, ih (tracks.step operation), tracks.size_step]
    simp [Operation.sizeOfAll, Nat.add_assoc]

/-- What a row of operations does. -/
theorem run (operations : List Operation) :
    ∃ final, Tracks (operations.foldl Builder.step builder) final ∧
      final.map Entry.instr =
        (entries.map fun entry =>
          (entry.settled builder.buffer.size operations).instr) ++
          (Operation.listing builder.buffer.size builder.labels.length operations).map
            Located.instruction := by
  induction operations generalizing builder entries with
  | nil =>
    refine ⟨entries, tracks, ?_⟩
    simp only [Operation.listing, List.map_nil, List.append_nil]
    refine List.map_congr_left fun entry _ => ?_
    cases labelled : entry.label <;> simp [Entry.settled, labelled, Operation.lastGiven?, Entry.give]
  | cons operation rest ih =>
    obtain ⟨final, tracked, equal⟩ := ih (tracks.step operation)
    refine ⟨final, tracked, ?_⟩
    rw [equal, listing_cons, tracks.size_step, labels_step, List.map_append, List.append_assoc,
      List.map_map]
    congr 1
    refine List.map_congr_left fun entry _ => ?_
    exact congrArg Entry.instr (Entry.settled_behind _ _ _ _)

end Tracks

theorem locate_listing (position labels : Nat) (operations : List Operation) :
    locate ((Operation.listing position labels operations).map Located.instruction) position =
      Operation.listing position labels operations := by
  fun_induction Operation.listing position labels operations with
  | case1 => rfl
  | case2 position labels op rest ih =>
    simpa [locate, Instruction.size] using ih
  | case3 position labels operation rest _ ih =>
    rw [Operation.size] at ih ⊢
    cases added : operation.added? with
    | none => simpa [added] using ih
    | some instr => simpa [added, locate] using ih

theorem modify_length {α : Type} (front back : List α) (item : α) (change : α → α) :
    (front ++ item :: back).modify front.length change = front ++ change item :: back := by
  induction front with
  | nil => rfl
  | cons first front ih => simpa using ih

/-- Bytes with an operand written over the two bytes behind a position. -/
def writeOperand (bytes : List UInt8) (position : Nat) (operand : UInt16) : List UInt8 :=
  bytes.take (position + 1) ++ [(operand >>> 8).toUInt8, operand.toUInt8] ++
    bytes.drop (position + 3)

/-- A patch writes over the operand of a reserved instruction, and over nothing
else. -/
theorem Tracks.bytes_setOperand (tracks : Tracks builder entries)
    (member : label ∈ builder.labels) (operand : UInt16) :
    (builder.buffer.setOperand label operand).bytes =
      writeOperand builder.buffer.bytes label.position operand := by
  have inside := tracks.index_lt member
  have position := tracks.positions label member
  obtain ⟨number, found⟩ := List.getElem?_of_mem member
  have labelled := (tracks.labels number label.index).mp (by simp [found])
  obtain ⟨front, entry, back, split, length⟩ : ∃ front entry back,
      entries = front ++ entry :: back ∧ front.length = label.index :=
    ⟨entries.take label.index, entries[label.index], entries.drop (label.index + 1),
      by simp, by simp [Nat.le_of_lt inside]⟩
  have wide : entry.instr.wide := by
    refine tracks.wide entry (by simp [split]) ?_
    simp only [split, ← length, List.getElem?_append_right (Nat.le_refl _), Nat.sub_self,
      List.getElem?_cons_zero, Option.bind_some] at labelled
    simp [labelled]
  have instructions := tracks.instructions
  rw [split, ← length] at position
  rw [← length_flatMap_encode] at position
  simp only [Buffer.bytes, Buffer.setOperand, Array.toList_modify, instructions, split,
    List.map_append, List.map_cons, writeOperand, position]
  have changed : (front.map Entry.instr ++ entry.instr ::
      back.map Entry.instr).modify label.index (fun instr =>
        { instr with operand }) = front.map Entry.instr ++
          { entry.instr with operand } :: back.map Entry.instr := by
    rw [← length, ← List.length_map Entry.instr]
    exact modify_length _ _ _ _
  rw [changed]
  simp only [List.flatMap_append, List.flatMap_cons, Instruction.encode, wide, if_true]
  simp [List.take_append, List.drop_append, List.take_of_length_le, List.drop_of_length_le]

/-! ## The main statement -/

namespace Operation

/-- The operand of an operation fits, at the end of so many bytes. -/
def Fits (position : Nat) : Operation → Prop
  | .emit _ operand => operand < 65536
  | .patch _ operand => operand < 65536
  | .patchHere _ => position < 65536
  | .branchTo _ target => target < 65536
  | _ => True

/-- An operation uses no label but those handed out. -/
def Uses (labels : Nat) : Operation → Prop
  | .patch label _ => label < labels
  | .patchHere label => label < labels
  | _ => True

end Operation

theorem run_concat (operations : List Operation) (operation : Operation) :
    Builder.run (operations ++ [operation]) = (Builder.run operations).step operation := by
  simp [Builder.run]

/-- An operation succeeds exactly when its operand fits. -/
theorem perform_eq_error_iff {builder : Builder} {operation : Operation}
    (uses : operation.Uses builder.labels.length) :
    (∃ problem, builder.perform operation = .error problem) ↔
      ¬ operation.Fits builder.buffer.size := by
  have checked (op : Opcode) (operand : Nat) (change : UInt16 → Buffer) :
      (∃ problem, ((Buffer.operand16 op operand).map change).map builder.withBuffer =
        .error problem) ↔ ¬ operand < 65536 := by
    by_cases small : operand < 65536 <;> simp [Buffer.operand16, small, Except.map]
  have patched {number : Nat} (inside : number < builder.labels.length) (operand : Nat) :
      (∃ problem, (builder.patching number fun label => builder.buffer.patch label operand) =
        .error problem) ↔ ¬ operand < 65536 := by
    rw [Builder.patching, List.getElem?_eq_getElem inside]
    exact checked _ _ _
  cases operation with
  | emit op operand => exact checked _ _ _
  | emitSimple op => simp [Builder.perform, Operation.Fits]
  | reserve op => simp [Builder.perform, Operation.Fits]
  | patch number operand => exact patched uses operand
  | patchHere number => exact patched uses builder.buffer.size
  | branchTo op target => exact checked _ _ _

/-- Every builder holds the entries of what it went through. -/
theorem exists_tracks (operations : List Operation) :
    ∃ entries, Tracks (Builder.run operations) entries ∧
      entries.map Entry.instr =
        (Operation.listing 0 0 operations).map Located.instruction := by
  exact Tracks.empty.run operations

theorem size_run (operations : List Operation) :
    (Builder.run operations).buffer.size = Operation.sizeOfAll operations := by
  have grown := Tracks.empty.size_run operations
  rwa [show (Builder.buffer {}).size = 0 from rfl, Nat.zero_add] at grown

theorem decodeAll_run (operations : List Operation) :
    decodeAll (Builder.run operations).buffer.bytes = .ok (Operation.listing 0 0 operations) := by
  obtain ⟨entries, tracks, equal⟩ := exists_tracks operations
  have canonical : ∀ instr ∈ entries.map Entry.instr, instr.Canonical := by
    simpa using tracks.canonical
  rw [Buffer.bytes, tracks.instructions, decodeAll_flatMap_encode canonical, equal, locate_listing]

/-- Building and reading are inverse to each other.  The bytes of a buffer are
read as what was added to it, each at the position at which it was added, and a
refused operation changes nothing.  A patch writes over two bytes.  Bytes are
read as instructions exactly when they are the bytes of these, and otherwise
reading stops at the first instruction that is unknown or cut short. -/
theorem decodeAll_inverse :
    (∀ operations : List Operation,
      decodeAll (Builder.run operations).buffer.bytes = .ok (Operation.listing 0 0 operations) ∧
      (Builder.run operations).buffer.size = Operation.sizeOfAll operations ∧
      (∀ operation : Operation, operation.Uses (Builder.run operations).labels.length →
        ((∃ problem, (Builder.run operations).perform operation = .error problem) ↔
          ¬ operation.Fits (Builder.run operations).buffer.size) ∧
        (¬ operation.Fits (Builder.run operations).buffer.size →
          Builder.run (operations ++ [operation]) = Builder.run operations)) ∧
      ∀ label ∈ (Builder.run operations).labels, ∀ operand,
        ((Builder.run operations).buffer.setOperand label operand).bytes =
          writeOperand (Builder.run operations).buffer.bytes label.position operand) ∧
    (∀ bytes code, decodeAll bytes = .ok code ↔
      ∃ row : List Instruction, (∀ instr ∈ row, instr.Canonical) ∧
        bytes = row.flatMap Instruction.encode ∧ code = locate row 0) ∧
    ∀ bytes error, decodeAll bytes = .error error ↔
      ∃ (row : List Instruction) (rest : List UInt8), (∀ instr ∈ row, instr.Canonical) ∧
        bytes = row.flatMap Instruction.encode ++ rest ∧ Stuck (rowSize row) rest error := by
  refine ⟨fun operations => ⟨decodeAll_run operations, size_run operations, ?_, ?_⟩,
    fun _ _ => decodeAll_eq_ok_iff, fun _ _ => decodeAll_eq_error_iff⟩
  · intro operation uses
    refine ⟨perform_eq_error_iff uses, fun large => ?_⟩
    obtain ⟨problem, refused⟩ := (perform_eq_error_iff uses).mpr large
    rw [run_concat, Builder.step, refused]
    rfl
  · intro label member operand
    obtain ⟨entries, tracks, -⟩ := exists_tracks operations
    exact tracks.bytes_setOperand member operand

end NewtonScript.Bytecode
