import Mathlib.Algebra.Ring.Nat
import NewtonScript.Proofs.Tree.Occurs
import NewtonScript.Proofs.Tree.View

/-!
# What is read, up to its place

The same text can be read at different places and from different stores.  What
is read then differs in its regions and in the numbers of its function
literals, which are moved along, in the spellings of its names, and in the
numbers of its heap objects.  The normal form of what is read forgets the
latter and moves the former.
-/

namespace NewtonScript

/-- How far a text is moved: by how many bytes, lines and function literals. -/
structure Shift where
  bytes : Nat := 0
  lines : Nat := 0
  functions : Nat := 0

/-! ## Regions and names -/

/-- A region that is moved. -/
def Span.moved (shift : Shift) (span : Span) : Span :=
  ⟨span.start + shift.bytes, span.stop + shift.bytes, span.line + shift.lines⟩

@[simp]
theorem Span.join_moved (shift : Shift) (first second : Span) :
    (first.moved shift).join (second.moved shift) = (first.join second).moved shift := by
  unfold join moved
  by_cases before : second.start < first.start
  · simp [before, Nat.add_max_add_right]
  · simp [before, Nat.add_max_add_right]

/-- The name that stands for all spellings of a name. -/
def Symbol.normal (name : Symbol) : Symbol :=
  ofString name.folded

theorem Symbol.normal_eq_iff {first second : Symbol} :
    first.normal = second.normal ↔ first.folded = second.folded :=
  ⟨fun equal => congrArg spelling equal, fun equal => congrArg ofString equal⟩

/-- Interning keeps the name. -/
theorem Store.normal_intern (store : Store) (spelling : String) :
    (store.intern spelling).1.normal = (Symbol.ofString spelling).normal := by
  rw [Symbol.normal_eq_iff]
  unfold intern
  dsimp only
  split
  · rename_i known found
    exact Symbol.beq_iff.mp (Interned.beq_of_find? found)
  · rfl

/-! ## Values -/

mutual

/-- A value without the numbers of its objects. -/
def Value.normal : Value → Value
  | .symbol name => .symbol name.normal
  | .string _ text => .string 0 text
  | .array _ className elements => .array 0 className.normal (Value.normalAll elements)
  | .frame _ shape values =>
    .frame 0 ⟨0, shape.slots.map Symbol.normal, shape.shared⟩ (Value.normalAll values)
  | value => value

/-- Values without the numbers of their objects. -/
def Value.normalAll : List Value → List Value
  | [] => []
  | value :: rest => value.normal :: Value.normalAll rest

end

@[simp]
theorem Value.normalAll_eq (values : List Value) : normalAll values = values.map normal := by
  induction values with
  | nil => rfl
  | cons value rest ih => simp [normalAll, ih]

/-! ## Trees -/

/-- What is read at another place, without the numbers of its objects. -/
abbrev View.moved (shift : Shift) : View where
  name := Symbol.normal
  value := Value.normal
  object _ := 0
  span := Span.moved shift
  function id := id + shift.functions
  join first second := (Span.join_moved shift first second).symm
  next id := Nat.add_right_comm id 1 shift.functions
  symbol same := congrArg Value.symbol same
  string _ _ := rfl
  array _ named same := by
    simp [Value.normal, named, same]
  frame _ _ named same := by
    simp [Value.normal, named, same]

/-- The normal form of a tree that is moved. -/
def Node.normal (shift : Shift) (node : Node) : Node :=
  node.seen (.moved shift)

/-- What is read at another place has the same normal form, moved. -/
theorem Matches.normal {shift : Shift} {nodes nodes' : List Node}
    (same : Matches (.moved shift) nodes nodes') :
    nodes.map (Node.normal shift) = nodes'.map (Node.normal {}) :=
  same.nodes

/-! ## Counting function literals -/

/-- The number of function literals of a tree. -/
def Node.functionCount (node : Node) : Nat :=
  node.functionIds.length

/-- The number of function literals of trees. -/
def Node.functionCountOf (nodes : List Node) : Nat :=
  (nodes.map functionCount).sum

theorem Node.functionCountOf_eq (nodes : List Node) :
    functionCountOf nodes = (nodes.flatMap functionIds).length :=
  (List.length_flatMap).symm

end NewtonScript
