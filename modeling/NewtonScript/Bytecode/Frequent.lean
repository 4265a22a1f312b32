import NewtonScript.Symbol

/-!
# Frequent functions

The machine calls some functions by number instead of by name.  A call of one
of them by its name, with as many arguments as it takes, is such a call too.
-/

namespace NewtonScript.Bytecode

/-- The functions that have a number. -/
inductive Frequent where
  | add
  | subtract
  | aref
  | setAref
  | equals
  | complement
  | notEquals
  | multiply
  | divide
  | intDivide
  | less
  | greater
  | greaterEqual
  | lessEqual
  | bitAnd
  | bitOr
  | bitNot
  | newIterator
  | length
  | clone
  | setClass
  | addArraySlot
  | stringer
  | hasPath
  | classOf
deriving DecidableEq, Repr, Inhabited

namespace Frequent

/-- The frequent functions in the order of their numbers. -/
def all : List Frequent :=
  [add, subtract, aref, setAref, equals, complement, notEquals, multiply, divide, intDivide, less,
    greater, greaterEqual, lessEqual, bitAnd, bitOr, bitNot, newIterator, length, clone, setClass,
    addArraySlot, stringer, hasPath, classOf]

/-- The place in the table of frequent functions. -/
def index : Frequent → Nat
  | add => 0
  | subtract => 1
  | aref => 2
  | setAref => 3
  | equals => 4
  | complement => 5
  | notEquals => 6
  | multiply => 7
  | divide => 8
  | intDivide => 9
  | less => 10
  | greater => 11
  | greaterEqual => 12
  | lessEqual => 13
  | bitAnd => 14
  | bitOr => 15
  | bitNot => 16
  | newIterator => 17
  | length => 18
  | clone => 19
  | setClass => 20
  | addArraySlot => 21
  | stringer => 22
  | hasPath => 23
  | classOf => 24

/-- The name under which a function is listed. -/
def text : Frequent → String
  | add => "+"
  | subtract => "-"
  | aref => "aref"
  | setAref => "setAref"
  | equals => "="
  | complement => "not"
  | notEquals => "<>"
  | multiply => "*"
  | divide => "/"
  | intDivide => "div"
  | less => "<"
  | greater => ">"
  | greaterEqual => ">="
  | lessEqual => "<="
  | bitAnd => "BAnd"
  | bitOr => "BOr"
  | bitNot => "BNot"
  | newIterator => "newIterator"
  | length => "Length"
  | clone => "Clone"
  | setClass => "SetClass"
  | addArraySlot => "AddArraySlot"
  | stringer => "Stringer"
  | hasPath => "hasPath"
  | classOf => "ClassOf"

/-- The number of arguments. -/
def arity : Frequent → Nat
  | setAref => 3
  | complement => 1
  | bitNot => 1
  | length => 1
  | clone => 1
  | stringer => 1
  | classOf => 1
  | _ => 2

/-- The function at a place of the table. -/
def ofIndex? (index : Nat) : Option Frequent :=
  all[index]?

/-- The function that a call names, in any case, if the number of arguments is
right. -/
def ofCall? (name : String) (count : Nat) : Option Frequent :=
  let folded := foldCase name
  all.find? fun function => foldCase function.text == folded && function.arity == count

@[simp]
theorem ofIndex?_index (function : Frequent) : ofIndex? function.index = some function := by
  cases function <;> rfl

end Frequent

end NewtonScript.Bytecode
