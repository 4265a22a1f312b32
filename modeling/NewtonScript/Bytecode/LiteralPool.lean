import NewtonScript.Value.Identity

/-!
# Literal pools

The literals of one function, numbered in the order in which they were first
used.  A literal that is used again keeps its number.
-/

namespace NewtonScript.Bytecode

/-- The literals of a function in order. -/
structure LiteralPool where
  values : Array Value := #[]
deriving Inhabited

namespace LiteralPool

def empty : LiteralPool := {}

def size (pool : LiteralPool) : Nat :=
  pool.values.size

def isEmpty (pool : LiteralPool) : Bool :=
  pool.values.isEmpty

/-- The number of a literal that is there. -/
def indexOf? (pool : LiteralPool) (value : Value) : Option Nat :=
  pool.values.findIdx? fun known => known.sameLiteral value

/-- The number of a literal, which is added when it is new. -/
def add (pool : LiteralPool) (value : Value) : Nat × LiteralPool :=
  match pool.indexOf? value with
  | some index => (index, pool)
  | none => (pool.size, ⟨pool.values.push value⟩)

/-- The literals of a finished function, if there are any. -/
def toLiterals? (pool : LiteralPool) : Option (List Value) :=
  if pool.isEmpty then none else some pool.values.toList

end LiteralPool

end NewtonScript.Bytecode
