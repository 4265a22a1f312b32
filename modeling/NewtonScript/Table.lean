/-!
# Tables

A table binds keys to values.  Keys are compared with `==`; no two keys of a
table are equal, and a key that is bound again keeps its place and its first
form.
-/

namespace NewtonScript

universe u v

/-- Keys with their values, the one that was bound last in front. -/
structure Table (κ : Type u) (ν : Type v) where
  entries : List (κ × ν) := []
deriving Inhabited

namespace Table

variable {κ : Type u} {ν : Type v} [BEq κ]

def empty : Table κ ν := {}

/-- What a key is bound to. -/
def get? (table : Table κ ν) (key : κ) : Option ν :=
  (table.entries.find? fun entry => entry.1 == key).map Prod.snd

/-- Whether a key is bound. -/
def contains (table : Table κ ν) (key : κ) : Bool :=
  table.entries.any fun entry => entry.1 == key

/-- Bind a key to a value; an earlier value of the key is replaced. -/
def insert (table : Table κ ν) (key : κ) (value : ν) : Table κ ν :=
  if table.contains key then
    ⟨table.entries.map fun entry => if entry.1 == key then (entry.1, value) else entry⟩
  else
    ⟨(key, value) :: table.entries⟩

/-- Bind a key to a value unless it is bound already. -/
def insertNew (table : Table κ ν) (key : κ) (value : ν) : Table κ ν :=
  if table.contains key then table else ⟨(key, value) :: table.entries⟩

/-- Bind distinct keys to one value, except those that are bound already. -/
def insertEachNew (table : Table κ ν) (keys : List κ) (value : ν) : Table κ ν :=
  ⟨(keys.filter fun key => !table.contains key).map (·, value) ++ table.entries⟩

end Table

end NewtonScript
