import NewtonScript.Store

/-!
# The hidden variables of loops

A loop keeps its state in variables whose names no program can write by
accident: the names of the loop variables and a word, with bars between them.
-/

namespace NewtonScript

/-- The spelling of a hidden variable: the loop variables and a word, with
bars between them. -/
def hiddenSpelling (parts : List Symbol) (word : String) : String :=
  parts.foldr (fun part out => part.spelling ++ "|" ++ out) word

/-- The interned name of a hidden variable. -/
def hiddenName (parts : List Symbol) (word : String) (store : Store) : Symbol × Store :=
  store.intern (hiddenSpelling parts word)

/-- The name of the iterator of a `foreach` loop over these variables. -/
def iteratorName (value : Symbol) (key : Option Symbol) (store : Store) : Symbol × Store :=
  match key with
  | some key => hiddenName [value, key] "iter" store
  | none => hiddenName [value] "iter" store

end NewtonScript
