/-!
# Compilation options

Two layouts of code blocks exist.  In the native one a function carries a
frame template only when it needs one, and the argument word also counts its
locals; in the Newton 2.0 one every function carries a template.
-/

namespace NewtonScript

/-- The layout of call-frame templates and of the argument word. -/
inductive Compatibility where
  | native
  | newton20
deriving DecidableEq, Repr, Inhabited

namespace Compatibility

/-- The name of a mode. -/
def text : Compatibility → String
  | native => "native"
  | newton20 => "newton20"

/-- The layout that a text names, in any case. -/
def ofText? (text : String) : Option Compatibility :=
  match String.ofList (text.toList.map Char.toLower) with
  | "native" => some native
  | "newton20" => some newton20
  | "newton2.0" => some newton20
  | "2.0" => some newton20
  | _ => none

/-- What is said of a text that names no layout. -/
def unknownMessage (text : String) : String :=
  "unknown compatibility mode `" ++ String.ofList (text.toList.map Char.toLower) ++ "`"

end Compatibility

/-- The choices of one compilation. -/
structure Options where
  compat : Compatibility := .native
  /-- Attach the names of functions, arguments and locals to code blocks. -/
  debugNames : Bool := false
  /-- Stop after the first top-level command. -/
  firstOnly : Bool := false
  /-- Collect warnings. -/
  warnings : Bool := true
deriving DecidableEq, Repr, Inhabited

end NewtonScript
