import NewtonScript.Scope

/-!
# Frame layouts

A call frame starts with three slots of its own, and the variables of the
function follow.  A function without a frame keeps its variables on the stack,
numbered from zero.
-/

namespace NewtonScript

/-- The slots with which every frame template starts. -/
def frameHeader : List String := ["_nextArgFrame", "_parent", "_implementor"]

/-- Whether a function carries a frame template, the number of its first
variable, and its argument word. -/
structure FrameLayout where
  hasFrame : Bool
  base : Nat
  numArgs : UInt32
deriving DecidableEq, Repr, Inhabited

namespace FrameLayout

/-- Whether a function carries a frame template.  In the native layout it does
when it needs the receiver or shares variables with other functions. -/
def needsFrame (scope : Scope) : Compatibility → Bool
  | .newton20 => true
  | .native => scope.usesSelf || scope.hasClosedOver || scope.capturesOuter

/-- The argument word of a function.  The native one counts the locals in its
upper half. -/
def argumentWord (scope : Scope) : Compatibility → UInt32
  | .newton20 => scope.args.length.toUInt32
  | .native => scope.locals.length.toUInt32 <<< 16 ||| scope.args.length.toUInt32

/-- The layout of the function with a scope. -/
def ofScope (scope : Scope) (compat : Compatibility) : FrameLayout :=
  { hasFrame := needsFrame scope compat
    base := if needsFrame scope compat then frameHeader.length else 0
    numArgs := argumentWord scope compat }

/-- The number by which instructions refer to a variable. -/
def varIndex (layout : FrameLayout) (slot : Nat) : Nat :=
  layout.base + slot

end FrameLayout

end NewtonScript
