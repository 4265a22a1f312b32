import NewtonScript.Value

/-!
# Sameness of values

Two relations on values.  `sameLiteral` decides whether two values may share
one place in a literal pool: immediates and names by value, numbers by their
bits, heap objects by the number they were made with.  `contentEq` compares
contents all the way down, numbers as numbers.
-/

namespace NewtonScript

/-- Whether two values are one literal. -/
def Value.sameLiteral : Value → Value → Bool
  | .nil, .nil => true
  | .truth, .truth => true
  | .int a, .int b => a == b
  | .char a, .char b => a == b
  | .magic a, .magic b => a == b
  | .real a, .real b => a.bits == b.bits
  | .symbol a, .symbol b => a == b
  | .string a _, .string b _ => a == b
  | .array a _ _, .array b _ _ => a == b
  | .frame a _ _, .frame b _ _ => a == b
  | .map a, .map b => a.id == b.id
  | .block a _, .block b _ => a == b
  | _, _ => false

/-- Maps with the same slots in the same order, both shared or both private. -/
def FrameMap.contentEq (first second : FrameMap) : Bool :=
  first.slots == second.slots && first.shared == second.shared

def DebugNames.contentEq (first second : DebugNames) : Bool :=
  first.name == second.name && first.args == second.args && first.locals == second.locals

mutual

/-- Whether two values have equal contents. -/
def Value.contentEq : Value → Value → Bool
  | .nil, .nil => true
  | .truth, .truth => true
  | .int a, .int b => a == b
  | .char a, .char b => a == b
  | .real a, .real b => a.numericEq b
  | .symbol a, .symbol b => a == b
  | .string _ a, .string _ b => a == b
  | .magic a, .magic b => a == b
  | .array _ c a, .array _ d b => c == d && Value.contentEqAll a b
  | .frame _ m a, .frame _ n b => m.contentEq n && Value.contentEqAll a b
  | .map m, .map n => m.contentEq n
  | .block _ a, .block _ b => CodeBlock.contentEq a b
  | _, _ => false

/-- Whether values have the same content, one by one. -/
def Value.contentEqAll : List Value → List Value → Bool
  | [], [] => true
  | a :: as, b :: bs => Value.contentEq a b && Value.contentEqAll as bs
  | _, _ => false

/-- Whether two code blocks agree in every part. -/
def CodeBlock.contentEq : CodeBlock → CodeBlock → Bool
  | ⟨code, literals, numArgs, argFrame, debug, compat⟩, other =>
      code == other.code &&
        (match literals, other.literals with
          | some a, some b => Value.contentEqAll a b
          | none, none => true
          | _, _ => false) &&
        numArgs == other.numArgs &&
        (match argFrame, other.argFrame with
          | some a, some b => Value.contentEq a b
          | none, none => true
          | _, _ => false) &&
        (match debug, other.debug with
          | some a, some b => a.contentEq b
          | none, none => true
          | _, _ => false) &&
        compat == other.compat

end

end NewtonScript
