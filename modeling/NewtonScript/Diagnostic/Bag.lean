import NewtonScript.Diagnostic.Fault

/-!
# Collected diagnostics

Warnings and errors are collected in the order in which they are reported.  A
silent bag drops warnings that are reported to it; errors are always kept.
-/

namespace NewtonScript

/-- A report without its file. -/
structure Diagnostic where
  code : Code
  message : String
  span : Span

namespace Diagnostic

/-- A report with the default message of its code. -/
def ofCode (code : Code) (span : Span) : Diagnostic :=
  ⟨code, code.message, span⟩

/-- The report of an error. -/
def ofError (error : CompileError) : Diagnostic :=
  ⟨error.code, error.message, error.span⟩

/-- The level of a report is that of its code. -/
def level (diagnostic : Diagnostic) : Level :=
  diagnostic.code.level

/-- A name that is declared a second time. -/
def duplicateName (name : Symbol) (span : Span) : Diagnostic :=
  ⟨.duplicateName, "Duplicate name `" ++ name.text ++ "`", span⟩

/-- A comparison whose result is thrown away. -/
def standaloneEquals (span : Span) : Diagnostic :=
  ⟨.standaloneEquals, "Stand-alone `=` compares and throws the result away; did you mean `:=`?", span⟩

/-- An expression without effect whose value is thrown away. -/
def unusedValue (span : Span) : Diagnostic :=
  ⟨.unusedValue, "The value of this expression is never used", span⟩

end Diagnostic

/-- The reports so far, the latest first, and whether warnings are kept. -/
structure DiagnosticBag where
  reversed : List Diagnostic := []
  keepsWarnings : Bool := true
deriving Inhabited

namespace DiagnosticBag

/-- An empty bag that keeps everything. -/
def empty : DiagnosticBag := {}

/-- An empty bag that drops warnings. -/
def silent : DiagnosticBag := { keepsWarnings := false }

/-- The reports in order. -/
def toList (bag : DiagnosticBag) : List Diagnostic :=
  bag.reversed.reverse

/-- Add a report; warnings may be dropped. -/
def report (bag : DiagnosticBag) (diagnostic : Diagnostic) : DiagnosticBag :=
  if diagnostic.level = .warning ∧ bag.keepsWarnings = false then
    bag
  else
    { bag with reversed := diagnostic :: bag.reversed }

/-- Add an error. -/
def reportError (bag : DiagnosticBag) (error : CompileError) : DiagnosticBag :=
  { bag with reversed := .ofError error :: bag.reversed }

/-- Whether there is an error. -/
def hasErrors (bag : DiagnosticBag) : Bool :=
  bag.reversed.any fun diagnostic => diagnostic.level == .error

def size (bag : DiagnosticBag) : Nat :=
  bag.reversed.length

def warningCount (bag : DiagnosticBag) : Nat :=
  bag.reversed.countP fun diagnostic => diagnostic.level == .warning

def isEmpty (bag : DiagnosticBag) : Bool :=
  bag.reversed.isEmpty

/-- The reports, and the bag without them. -/
def take (bag : DiagnosticBag) : List Diagnostic × DiagnosticBag :=
  (bag.toList, { bag with reversed := [] })

end DiagnosticBag

end NewtonScript
