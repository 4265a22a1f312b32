import NewtonScript.Table
import NewtonScript.Tree

/-!
# Scopes

Every function has a scope, and so has the top level: its arguments and
locals, its constants, and what is known about who refers to them.  The scopes
of one command are numbered, the top level first, and each names the scope of
the function around it.
-/

namespace NewtonScript

/-- The number of a scope. -/
abbrev ScopeId := Nat

/-- Where a variable lives at run time. -/
inductive Location where
  /-- In a slot of its own function. -/
  | slot
  /-- In a slot that a function inside refers to. -/
  | closedOver
  /-- Wherever it is found at run time. -/
  | environment
deriving DecidableEq, Repr

/-- What a name stands for. -/
inductive Resolved where
  /-- A variable of the function, by its place among arguments and locals. -/
  | slot (index : Nat)
  | constant (value : Value)
  /-- A variable of a function around it. -/
  | outer
  | environment

/-- What is known about one function. -/
structure Scope where
  parent : Option ScopeId
  span : Span
  name : Option Symbol := none
  native : Bool := false
  args : List Symbol := []
  locals : List Symbol := []
  constants : Table Symbol Value := .empty
  locations : Table Symbol Location := .empty
  /-- How often the function refers to each of its own variables. -/
  references : Table Symbol Nat := .empty
  /-- The indices of `for` loops. -/
  loopIndices : List Symbol := []
  /-- The names declared with `local`. -/
  explicitLocals : List Symbol := []
  /-- Whether the receiver is needed. -/
  usesSelf : Bool := false
  /-- Whether variables of functions around it are referred to. -/
  capturesOuter : Bool := false
  /-- Whether a function inside refers to a variable of this one. -/
  hasClosedOver : Bool := false
deriving Inhabited

namespace Scope

/-- The variables in the order of their slots: the arguments, then the
locals. -/
def names (scope : Scope) : List Symbol :=
  scope.args ++ scope.locals

/-- Whether a name is a variable of the function. -/
def owns (scope : Scope) (name : Symbol) : Bool :=
  scope.args.contains name || scope.locals.contains name

/-- The slot of a variable of the function. -/
def slotOf? (scope : Scope) (name : Symbol) : Option Nat :=
  scope.names.findIdx? (· == name)

/-- Whether a name is the index of a `for` loop and neither an argument nor
declared with `local`. -/
def isBareLoopIndex (scope : Scope) (name : Symbol) : Bool :=
  scope.loopIndices.contains name && !scope.explicitLocals.contains name && !scope.args.contains name

/-- Add a local behind the variables so far. -/
def addLocal (scope : Scope) (name : Symbol) : Scope :=
  { scope with locals := scope.locals ++ [name] }

/-- Add a name to a list of distinct names. -/
def addName (names : List Symbol) (name : Symbol) : List Symbol :=
  if names.contains name then names else names ++ [name]

end Scope

/-- The scopes of one command, and the scope of each function literal. -/
structure Scopes where
  scopes : Array Scope
  byFunction : Table FuncId ScopeId := .empty
deriving Inhabited

namespace Scopes

/-- The scope of the top level. -/
def root : ScopeId := 0

/-- Only the top level, which covers the given region. -/
def ofSpan (span : Span) : Scopes :=
  { scopes := #[{ parent := none, span }] }

/-- The scope with a number. -/
def get (scopes : Scopes) (id : ScopeId) : Scope :=
  scopes.scopes.getD id default

/-- Change a scope. -/
def update (scopes : Scopes) (id : ScopeId) (change : Scope → Scope) : Scopes :=
  { scopes with scopes := scopes.scopes.modify id change }

/-- Add the scope of a function literal. -/
def add (scopes : Scopes) (scope : Scope) (function : FuncId) : ScopeId × Scopes :=
  let id := scopes.scopes.size
  (id, { scopes := scopes.scopes.push scope, byFunction := scopes.byFunction.insert function id })

/-- The scope of a function literal. -/
def scopeOf? (scopes : Scopes) (function : FuncId) : Option ScopeId :=
  scopes.byFunction.get? function

/-- A scope and those around it, innermost first, at most this many. -/
def climb (scopes : Scopes) : Nat → ScopeId → List ScopeId
  | 0, _ => []
  | steps + 1, id =>
      match (scopes.get id).parent with
      | some parent => id :: scopes.climb steps parent
      | none => [id]

/-- A scope and all those around it, innermost first.  A scope is numbered
after the one around it, so there are no more of them than its number. -/
def chain (scopes : Scopes) (id : ScopeId) : List ScopeId :=
  scopes.climb (id + 1) id

/-- The constant that a name stands for along a chain.  A variable hides the
constants of the functions around it. -/
def constantAlong (scopes : Scopes) (name : Symbol) : List ScopeId → Option Value
  | [] => none
  | id :: rest =>
      let scope := scopes.get id
      if scope.owns name then
        none
      else
        match scope.constants.get? name with
        | some value => some value
        | none => scopes.constantAlong name rest

/-- The local constant that a name stands for in a scope. -/
def constant? (scopes : Scopes) (id : ScopeId) (name : Symbol) : Option Value :=
  scopes.constantAlong name (scopes.chain id)

/-- What a name stands for in a scope, global constants apart. -/
def resolve (scopes : Scopes) (id : ScopeId) (name : Symbol) : Resolved :=
  match (scopes.get id).slotOf? name with
  | some index => .slot index
  | none =>
      match scopes.constant? id name with
      | some value => .constant value
      | none =>
          if ((scopes.chain id).drop 1).any fun outer => (scopes.get outer).owns name then
            .outer
          else
            .environment

end Scopes

end NewtonScript
