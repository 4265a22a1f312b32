import NewtonScript.Emission
import NewtonScript.Proofs.Code.Primitive

/-!
# Pieces of structured code

The code of names, functions and other pieces of a tree, without positions and
without numbers of literals.

Along the way through a tree the operands are counted that wait on the stack
while a part of it is evaluated, and the handler tables that are installed.  A
break counts from the entry of the loop that it leaves, a return from the
beginning of its function.
-/

namespace NewtonScript.Emission

open Bytecode

/-- Operands and handler tables around the place where a part is evaluated. -/
structure Pending where
  /-- The operands that wait since the function began. -/
  operands : Nat := 0
  /-- The operands that wait since the innermost loop was entered. -/
  sinceLoop : Nat := 0
  /-- The handler tables installed since the innermost loop was entered. -/
  handlers : Nat := 0

namespace Pending

/-- More operands wait. -/
def below (pending : Pending) (count : Nat) : Pending :=
  { pending with
    operands := pending.operands + count
    sinceLoop := pending.sinceLoop + count }

/-- A loop is entered. -/
def insideLoop (pending : Pending) : Pending :=
  { pending with sinceLoop := 0, handlers := 0 }

/-- Handlers are installed. -/
def guarded (pending : Pending) : Pending :=
  { pending with handlers := pending.handlers + 1 }

/-- What stands between a break and its loop. -/
def mark (pending : Pending) : Mark :=
  ⟨pending.sinceLoop, pending.handlers⟩

end Pending

/-! ## Short pieces -/

/-- The code of one primitive. -/
abbrev one (primitive : Primitive) : Fragment Primitive :=
  .plain primitive

/-- The code of an operation without operand. -/
abbrev oneSimple (op : SimpleOp) : Fragment Primitive :=
  .plain (.simple op)

/-- Push the name with a spelling. -/
abbrev spelled (spelling : String) : Fragment Primitive :=
  .plain (.value (.symbol (.ofString spelling)))

instance {α : Type} : Append (Fragment α) := ⟨.append⟩

/-- Code that is there only under a condition. -/
def onlyIf (condition : Bool) (code : Fragment Primitive) : Fragment Primitive :=
  if condition then code else .empty

/-- Call a global function by its name. -/
def callCode (spelling : String) (count : Nat) : Fragment Primitive :=
  spelled spelling ++ one (.op .call count)

/-- The number of texts that an operator puts between its operands. -/
def separatorCount : BinaryOp → Nat
  | .concatSpace => 1
  | _ => 0

/-- The key of a path. -/
def pathCode : List Symbol → Fragment Primitive
  | [slot] => one (.value (.symbol slot))
  | slots => one (.path slots)

/-- The number of texts that a node joins. -/
def textCount : Node → Nat
  | ⟨.binary .concat lhs rhs, _⟩ => textCount lhs + textCount rhs
  | ⟨.binary .concatSpace lhs rhs, _⟩ => textCount lhs + 1 + textCount rhs
  | _ => 1

/-- What an assignment to a node changes. -/
def targetOf : Node → Target
  | ⟨.name name, span⟩ => .variable name span
  | ⟨.path _ _, _⟩ => .path
  | ⟨.index _ _, _⟩ => .element
  | ⟨_, span⟩ => .variable default span

/-- The number of operands that the parts of a target leave on the stack. -/
def Target.depth : Target → Nat
  | .variable _ _ => 0
  | .path => 2
  | .element => 2

/-- Whether a value stays on the stack when a target is assigned to. -/
def Target.leaves (discard : Bool) : Target → Bool
  | .variable _ _ => !discard
  | .path => !discard
  | .element => true

mutual

/-- Whether the code of a node leaves a value on the stack. -/
def leavesValue : Node → Bool → Bool
  | ⟨.literal _, _⟩, discard => !discard
  | ⟨.name _, _⟩, discard => !discard
  | ⟨.selfRef, _⟩, discard => !discard
  | ⟨.begin items, _⟩, discard => leavesLast items discard
  | ⟨.logical _ _ _, _⟩, discard => !discard
  | ⟨.assign target _, _⟩, discard => (targetOf target).leaves discard
  | ⟨.localDecl _, _⟩, discard => !discard
  | ⟨.constantDecl _, _⟩, discard => !discard
  | ⟨.func .., _⟩, discard => !discard
  | ⟨.ifThen _ _ _, _⟩, discard => !discard
  | ⟨.loop _, _⟩, discard => !discard
  | ⟨.whileLoop _ _, _⟩, discard => !discard
  | ⟨.repeatLoop _ _, _⟩, discard => !discard
  | ⟨.forLoop .., _⟩, discard => !discard
  | ⟨.foreachLoop .., _⟩, discard => !discard
  | ⟨.tryCatch _ _, _⟩, discard => !discard
  | ⟨.breakLoop _, _⟩, discard => !discard
  | ⟨.returnValue _, _⟩, discard => !discard
  | _, _ => true

/-- Whether the code of a sequence leaves a value on the stack. -/
def leavesLast : List Node → Bool → Bool
  | [], discard => !discard
  | [last], discard => leavesValue last discard
  | _ :: next :: rest, discard => leavesLast (next :: rest) discard

end

mutual

/-- A node that is emitted for its value leaves it. -/
@[simp]
theorem leavesValue_false : (node : Node) → leavesValue node false = true
  | ⟨expr, span⟩ => by
    cases expr with
    | begin items =>
      rw [leavesValue]
      exact leavesLast_false items
    | assign target assigned =>
      rw [leavesValue]
      cases targetOf target <;> rfl
    | _ => simp [leavesValue]

@[simp]
theorem leavesLast_false : (items : List Node) → leavesLast items false = true
  | [] => rfl
  | [last] => by
    rw [leavesLast]
    exact leavesValue_false last
  | _ :: next :: rest => by
    rw [leavesLast]
    exact leavesLast_false (next :: rest)

end

/-- Code for the effect of a node: what it leaves is popped. -/
def effectCode (node : Node) (code : Bool → Fragment Primitive) : Fragment Primitive :=
  code true ++ onlyIf (leavesValue node true) (oneSimple .pop)

/-- Code for the effect of a node or for its value. -/
def armCode (node : Node) (discard : Bool) (code : Bool → Fragment Primitive) :
    Fragment Primitive :=
  if discard then effectCode node code else code false

/-- Push `nil`. -/
abbrev nilCode : Fragment Primitive :=
  one (.value .nil)

/-! ## Names -/

/-- What a name stands for in a function.  Global constants count only for
names that no function around declares. -/
def resolvedIn (ctx : Context) (globals : Table Symbol Value) (name : Symbol) : Resolved :=
  match ctx.scopes.resolve ctx.scope name with
  | .environment =>
    match globals.get? name with
    | some value => .constant value
    | none => .environment
  | found => found

/-- The slot of a variable of the function.  Other names get a slot that no
operand holds. -/
def slotIn (ctx : Context) (name : Symbol) : Nat :=
  ((ctx.scopes.get ctx.scope).slotOf? name).getD 65536

/-- The slot of a hidden variable of the function. -/
def hiddenSlot (ctx : Context) (parts : List Symbol) (word : String) : Nat :=
  slotIn ctx (.ofString (hiddenSpelling parts word))

/-- Push what a name stands for. -/
def nameCode (ctx : Context) (globals : Table Symbol Value) (name : Symbol) :
    Fragment Primitive :=
  match resolvedIn ctx globals name with
  | .slot slot => one (.getVar slot)
  | .constant value => one (.value value)
  | _ => one (.lookup name)

/-- Pop a value into a variable; with `keep` a copy of it stays. -/
def storeCode (ctx : Context) (globals : Table Symbol Value) (name : Symbol) (keep : Bool) :
    Fragment Primitive :=
  match resolvedIn ctx globals name with
  | .slot slot => onlyIf keep (oneSimple .dup) ++ one (.setVar slot)
  | .constant _ => onlyIf (!keep) (oneSimple .pop)
  | _ => onlyIf keep (oneSimple .dup) ++ one (.assign name)

/-- Push whether a name stands for something. -/
def nameExistsCode (ctx : Context) (globals : Table Symbol Value) (name : Symbol) :
    Fragment Primitive :=
  match resolvedIn ctx globals name with
  | .environment => one (.value (.symbol name)) ++ callCode "HasVar" 1
  | _ => one (.value .truth)

/-- Whether the code block of a function literal needs the variables around
it. -/
def needsContext (ctx : Context) (id : FuncId) : Bool :=
  match ctx.scopes.scopeOf? id with
  | some inner => FrameLayout.needsFrame (ctx.scopes.get inner) ctx.options.compat
  | none => false

/-- Push the code block of a function literal. -/
def functionCode (ctx : Context) (id : FuncId) (discard : Bool) : Fragment Primitive :=
  onlyIf (!discard) (one (.function id) ++ onlyIf (needsContext ctx id) (oneSimple .setLexScope))

end NewtonScript.Emission
