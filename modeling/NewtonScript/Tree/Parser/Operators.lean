import NewtonScript.Tree.Parser.State

/-!
# Operators and their precedence

Operator expressions are read with two stacks, one of operands and one of
operators that wait for their last operand.  An operator that arrives first
applies every waiting one that binds at least as tightly, or more tightly when
the arriving one groups to the right.
-/

namespace NewtonScript

/-- An operator between two operands. -/
inductive Dyadic where
  | binary (op : BinaryOp)
  | logical (op : LogicalOp)
  | assign
deriving DecidableEq, Repr

/-- An operator between two operands, how tightly it binds, and whether it
groups to the right. -/
structure DyadicEntry where
  op : Dyadic
  precedence : Nat
  groupsRight : Bool := false
deriving DecidableEq, Repr

/-- The operator between two operands that a word is. -/
def Lexeme.dyadic? : Lexeme → Option DyadicEntry
  | .operator .assign => some ⟨.assign, 1, true⟩
  | .keyword .kwOr => some ⟨.logical .disjunction, 2, false⟩
  | .keyword .kwAnd => some ⟨.logical .conjunction, 3, false⟩
  | .operator .equal => some ⟨.binary .equal, 5, false⟩
  | .operator .notEqual => some ⟨.binary .notEqual, 5, false⟩
  | .operator .less => some ⟨.binary .less, 5, false⟩
  | .operator .greater => some ⟨.binary .greater, 5, false⟩
  | .operator .lessEqual => some ⟨.binary .lessEqual, 5, false⟩
  | .operator .greaterEqual => some ⟨.binary .greaterEqual, 5, false⟩
  | .operator .amp => some ⟨.binary .concat, 7, false⟩
  | .operator .ampAmp => some ⟨.binary .concatSpace, 7, false⟩
  | .operator .plus => some ⟨.binary .add, 8, false⟩
  | .operator .minus => some ⟨.binary .sub, 8, false⟩
  | .operator .star => some ⟨.binary .mul, 9, false⟩
  | .operator .slash => some ⟨.binary .div, 9, false⟩
  | .keyword .kwDiv => some ⟨.binary .intDiv, 9, false⟩
  | .keyword .kwMod => some ⟨.binary .mod, 9, false⟩
  | .operator .shiftLeft => some ⟨.binary .shiftLeft, 10, false⟩
  | .operator .shiftRight => some ⟨.binary .shiftRight, 10, false⟩
  | _ => none

/-- The operator in front of one operand that a word is, and how tightly it
binds. -/
def Lexeme.monadic? : Lexeme → Option (UnaryOp × Nat)
  | .operator .minus => some (.negate, 11)
  | .keyword .kwNot => some (.complement, 4)
  | _ => none

/-- How tightly `exists` binds, which stands behind its operand. -/
def existsPrecedence : Nat := 6

/-- An operator that waits for its last operand. -/
inductive Waiting where
  | dyadic (op : Dyadic) (precedence : Nat)
  | monadic (op : UnaryOp) (precedence : Nat) (span : Span)
deriving DecidableEq, Repr

namespace Waiting

/-- How tightly an operator binds. -/
def precedence : Waiting → Nat
  | dyadic _ precedence => precedence
  | monadic _ precedence _ => precedence

end Waiting

/-- An operator between operands. -/
def Dyadic.node (op : Dyadic) (lhs rhs : Node) : Node :=
  let span := lhs.span.join rhs.span
  match op with
  | .binary op => ⟨.binary op lhs rhs, span⟩
  | .logical op => ⟨.logical op lhs rhs, span⟩
  | .assign => ⟨.assign lhs rhs, span⟩

/-- Operands and waiting operators, the latest first. -/
structure OperatorStacks where
  operands : List Node := []
  operators : List Waiting := []

namespace OperatorStacks

/-- Apply an operator to the operands on top. -/
def apply : Waiting → List Node → List Node
  | .monadic op _ span, operand :: rest => ⟨.unary op operand, span.join operand.span⟩ :: rest
  | .dyadic op _, rhs :: lhs :: rest => op.node lhs rhs :: rest
  | _, operands => operands

/-- Apply waiting operators while their precedence satisfies the condition. -/
def applyWhile (holds : Nat → Bool) (operands : List Node) : List Waiting → OperatorStacks
  | [] => ⟨operands, []⟩
  | op :: rest =>
      if holds op.precedence then
        applyWhile holds (apply op operands) rest
      else
        ⟨operands, op :: rest⟩

/-- Apply what binds tighter than `exists`, then put `exists` behind the
operand on top.  The span is that of the word. -/
def applyExists (pending : OperatorStacks) : OperatorStacks :=
  applyWhile (fun precedence => existsPrecedence < precedence) pending.operands pending.operators

/-- Put `exists` behind the operand on top. -/
def pushExists (pending : OperatorStacks) (span : Span) : OperatorStacks :=
  match pending.operands with
  | operand :: rest =>
      { pending with operands := ⟨.existsTest operand, operand.span.join span⟩ :: rest }
  | [] => pending

/-- Apply what an arriving operator does not wait for. -/
def applyFor (pending : OperatorStacks) (entry : DyadicEntry) : OperatorStacks :=
  applyWhile
    (fun precedence =>
      entry.precedence < precedence || (precedence == entry.precedence && !entry.groupsRight))
    pending.operands pending.operators

/-- Let an operator wait. -/
def push (pending : OperatorStacks) (op : Waiting) : OperatorStacks :=
  { pending with operators := op :: pending.operators }

/-- The tree that is left when every operator is applied. -/
def result? (pending : OperatorStacks) : Option Node :=
  match (applyWhile (fun _ => true) pending.operands pending.operators).operands with
  | [node] => some node
  | _ => none

end OperatorStacks

namespace Parser

/-- Consume operators in front of an operand. -/
def monadicOperators : Nat → List Waiting → ParseM (List Waiting)
  | 0, _ => unexpected
  | bound + 1, operators => do
      match (← currentLexeme).monadic? with
      | some (op, precedence) =>
          let token ← advance
          monadicOperators bound (.monadic op precedence token.span :: operators)
      | none => return operators

/-- Consume every `exists` behind an operand. -/
def existsOperators : Nat → OperatorStacks → ParseM OperatorStacks
  | 0, _ => unexpected
  | bound + 1, pending => do
      match ← currentLexeme with
      | .keyword .kwExists =>
          let pending := pending.applyExists
          let token ← advance
          existsOperators bound (pending.pushExists token.span)
      | _ => return pending

/-- Whether the magnitude of the smallest integer is looked at. -/
def atMinMagnitude : ParseM Bool := do
  match ← currentLexeme with
  | .literal (.integer n) => return n == 536870912
  | _ => return false

/-- An operand and the operators that still wait in front of it.  A minus in
front of the magnitude of the smallest integer is part of the number. -/
def operandBehind (operand : ParseM Node) : List Waiting → ParseM (Node × List Waiting)
  | .monadic .negate precedence span :: rest => do
      if ← atMinMagnitude then
        let token ← advance
        return (⟨.literal (.int minInt), span.join token.span⟩, rest)
      else
        return (← operand, .monadic .negate precedence span :: rest)
  | operators => return (← operand, operators)

/-- Operands with the operators around them. -/
def operations (operand : ParseM Node) : Nat → OperatorStacks → ParseM Node
  | 0, _ => unexpectedFor .expression
  | bound + 1, pending => do
      let operators ← bounded fun bound => monadicOperators bound pending.operators
      let (found, operators) ← operandBehind operand operators
      let pending ← bounded fun bound => existsOperators bound ⟨found :: pending.operands, operators⟩
      match (← currentLexeme).dyadic? with
      | some entry =>
          let pending := pending.applyFor entry
          let _ ← advance
          operations operand bound (pending.push (.dyadic entry.op entry.precedence))
      | none =>
          match pending.result? with
          | some node => return node
          | none => unexpectedFor .expression

end Parser

end NewtonScript
