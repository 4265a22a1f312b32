/-!
# Opcodes

The instruction set of the stack machine.  Most opcodes take an operand; the
ones without are numbered under one opcode of their own.
-/

namespace NewtonScript.Bytecode

/-- The operations of the machine. -/
inductive Opcode where
  /-- The operand selects a `SimpleOp`. -/
  | simple
  /-- Push a literal of the pool. -/
  | push
  /-- Push an immediate value. -/
  | pushConstant
  /-- Call the global function named on the stack. -/
  | call
  /-- Call the function on the stack. -/
  | invoke
  | send
  | sendIfDefined
  | resend
  | resendIfDefined
  | branch
  | branchIfTrue
  | branchIfFalse
  /-- Look a variable up at run time by the literal that names it. -/
  | findVar
  /-- Push a variable of the function. -/
  | getVar
  | makeFrame
  | makeArray
  | getPath
  | setPath
  | setVar
  | findAndSetVar
  | incrVar
  | branchIfLoopNotDone
  /-- Call a function of the table of frequent functions. -/
  | freqFunc
  | newHandlers
deriving DecidableEq, Repr, Inhabited

namespace Opcode

/-- The number of an opcode, from 0 to 25. -/
def code : Opcode → UInt8
  | simple => 0
  | push => 3
  | pushConstant => 4
  | call => 5
  | invoke => 6
  | send => 7
  | sendIfDefined => 8
  | resend => 9
  | resendIfDefined => 10
  | branch => 11
  | branchIfTrue => 12
  | branchIfFalse => 13
  | findVar => 14
  | getVar => 15
  | makeFrame => 16
  | makeArray => 17
  | getPath => 18
  | setPath => 19
  | setVar => 20
  | findAndSetVar => 21
  | incrVar => 22
  | branchIfLoopNotDone => 23
  | freqFunc => 24
  | newHandlers => 25

/-- The opcode with a number; 1, 2 and those above 25 are unused. -/
def ofCode? (code : UInt8) : Option Opcode :=
  match code.toNat with
  | 0 => some simple
  | 3 => some push
  | 4 => some pushConstant
  | 5 => some call
  | 6 => some invoke
  | 7 => some send
  | 8 => some sendIfDefined
  | 9 => some resend
  | 10 => some resendIfDefined
  | 11 => some branch
  | 12 => some branchIfTrue
  | 13 => some branchIfFalse
  | 14 => some findVar
  | 15 => some getVar
  | 16 => some makeFrame
  | 17 => some makeArray
  | 18 => some getPath
  | 19 => some setPath
  | 20 => some setVar
  | 21 => some findAndSetVar
  | 22 => some incrVar
  | 23 => some branchIfLoopNotDone
  | 24 => some freqFunc
  | 25 => some newHandlers
  | _ => none

/-- Whether the operand is a position in the code. -/
def isBranch : Opcode → Bool
  | branch => true
  | branchIfTrue => true
  | branchIfFalse => true
  | branchIfLoopNotDone => true
  | _ => false

/-- The name of an operation. -/
def text : Opcode → String
  | simple => "simple"
  | push => "push"
  | pushConstant => "push-constant"
  | call => "call"
  | invoke => "invoke"
  | send => "send"
  | sendIfDefined => "send-if-defined"
  | resend => "resend"
  | resendIfDefined => "resend-if-defined"
  | branch => "branch"
  | branchIfTrue => "branch-if-true"
  | branchIfFalse => "branch-if-false"
  | findVar => "find-var"
  | getVar => "get-var"
  | makeFrame => "make-frame"
  | makeArray => "make-array"
  | getPath => "get-path"
  | setPath => "set-path"
  | setVar => "set-var"
  | findAndSetVar => "find-and-set-var"
  | incrVar => "incr-var"
  | branchIfLoopNotDone => "branch-if-loop-not-done"
  | freqFunc => "freq-func"
  | newHandlers => "new-handlers"

@[simp]
theorem ofCode?_code (op : Opcode) : ofCode? op.code = some op := by
  cases op <;> rfl

theorem code_of_ofCode? {code : UInt8} {op : Opcode} (found : ofCode? code = some op) :
    op.code = code := by
  unfold ofCode? at found
  split at found <;> simp_all <;> subst found <;> apply UInt8.toNat_inj.mp <;> simp_all [Opcode.code]

end Opcode

/-- The operations without operand. -/
inductive SimpleOp where
  | pop
  | dup
  | ret
  | pushSelf
  | setLexScope
  | iterNext
  | iterDone
  | popHandlers
deriving DecidableEq, Repr, Inhabited

namespace SimpleOp

/-- The operand that selects an operation, and whether it is written in the
wide form. -/
def encoding : SimpleOp → UInt16 × Bool
  | pop => (0, false)
  | dup => (1, false)
  | ret => (2, false)
  | pushSelf => (3, false)
  | setLexScope => (4, false)
  | iterNext => (5, false)
  | iterDone => (6, false)
  | popHandlers => (1, true)

/-- All simple operations. -/
def all : List SimpleOp :=
  [pop, dup, ret, pushSelf, setLexScope, iterNext, iterDone, popHandlers]

/-- The operation that an operand selects in the given form. -/
def decode? (operand : UInt16) (wide : Bool) : Option SimpleOp :=
  all.find? fun op => op.encoding == (operand, wide)

/-- The name of an operation. -/
def text : SimpleOp → String
  | pop => "pop"
  | dup => "dup"
  | ret => "return"
  | pushSelf => "push-self"
  | setLexScope => "set-lex-scope"
  | iterNext => "iter-next"
  | iterDone => "iter-done"
  | popHandlers => "pop-handlers"

/-- The simple operation with a name. -/
def ofText? (text : String) : Option SimpleOp :=
  all.find? fun op => op.text == text

@[simp]
theorem decode?_encoding (op : SimpleOp) : decode? op.encoding.1 op.encoding.2 = some op := by
  cases op <;> rfl

end SimpleOp

end NewtonScript.Bytecode
