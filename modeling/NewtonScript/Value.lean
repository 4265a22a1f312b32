import NewtonScript.Double
import NewtonScript.Options
import NewtonScript.Symbol

/-!
# Values

The objects that a compiler can put into code: immediates, names, numbers,
texts, arrays, frames, the slot maps of frames, and finished code blocks.
Every object that lives on the heap carries the number it was made with, so
that two objects of equal content can still be told apart.
-/

namespace NewtonScript

/-- The number a heap object was made with. -/
abbrev ObjectId := Nat

/-- The slot names of a frame.  Shared maps are those that a store hands out
again for the same list of slots. -/
structure FrameMap where
  id : ObjectId
  slots : List Symbol
  shared : Bool
deriving Inhabited

/-- The names that a code block keeps for debuggers. -/
structure DebugNames where
  name : Option Symbol
  args : List Symbol
  locals : List Symbol
deriving Inhabited

mutual

/-- A value of the language as the compiler sees it. -/
inductive Value where
  | nil
  | truth
  | int (n : Int)
  | char (unit : UInt16)
  | real (x : Double)
  | symbol (name : Symbol)
  | string (id : ObjectId) (text : String)
  | magic (n : Int)
  | array (id : ObjectId) (className : Symbol) (elements : List Value)
  | frame (id : ObjectId) (shape : FrameMap) (values : List Value)
  | map (shape : FrameMap)
  | block (id : ObjectId) (body : CodeBlock)

/-- A finished function: its bytes, its literals if it has any, its argument
word, its frame template if it carries one, and its debug names if they were
asked for. -/
structure CodeBlock where
  code : List UInt8
  literals : Option (List Value)
  numArgs : UInt32
  argFrame : Option Value
  debug : Option DebugNames
  compat : Compatibility

end

instance : Inhabited Value := ⟨.nil⟩

instance : Inhabited CodeBlock := ⟨⟨[], none, 0, none, none, .native⟩⟩

/-- The least integer. -/
def minInt : Int := -536870912

def maxInt : Int := 536870911

namespace CodeBlock

/-- The number of arguments.  The native argument word counts the locals in
its upper half. -/
def argCount (block : CodeBlock) : Nat :=
  match block.compat with
  | .newton20 => block.numArgs.toNat
  | .native => (block.numArgs &&& 0xFFFF).toNat

/-- The literal with a number. -/
def literal? (block : CodeBlock) (index : Nat) : Option Value :=
  block.literals.bind fun literals => literals[index]?

end CodeBlock

mutual

/-- The code blocks inside a value that is one, itself first. -/
def Value.blocks : Value → List CodeBlock
  | .block _ body => body :: CodeBlock.nested body
  | _ => []

/-- The code blocks inside the values of a list, in order. -/
def Value.blocksOfAll : List Value → List CodeBlock
  | [] => []
  | value :: rest => Value.blocks value ++ Value.blocksOfAll rest

/-- Every code block reachable through the literals of a block: each literal
that is a code block, directly followed by those inside it. -/
def CodeBlock.nested : CodeBlock → List CodeBlock
  | ⟨_, some literals, _, _, _, _⟩ => Value.blocksOfAll literals
  | ⟨_, none, _, _, _, _⟩ => []

end

end NewtonScript
