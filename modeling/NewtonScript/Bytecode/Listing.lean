import NewtonScript.Bytecode.Decoder
import NewtonScript.Bytecode.Frequent
import NewtonScript.Bytecode.Immediate
import NewtonScript.Value.Printer

/-!
# Listings

A listing shows a code block as text: a line about the block, a line for every
instruction, and behind an empty line the listing of every code block among
its literals.  An operand that stands for a literal, an immediate or a
frequent function is explained behind its instruction.
-/

namespace NewtonScript.Bytecode.Listing

/-- Put blanks behind a text until it has the given width. -/
def padRight (width : Nat) (text : String) : String :=
  text ++ String.ofList (List.replicate (width - text.length) ' ')

/-- Put blanks in front of a text until it has the given width. -/
def padLeft (width : Nat) (text : String) : String :=
  String.ofList (List.replicate (width - text.length) ' ') ++ text

/-- How a literal is explained.  A code block is named by its number. -/
def literalText (index : Nat) : Value → String
  | .block _ _ => "<CodeBlock #" ++ toString index ++ ">"
  | value => value.text

/-- What the operand of an instruction refers to. -/
def comment? (block : CodeBlock) (instruction : Instruction) : Option String :=
  let index := instruction.operand.toNat
  match instruction.op with
  | .push => (block.literal? index).map (literalText index)
  | .findVar => (block.literal? index).map (literalText index)
  | .findAndSetVar => (block.literal? index).map (literalText index)
  | .pushConstant => some (Immediate.toValue instruction.operand).text
  | .freqFunc => (Frequent.ofIndex? index).map Frequent.text
  | _ => none

/-- The line of an instruction. -/
def line (block : CodeBlock) (located : Located) : String :=
  let offset := padLeft 5 (toString located.offset)
  let text := located.instruction.text
  match comment? block located.instruction with
  | some comment => offset ++ "  " ++ padRight 28 text ++ " ; " ++ comment ++ "\n"
  | none => offset ++ "  " ++ text ++ "\n"

/-- The line above the instructions of a block. -/
def header (block : CodeBlock) (label : String) : String :=
  let name := ((block.debug.bind DebugNames.name).map Symbol.text).getD ""
  let frame := if block.argFrame.isSome then ", with arg frame" else ""
  label ++ " " ++ name ++ ": " ++ toString block.code.length ++ " bytes, numArgs 0x" ++
    Text.hexLower 1 block.numArgs.toNat ++ frame ++ "\n"

/-- The lines of one block, those inside it apart. -/
def ownLines (block : CodeBlock) (label : String) : Except DecodeError String :=
  (decodeAll block.code).map fun instructions =>
    instructions.foldl (fun out located => out ++ line block located) (header block label)

mutual

/-- The listing of a block under a label, behind the text so far. -/
def write : CodeBlock → String → String → Except DecodeError String
  | ⟨code, some literals, numArgs, argFrame, debug, compat⟩, label, out => do
      let own ← ownLines ⟨code, some literals, numArgs, argFrame, debug, compat⟩ label
      writeLiterals literals label 0 (out ++ own)
  | ⟨code, none, numArgs, argFrame, debug, compat⟩, label, out => do
      let own ← ownLines ⟨code, none, numArgs, argFrame, debug, compat⟩ label
      return out ++ own

/-- The listing of a literal that is a code block, behind an empty line. -/
def writeLiteral : Value → String → String → Except DecodeError String
  | .block _ body, label, out => write body label (out ++ "\n")
  | _, _, out => return out

/-- The listings of the code blocks among literals, numbered from `index`. -/
def writeLiterals : List Value → String → Nat → String → Except DecodeError String
  | [], _, _, out => return out
  | value :: rest, label, index, out => do
      let out ← writeLiteral value (label ++ "/#" ++ toString index) out
      writeLiterals rest label (index + 1) out

end

end NewtonScript.Bytecode.Listing

/-- The listing of a code block and those inside it. -/
def NewtonScript.CodeBlock.listing (block : NewtonScript.CodeBlock) :
    Except NewtonScript.Bytecode.DecodeError String :=
  NewtonScript.Bytecode.Listing.write block "<top>" ""
