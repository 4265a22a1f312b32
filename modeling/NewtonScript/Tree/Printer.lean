import NewtonScript.Tree
import NewtonScript.Value.Printer

/-!
# Printed trees

A node is printed between parentheses: its kind, the region that it covers,
and its parts, with a space in front of each.  A dash stands for a part that
is absent.
-/

namespace NewtonScript

/-- The tag of an operator before its operand. -/
def UnaryOp.text : UnaryOp → String
  | negate => "Negate"
  | complement => "Not"

/-- The tag of an operator between operands. -/
def BinaryOp.text : BinaryOp → String
  | add => "Add"
  | sub => "Sub"
  | mul => "Mul"
  | div => "Div"
  | intDiv => "IntDiv"
  | mod => "Mod"
  | shiftLeft => "ShiftLeft"
  | shiftRight => "ShiftRight"
  | equal => "Equal"
  | notEqual => "NotEqual"
  | less => "Less"
  | greater => "Greater"
  | lessEqual => "LessEqual"
  | greaterEqual => "GreaterEqual"
  | concat => "Concat"
  | concatSpace => "ConcatSpace"

/-- The name of an operator that may leave its second operand out. -/
def LogicalOp.text : LogicalOp → String
  | conjunction => "And"
  | disjunction => "Or"

/-- A name, or a dash for none. -/
def nameOrDash : Option Symbol → String
  | some name => name.text
  | none => "-"

/-- The start of a printed node. -/
def openNode (kind : String) (span : Span) : String :=
  "(" ++ kind ++ "@" ++ toString span.start ++ "-" ++ toString span.stop ++ ":" ++ toString span.line

/-- A parameter with its region. -/
def Param.text (param : Param) : String :=
  openNode "param" param.span ++ " " ++ nameOrDash param.type ++ " " ++ param.name.text ++ ")"

mutual

/-- Write a node behind a text. -/
def Node.write : Node → String → String
  | ⟨expr, span⟩, out => Expr.write expr span out ++ ")"

/-- Append the text of an expression over a region, without the closing
parenthesis. -/
def Expr.write : Expr → Span → String → String
  | .literal value, span, out => out ++ openNode "lit" span ++ " " ++ value.text
  | .name name, span, out => out ++ openNode "name" span ++ " " ++ name.text
  | .selfRef, span, out => out ++ openNode "self" span
  | .begin items, span, out => Node.writeAll items (out ++ openNode "begin" span)
  | .unary op operand, span, out =>
      Node.write operand (out ++ openNode "unary" span ++ " " ++ op.text ++ " ")
  | .binary op lhs rhs, span, out =>
      Node.write rhs (Node.write lhs (out ++ openNode "binary" span ++ " " ++ op.text ++ " ") ++ " ")
  | .logical op lhs rhs, span, out =>
      Node.write rhs (Node.write lhs (out ++ openNode "logical" span ++ " " ++ op.text ++ " ") ++ " ")
  | .existsTest operand, span, out => Node.write operand (out ++ openNode "exists" span ++ " ")
  | .path object (.slot slot), span, out =>
      Node.write object (out ++ openNode "path" span ++ " ") ++ " ." ++ slot.text
  | .path object (.computed key), span, out =>
      Node.write key (Node.write object (out ++ openNode "path" span ++ " ") ++ " ")
  | .index object position, span, out =>
      Node.write position (Node.write object (out ++ openNode "index" span ++ " ") ++ " ")
  | .assign target value, span, out =>
      Node.write value (Node.write target (out ++ openNode "assign" span ++ " ") ++ " ")
  | .localDecl bindings, span, out => Binding.writeAll bindings (out ++ openNode "local" span)
  | .constantDecl bindings, span, out => Binding.writeAll bindings (out ++ openNode "constant" span)
  | .globalVar name (some value), span, out =>
      Node.write value (out ++ openNode "global" span ++ " " ++ name.text ++ " ")
  | .globalVar name none, span, out => out ++ openNode "global" span ++ " " ++ name.text ++ " -"
  | .globalFunc name function, span, out =>
      Node.write function (out ++ openNode "globalfunc" span ++ " " ++ name.text ++ " ")
  | .func id params body native name, span, out =>
      Node.write body
        (out ++ openNode "func" span ++ " #" ++ toString id ++ (if native then " native " else " - ") ++
          nameOrDash name ++ " [" ++ " ".intercalate (params.map Param.text) ++ "] ")
  | .call name args, span, out =>
      Node.writeAll args (out ++ openNode "call" span ++ " " ++ name.text)
  | .invoke function args, span, out =>
      Node.writeAll args (Node.write function (out ++ openNode "invoke" span ++ " "))
  | .send (some receiver) message args ifDefined, span, out =>
      Node.writeAll args
        (Node.write receiver (out ++ openNode (if ifDefined then "send?" else "send") span ++ " ") ++
          " " ++ message.text)
  | .send none message args ifDefined, span, out =>
      Node.writeAll args
        (out ++ openNode (if ifDefined then "send?" else "send") span ++ " - " ++ message.text)
  | .resend message args ifDefined, span, out =>
      Node.writeAll args
        (out ++ openNode (if ifDefined then "resend?" else "resend") span ++ " " ++ message.text)
  | .ifThen cond thenBranch (some elseBranch), span, out =>
      Node.write elseBranch
        (Node.write thenBranch (Node.write cond (out ++ openNode "if" span ++ " ") ++ " ") ++ " ")
  | .ifThen cond thenBranch none, span, out =>
      Node.write thenBranch (Node.write cond (out ++ openNode "if" span ++ " ") ++ " ") ++ " -"
  | .loop body, span, out => Node.write body (out ++ openNode "loop" span ++ " ")
  | .whileLoop cond body, span, out =>
      Node.write body (Node.write cond (out ++ openNode "while" span ++ " ") ++ " ")
  | .repeatLoop body cond, span, out =>
      Node.write cond (Node.write body (out ++ openNode "repeat" span ++ " ") ++ " ")
  | .forLoop var start limit (some step) body, span, out =>
      Node.write body
        (Node.write step
          (Node.write limit
            (Node.write start (out ++ openNode "for" span ++ " " ++ var.text ++ " ") ++ " ") ++ " ") ++ " ")
  | .forLoop var start limit none body, span, out =>
      Node.write body
        (Node.write limit
          (Node.write start (out ++ openNode "for" span ++ " " ++ var.text ++ " ") ++ " ") ++ " - ")
  | .foreachLoop key value deeply collection collect body, span, out =>
      Node.write body
        (Node.write collection
          (out ++ openNode "foreach" span ++ " " ++ nameOrDash key ++ " " ++ value.text ++
            (if deeply then " deeply" else " -") ++ (if collect then " collect " else " do ")) ++ " ")
  | .tryCatch body handlers, span, out =>
      Handler.writeAll handlers (Node.write body (out ++ openNode "try" span ++ " "))
  | .breakLoop (some value), span, out => Node.write value (out ++ openNode "break" span ++ " ")
  | .breakLoop none, span, out => out ++ openNode "break" span ++ " -"
  | .returnValue (some value), span, out => Node.write value (out ++ openNode "return" span ++ " ")
  | .returnValue none, span, out => out ++ openNode "return" span ++ " -"
  | .makeArray className elements, span, out =>
      Node.writeAll elements (out ++ openNode "array" span ++ " " ++ nameOrDash className)
  | .makeFrame slots, span, out => Slot.writeAll slots (out ++ openNode "frame" span)

/-- Write nodes, each behind a space. -/
def Node.writeAll : List Node → String → String
  | [], out => out
  | node :: rest, out => Node.writeAll rest (Node.write node (out ++ " "))

/-- Write declared names and their initializers. -/
def Binding.writeAll : List Binding → String → String
  | [], out => out
  | ⟨name, type, some value, span⟩ :: rest, out =>
      Binding.writeAll rest
        (Node.write value
          (out ++ " " ++ openNode "bind" span ++ " " ++ nameOrDash type ++ " " ++ name.text ++ " ") ++ ")")
  | ⟨name, type, none, span⟩ :: rest, out =>
      Binding.writeAll rest
        (out ++ " " ++ openNode "bind" span ++ " " ++ nameOrDash type ++ " " ++ name.text ++ " -)")

def Handler.writeAll : List Handler → String → String
  | [], out => out
  | ⟨exception, body⟩ :: rest, out =>
      Handler.writeAll rest (Node.write body (out ++ " (on " ++ exception.text ++ " ") ++ ")")

/-- Write slots. -/
def Slot.writeAll : List Slot → String → String
  | [], out => out
  | ⟨name, value⟩ :: rest, out =>
      Slot.writeAll rest (Node.write value (out ++ " " ++ name.text ++ ": "))

end

/-- The text of a tree. -/
def Node.text (node : Node) : String :=
  node.write ""

end NewtonScript
