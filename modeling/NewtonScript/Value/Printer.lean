import NewtonScript.Double.Shortest
import NewtonScript.Text.Class
import NewtonScript.Text.Hex
import NewtonScript.Value

/-!
# Printed values

The text of a value.  Immediates, names, numbers, strings, arrays and frames
are printed as they are written behind a quote; maps and code blocks, which
have no written form, are described between angle brackets.
-/

namespace NewtonScript

/-- A 16-bit character as a literal: itself when it is a printing character of
ASCII, else its code. -/
def charText (unit : UInt16) : String :=
  let c := Char.ofNat unit.toNat
  if unit.toNat < 128 && Text.isGraphic c && c != '\\' then
    String.ofList ['$', c]
  else
    "$\\u" ++ Text.hexUpper 4 unit.toNat

/-- A character inside a printed string. -/
def stringPiece (c : Char) : String :=
  match c with
  | '"' => "\\\""
  | '\\' => "\\\\"
  | '\r' => "\\n"
  | '\t' => "\\t"
  | c =>
      if c.toNat < 0x20 || 0x7E < c.toNat then
        "\\u" ++ Text.hexUpper 4 c.toNat ++ "\\u"
      else
        String.singleton c

/-- A string in quotes. -/
def stringText (text : String) : String :=
  text.toList.foldl (fun out c => out ++ stringPiece c) "\"" ++ "\""

mutual

/-- Write a value behind a text. -/
def Value.write : Value → String → String
  | .nil, out => out ++ "nil"
  | .truth, out => out ++ "true"
  | .int n, out => out ++ toString n
  | .char unit, out => out ++ charText unit
  | .real x, out => out ++ x.textWithPoint
  | .symbol name, out => out ++ "'" ++ name.text
  | .string _ text, out => out ++ stringText text
  | .magic n, out => out ++ "@" ++ toString n
  | .array _ className elements, out =>
      let start := if className.spelling == "array" then out ++ "[" else out ++ "[" ++ className.text ++ ": "
      Value.writeElements elements "" start ++ "]"
  | .frame _ shape values, out => Value.writeSlots shape.slots values "" (out ++ "\x7b") ++ "\x7d"
  | .map shape, out => shape.slots.foldl (fun out slot => out ++ " " ++ slot.text) (out ++ "<map") ++ ">"
  | .block _ body, out => out ++ "<CodeBlock, " ++ toString body.argCount ++ " args>"

/-- Append the elements of an array, each behind the separator. -/
def Value.writeElements : List Value → String → String → String
  | [], _, out => out
  | value :: rest, separator, out =>
      Value.writeElements rest ", " (Value.write value (out ++ separator))

/-- Append the slots of a frame, each behind the separator.  Slots without a
value and values without a slot are left out. -/
def Value.writeSlots : List Symbol → List Value → String → String → String
  | slot :: slots, value :: values, separator, out =>
      Value.writeSlots slots values ", " (Value.write value (out ++ separator ++ slot.text ++ ": "))
  | _, _, _, out => out

end

/-- The text of a value. -/
def Value.text (value : Value) : String :=
  value.write ""

end NewtonScript
