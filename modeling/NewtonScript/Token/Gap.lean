import NewtonScript.Text.Class

/-!
# Gaps between tokens

Between two tokens stand blanks and comments.  A line comment runs from `//`
to the end of its line, a block comment from the first slash and star to the
next star and slash.  A gap is measured in characters.
-/

namespace NewtonScript

/-- What part of a gap is being read. -/
inductive GapState where
  | blank
  | line
  /-- Inside the block comment that starts behind this many characters; the
  flag tells whether the last character was a star. -/
  | block (start : Nat) (star : Bool)
deriving DecidableEq, Repr

/-- How a gap ends. -/
inductive Gap where
  /-- The gap has this many characters. -/
  | closed (length : Nat)
  /-- The block comment behind this many characters never ends. -/
  | unclosed (start : Nat)
deriving DecidableEq, Repr

namespace Gap

/-- Measure a gap of which `length` characters have been read. -/
def scan : GapState → Nat → List Char → Gap
  | .blank, length, '/' :: '/' :: rest => scan .line (length + 2) rest
  | .blank, length, '/' :: '*' :: rest => scan (.block length false) (length + 2) rest
  | .blank, length, c :: rest => if Text.isBlank c then scan .blank (length + 1) rest else .closed length
  | .blank, length, [] => .closed length
  | .line, length, c :: rest => scan (if c == '\n' then .blank else .line) (length + 1) rest
  | .line, length, [] => .closed length
  | .block start star, length, c :: rest =>
      if star && c == '/' then
        scan .blank (length + 1) rest
      else
        scan (.block start (c == '*')) (length + 1) rest
  | .block start _, _, [] => .unclosed start

/-- The gap at the front of a text. -/
def ofText (text : List Char) : Gap :=
  scan .blank 0 text

end Gap

end NewtonScript
