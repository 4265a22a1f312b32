import NewtonScript.Text.Cursor
import NewtonScript.Token.Gap
import NewtonScript.Token.Lexeme

/-!
# Reading one token

A token is the word behind a gap.  Reading one moves the cursor behind it,
also when the word is faulty: then the cursor stands where the fault was
found, and the failure covers what was read since the word began.
-/

namespace NewtonScript

namespace Cursor

/-- The region from one cursor to a later one. -/
def spanTo (start stop : Cursor) : Span :=
  ⟨start.offset, stop.offset, start.line⟩

/-- Read the next token.  At the end of the text that is the end token, which
covers nothing. -/
def scan (cursor : Cursor) : Except Failure Token × Cursor :=
  match Gap.ofText cursor.rest with
  | .unclosed start =>
      let start := cursor.skip start
      let stop := start.skip start.rest.length
      (.error ⟨.unterminatedComment, start.spanTo stop⟩, stop)
  | .closed length =>
      let start := cursor.skip length
      match start.rest with
      | [] => (.ok ⟨.eof, start.spanTo start⟩, start)
      | first :: rest =>
          let scanned := Lexeme.scan first rest
          let stop := start.skip scanned.length
          match scanned.result with
          | .ok lexeme => (.ok ⟨lexeme, start.spanTo stop⟩, stop)
          | .error fault => (.error ⟨fault, start.spanTo stop⟩, stop)

end Cursor

end NewtonScript
