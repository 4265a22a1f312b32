/-!
# Reading characters

A cursor is the part of a source text that is still to be read, with the byte
offset and the line of its first character.  Offsets count bytes of the UTF-8
form; lines count from one.  Characters are read one by one, and what is read
can be put back; a scanner that only looks ahead looks at the rest instead.
-/

namespace NewtonScript

/-- What is left of a source text, and where it starts. -/
structure Cursor where
  rest : List Char
  offset : Nat
  line : Nat
deriving DecidableEq, Repr, Inhabited

namespace Cursor

/-- The cursor in front of a whole text. -/
def ofString (text : String) : Cursor := ⟨text.toList, 0, 1⟩

/-- The cursor behind one character. -/
def after (c : Char) (cursor : Cursor) (rest : List Char) : Cursor :=
  ⟨rest, cursor.offset + c.utf8Size, if c = '\n' then cursor.line + 1 else cursor.line⟩

/-- Read one character; nothing is left to read at the end. -/
def next? (cursor : Cursor) : Option (Char × Cursor) :=
  match cursor.rest with
  | [] => none
  | c :: rest => some (c, cursor.after c rest)

/-- Put back a character that was just read.  Lines do not go below the
first. -/
def unread (c : Char) (cursor : Cursor) : Cursor :=
  ⟨c :: cursor.rest, cursor.offset - c.utf8Size,
    if c = '\n' then max (cursor.line - 1) 1 else cursor.line⟩

/-- The cursor behind the next `count` characters, or at the end when fewer
are left. -/
def skip : Nat → Cursor → Cursor
  | 0, cursor => cursor
  | count + 1, cursor =>
      match cursor.next? with
      | none => cursor
      | some (_, cursor) => skip count cursor

@[simp]
theorem skip_zero (cursor : Cursor) : skip 0 cursor = cursor := rfl

@[simp]
theorem skip_succ_nil (count offset line : Nat) :
    skip (count + 1) ⟨[], offset, line⟩ = ⟨[], offset, line⟩ := rfl

@[simp]
theorem skip_succ_cons (count offset line : Nat) (c : Char) (rest : List Char) :
    skip (count + 1) ⟨c :: rest, offset, line⟩ =
      skip count ((⟨c :: rest, offset, line⟩ : Cursor).after c rest) := rfl

theorem rest_skip (count : Nat) (cursor : Cursor) :
    (skip count cursor).rest = cursor.rest.drop count := by
  induction count generalizing cursor with
  | zero => simp
  | succ count ih =>
      rcases cursor with ⟨rest, offset, line⟩
      cases rest with
      | nil => simp
      | cons c rest => simp [ih, after]

/-- A character that was read and put back leaves the cursor where it was. -/
theorem unread_after (c : Char) (rest : List Char) (offset line : Nat) (positive : 0 < line) :
    unread c ((⟨c :: rest, offset, line⟩ : Cursor).after c rest) = ⟨c :: rest, offset, line⟩ := by
  by_cases newline : c = '\n'
  · simp [unread, after, newline]
    omega
  · simp [unread, after, newline]

end Cursor

end NewtonScript
