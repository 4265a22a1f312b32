import NewtonScript.Proofs.Token.Progress

/-!
# Where operands begin

Reading a program word by word tells where an operand can begin: in front of
everything, behind operators, opening brackets, separators and most reserved
words, behind the parameters of a function and behind the name of an exception.
A minus there is a sign, elsewhere it subtracts.  Behind a quote reserved words
are names, and only brackets and separators count.

The parser begins and ends its expressions accordingly.  The integer that is
too large without a sign is therefore consumed only behind one, and refused for
its size only elsewhere.
-/

namespace NewtonScript

/-- The integer that is too large without a sign. -/
def Lexeme.magnitude : Lexeme :=
  .literal (.integer 536870912)

/-- What the words up to some place say about the next one. -/
inductive Phase where
  /-- An operand is to come. -/
  | opening
  /-- An operand is to come directly behind its sign. -/
  | signed
  /-- An operand may come, behind `break` or `return`. -/
  | leaving
  /-- An operand has ended. -/
  | ended
  /-- A name is to come, behind `global`. -/
  | naming
  /-- Behind that name. -/
  | named
  /-- The parameters of a function are to come, or have begun. -/
  | heading
  /-- The name of an exception is to come. -/
  | catching
  /-- An object is to come, behind a quote and inside so many brackets. -/
  | quoting (depth : Nat)
  /-- A number is to come there, directly behind its sign. -/
  | negating (depth : Nat)
  /-- An object has ended there, inside one bracket more. -/
  | quoted (depth : Nat)

/-- The phase behind a word, unless the words before it say otherwise. -/
def Lexeme.phase : Lexeme → Phase
  | .literal _ => .ended
  | .identifier _ => .ended
  | .punctuation .rightParen => .ended
  | .punctuation .rightBracket => .ended
  | .punctuation .rightBrace => .ended
  | .punctuation .quote => .quoting 0
  | .keyword .kwEnd => .ended
  | .keyword .kwSelf => .ended
  | .keyword .kwExists => .ended
  | .keyword .kwBreak => .leaving
  | .keyword .kwReturn => .leaving
  | .keyword .kwGlobal => .naming
  | .keyword .kwFunc => .heading
  | .keyword .kwOnException => .catching
  | _ => .opening

namespace Phase

/-- The phase behind a quoted object inside so many brackets. -/
def behindObject : Nat → Phase
  | 0 => ended
  | depth + 1 => quoted depth

/-- The phase behind one word more. -/
def next : Phase → Lexeme → Phase
  | opening, .operator .minus => signed
  | signed, .operator .minus => signed
  | leaving, .operator .minus => signed
  | naming, .identifier _ => named
  | named, .punctuation .leftParen => heading
  | heading, .punctuation .rightParen => opening
  | heading, _ => heading
  | catching, .identifier _ => opening
  | quoting depth, .literal _ => behindObject depth
  | quoting depth, .identifier _ => behindObject depth
  | quoting depth, .keyword _ => behindObject depth
  | quoting depth, .operator .minus => negating depth
  | quoting depth, .punctuation .leftBracket => quoting (depth + 1)
  | quoting depth, .punctuation .leftBrace => quoting (depth + 1)
  | quoting depth, .punctuation .rightBracket => behindObject (depth - 1)
  | quoting depth, .punctuation .rightBrace => behindObject (depth - 1)
  | quoting depth, _ => quoting depth
  | negating depth, .literal _ => behindObject depth
  | negating depth, _ => quoting depth
  | quoted depth, .punctuation .rightBracket => behindObject depth
  | quoted depth, .punctuation .rightBrace => behindObject depth
  | quoted depth, _ => quoting (depth + 1)
  | _, word => word.phase

/-- The phase behind a row of words. -/
def behind (row : List Lexeme) : Phase :=
  row.foldl next opening

/-- Whether the last word is the sign of an operand or of a quoted number. -/
def signs : Phase → Bool
  | signed => true
  | negating _ => true
  | _ => false

/-- A minus behind an operand is no sign. -/
example : signs (behind [.literal (.integer 1), .operator .minus]) = false := rfl

/-- The body of a function may begin with a sign. -/
example : signs (behind [.keyword .kwFunc, .punctuation .leftParen, .punctuation .rightParen,
    .operator .minus]) = true := rfl

theorem behind_snoc (row : List Lexeme) (word : Lexeme) :
    behind (row ++ [word]) = (behind row).next word :=
  List.foldl_concat ..

/-- Whether an operand is to come or has ended, outside of quotes. -/
def isFlat : Phase → Bool
  | opening => true
  | signed => true
  | leaving => true
  | ended => true
  | named => true
  | _ => false

end Phase

/-- Whether a word is a reserved word, an operator or a mark. -/
def Lexeme.isMark : Lexeme → Bool
  | .keyword _ => true
  | .punctuation _ => true
  | .operator _ => true
  | _ => false

theorem Lexeme.noName_of_mark {word : Lexeme} (mark : word.isMark = true) :
    word.isName = false := by
  cases word <;> first | rfl | cases mark

theorem Lexeme.ne_magnitude_of_mark {word : Lexeme} (mark : word.isMark = true) :
    word ≠ .magnitude := by
  rintro rfl
  cases mark

/-- Whether a word is one of those, with one meaning in all flat phases. -/
def Lexeme.isPlain : Lexeme → Bool
  | .keyword _ => true
  | .punctuation mark => mark != .leftParen
  | .operator op => op != .minus
  | _ => false

theorem Lexeme.mark_of_plain {word : Lexeme} (plain : word.isPlain = true) : word.isMark = true := by
  cases word <;> first | rfl | cases plain

theorem Phase.next_of_flat {phase : Phase} {word : Lexeme} (flat : phase.isFlat = true)
    (plain : word.isPlain = true) : phase.next word = word.phase := by
  unfold next
  split <;> simp_all [isFlat, Lexeme.isPlain]

/-- The integer that is too large without a sign stands only behind signs. -/
def SignedOnly (row : List Lexeme) : Prop :=
  ∀ before after, row = before ++ .magnitude :: after → (Phase.behind before).signs = true

theorem SignedOnly.nil : SignedOnly [] := by
  rintro (_ | _) after ⟨⟩

theorem SignedOnly.snoc {row : List Lexeme} {word : Lexeme} (signedOnly : SignedOnly row)
    (signed : word = .magnitude → (Phase.behind row).signs = true) :
    SignedOnly (row ++ [word]) := by
  intro before after equal
  rcases List.eq_nil_or_concat after with rfl | ⟨rest, last, rfl⟩
  · obtain ⟨rfl, same⟩ := List.append_inj' equal rfl
    exact signed (List.cons.inj same).1
  · have grouped : row ++ [word] = (before ++ .magnitude :: rest) ++ [last] := by
      simpa using equal
    exact signedOnly before rest (List.append_inj' grouped rfl).1

namespace Parser

/-! ## Runs -/

/-- The words that a parser consumed on its way from another one.  It may also
have looked at the next word, and changed what does not bear on words. -/
inductive Trail (start : Parser) : List Lexeme → Parser → Prop where
  | here : Trail start [] start
  | took {row : List Lexeme} {parser after : Parser} {token : Token}
      (trail : Trail start row parser) (run : advance parser = .ok token after) :
      Trail start (row ++ [parser.current.lexeme]) after
  | looked {row : List Lexeme} {parser after : Parser} {word : Lexeme}
      (trail : Trail start row parser) (run : peekLexeme parser = .ok word after) :
      Trail start row after
  | aside {row : List Lexeme} {parser : Parser} (trail : Trail start row parser)
      (expected : List Expectation) (functions : Nat) (store : Store) :
      Trail start row
        { parser with expected, functions, tokens := { parser.tokens with store } }

/-- How a run stops: the next word cannot be read; or the word looked at is
refused, but not for its size behind a sign. -/
inductive Stops (start : Parser) (failure : Failure) (after : Parser) : Prop where
  | unread {row : List Lexeme} {last : Parser} (trail : Trail start row last)
      (signed : SignedOnly row) (read : readToken last = .error failure after)
  | refused {row : List Lexeme} (trail : Trail start row after) (signed : SignedOnly row)
      (unsigned : after.current.lexeme = .magnitude → ∀ text,
        failure.fault = .integerOutOfRange text → (Phase.behind row).signs = false)

theorem Trail.started {start : Parser} {row : List Lexeme} {parser : Parser} (trail : Trail start row parser) :
    parser.started = start.started := by
  induction trail with
  | here => rfl
  | took _ run ih =>
    obtain ⟨-, _, _, took, rfl⟩ := advance_eq_ok run
    rcases takeNext_eq_ok took with ⟨-, rfl⟩ | ⟨-, _, -, rfl⟩ <;> exact ih
  | looked _ run ih =>
    obtain ⟨_, _, took, ⟨⟩⟩ := run_bind_eq_ok run
    rcases takeNext_eq_ok took with ⟨-, rfl⟩ | ⟨-, _, -, rfl⟩ <;> exact ih
  | aside _ _ _ _ ih => exact ih

end Parser

end NewtonScript
