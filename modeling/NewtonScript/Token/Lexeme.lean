import NewtonScript.Diagnostic.Fault
import NewtonScript.Double.Decimal

/-!
# Reading one word

The longest word at the front of a text.  Reading a word does not depend on
where it stands: the result is the word or the fault, and the number of
characters that were read to find it, the first one included.
-/

namespace NewtonScript

/-- A word or a fault, and the number of characters read for it. -/
structure Scanned where
  result : Except Fault Lexeme
  length : Nat

namespace Scanned

/-- A word of a length. -/
def word (lexeme : Lexeme) (length : Nat) : Scanned := ⟨.ok lexeme, length⟩

/-- A literal of a length. -/
def literal (value : Literal) (length : Nat) : Scanned := ⟨.ok (.literal value), length⟩

/-- A fault found after reading the given number of characters. -/
def fault (fault : Fault) (length : Nat) : Scanned := ⟨.error fault, length⟩

end Scanned

namespace Lexeme

/-- The largest magnitude of an integer token.  It is one more than the
largest integer, so that the smallest one can be written with a minus. -/
def maxMagnitude : Nat := 536870912

/-- The greatest magic pointer. -/
def maxMagic : Nat := 536870911

/-! ## Names -/

/-- The word that a bare name spells: `nil`, `true`, a reserved word, or an
identifier. -/
def ofName (text : List Char) : Lexeme :=
  let name := Symbol.ofString (String.ofList text)
  if name.folded == "nil" then
    .literal .nil
  else if name.folded == "true" then
    .literal .truth
  else
    match Keyword.ofText? name.spelling with
    | some word => .keyword word
    | none => .identifier name

/-- Read a bare name that starts with the given character. -/
def scanName (first : Char) (rest : List Char) : Scanned :=
  let text := first :: rest.takeWhile Text.isNamePart
  .word (ofName text) text.length

/-- Read the rest of a name between bars; `read` holds its characters so far,
the latest first. -/
def scanBarred : List Char → List Char → Nat → Scanned
  | [], _, length => .fault .unterminatedSymbol length
  | '|' :: _, read, length =>
      .word (.identifier (.ofString (String.ofList read.reverse))) (length + 1)
  | ['\\'], _, length => .fault .unterminatedSymbol (length + 1)
  | '\\' :: c :: rest, read, length =>
      if c == '|' || c == '\\' then
        scanBarred rest (c :: read) (length + 2)
      else
        .fault (.unknownSymbolEscape c) (length + 2)
  | c :: rest, read, length => scanBarred rest (c :: read) (length + 1)

/-! ## Numbers -/

/-- Read the digits of a hexadecimal integer behind `0x`. -/
def scanHex (rest : List Char) : Scanned :=
  let digits := rest.takeWhile Text.isHexDigit
  let length := digits.length + 2
  let value := Text.saturatedValue 16 digits
  if digits.isEmpty then
    .fault .missingHexDigits length
  else if value ≤ maxMagnitude then
    .literal (.integer value) length
  else
    .fault .hexOutOfRange length

/-- The word of a decimal integer. -/
def ofDigits (digits : List Char) : Scanned :=
  let value := (Text.parseWord? digits).getD Text.maxWord
  if value ≤ maxMagnitude then
    .literal (.integer value) digits.length
  else
    .fault (.integerOutOfRange (String.ofList digits)) digits.length

/-- Read the exponent of a number, if there is one.  `text` is the number so
far, `whole` and `fraction` its digits around the point. -/
def scanExponent (text whole : List Char) (fraction : Option (List Char)) (rest : List Char) :
    Scanned :=
  let places := fraction.getD []
  match rest with
  | mark :: rest =>
      if mark == 'e' || mark == 'E' then
        let sign := (rest.take 1).takeWhile fun c => c == '+' || c == '-'
        let digits := (rest.drop sign.length).takeWhile Char.isDigit
        let text := text ++ mark :: sign ++ digits
        let value : Int := Double.exponentValue digits
        if digits.isEmpty then
          .fault (.missingExponentDigits (String.ofList text)) text.length
        else
          .literal (.real (Double.ofDigits whole places (if sign == ['-'] then -value else value)))
            text.length
      else
        match fraction with
        | some places => .literal (.real (Double.ofDigits whole places 0)) text.length
        | none => ofDigits whole
  | [] =>
      match fraction with
      | some places => .literal (.real (Double.ofDigits whole places 0)) text.length
      | none => ofDigits whole

/-- Read a decimal number that starts with the given digit: an integer, or a
real when a point or an exponent follows the digits. -/
def scanDecimal (first : Char) (rest : List Char) : Scanned :=
  let whole := first :: rest.takeWhile Char.isDigit
  match rest.dropWhile Char.isDigit with
  | '.' :: rest =>
      let places := rest.takeWhile Char.isDigit
      scanExponent (whole ++ '.' :: places) whole (some places) (rest.dropWhile Char.isDigit)
  | rest => scanExponent whole whole none rest

/-- Read a number that starts with the given digit. -/
def scanNumber (first : Char) (rest : List Char) : Scanned :=
  match first, rest with
  | '0', 'x' :: rest => scanHex rest
  | '0', 'X' :: rest => scanHex rest
  | first, rest => scanDecimal first rest

/-- Read the digits of a magic pointer. -/
def scanMagic (rest : List Char) : Scanned :=
  let digits := rest.takeWhile Char.isDigit
  let length := digits.length + 1
  let value := Text.saturatedValue 10 digits
  if digits.isEmpty then
    .fault .missingMagicDigits length
  else if value ≤ maxMagic then
    .literal (.magic value) length
  else
    .fault .magicOutOfRange length

/-! ## Strings and characters -/

/-- The number written by exactly `count` hex digits at the front of a text. -/
def hexGroup? (count : Nat) (text : List Char) : Option Nat :=
  let digits := text.take count
  if digits.length == count && digits.all Text.isHexDigit then
    some (Text.digitsValue 16 digits)
  else
    none

/-- The hex digits that were read before a group of `count` of them broke off. -/
def hexGroupLength (count : Nat) (text : List Char) : Nat :=
  ((text.take count).takeWhile Text.isHexDigit).length

/-- The character with a code, or the replacement character where there is
none. -/
def charOfCode (code : Nat) : Char :=
  if code.isValidChar then Char.ofNat code else '�'

/-- The characters that a backslash and one letter stand for in a string. -/
def simpleEscape? : Char → Option Char
  | 'n' => some '\r'
  | 't' => some '\t'
  | '\\' => some '\\'
  | '"' => some '"'
  | _ => none

/-- Read the rest of a string; `read` holds its characters so far, the latest
first.  With `inRun` the text is inside a run of four-digit codes, which a
second `\u` or the end of the string closes. -/
def scanString : Bool → List Char → List Char → Nat → Scanned
  | false, [], _, length => .fault .unterminatedString length
  | _, '"' :: _, read, length =>
      .literal (.string (String.ofList read.reverse)) (length + 1)
  | false, ['\\'], _, length => .fault .unterminatedString (length + 1)
  | false, '\\' :: 'u' :: rest, read, length => scanString true rest read (length + 2)
  | false, '\\' :: c :: rest, read, length =>
      match simpleEscape? c with
      | some escaped => scanString false rest (escaped :: read) (length + 2)
      | none =>
          if Text.isHexDigit c then
            match rest with
            | [] => .fault (.hexDigits 2) (length + 2)
            | d :: rest =>
                match hexGroup? 2 [c, d] with
                | some code => scanString false rest (charOfCode code :: read) (length + 3)
                | none => .fault (.hexDigits 2) (length + 2)
          else
            .fault (.unknownEscape c) (length + 2)
  | false, c :: rest, read, length => scanString false rest (c :: read) (length + 1)
  | true, '\\' :: 'u' :: rest, read, length => scanString false rest read (length + 2)
  | true, '\\' :: _, _, length => .fault .openUnicodeRun (length + 1)
  | true, a :: b :: c :: d :: rest, read, length =>
      match hexGroup? 4 [a, b, c, d] with
      | some code => scanString true rest (charOfCode code :: read) (length + 4)
      | none => .fault (.hexDigits 4) (length + hexGroupLength 4 [a, b, c, d])
  | true, rest, _, length => .fault (.hexDigits 4) (length + hexGroupLength 4 rest)

/-- The word of a character with a code, which must fit into 16 bits. -/
def ofCharCode (code length : Nat) : Scanned :=
  if code < 65536 then
    .literal (.char code.toUInt16) length
  else
    .fault .characterTooWide length

/-- Read the rest of a character literal behind its dollar sign. -/
def scanChar : List Char → Scanned
  | [] => .fault .missingCharacter 1
  | ['\\'] => .fault .incompleteCharacterEscape 2
  | '\\' :: 'n' :: _ => ofCharCode 0x0D 3
  | '\\' :: 't' :: _ => ofCharCode 0x09 3
  | '\\' :: '\\' :: _ => ofCharCode 0x5C 3
  | '\\' :: 'u' :: rest =>
      match hexGroup? 4 rest with
      | some code => ofCharCode code 7
      | none => .fault (.hexDigits 4) (3 + hexGroupLength 4 rest)
  | '\\' :: c :: rest =>
      if Text.isHexDigit c then
        match hexGroup? 2 (c :: rest) with
        | some code => ofCharCode code 4
        | none => .fault (.hexDigits 2) (2 + hexGroupLength 2 (c :: rest))
      else
        .fault (.unknownCharacterEscape c) 2
  | c :: _ => ofCharCode c.toNat 2

/-! ## Operators and punctuation -/

/-- Read an operator of one or two characters that starts with the given one. -/
def scanOperator? (first : Char) (rest : List Char) : Option Scanned :=
  let one (op : Operator) := some (Scanned.word (.operator op) 1)
  let two (op : Operator) := some (Scanned.word (.operator op) 2)
  match first, rest with
  | '<', '=' :: _ => two .lessEqual
  | '<', '<' :: _ => two .shiftLeft
  | '<', '>' :: _ => two .notEqual
  | '<', _ => one .less
  | '>', '=' :: _ => two .greaterEqual
  | '>', '>' :: _ => two .shiftRight
  | '>', _ => one .greater
  | ':', '=' :: _ => two .assign
  | ':', '?' :: _ => two .colonQuery
  | ':', _ => one .colon
  | '&', '&' :: _ => two .ampAmp
  | '&', _ => one .amp
  | '+', _ => one .plus
  | '-', _ => one .minus
  | '*', _ => one .star
  | '/', _ => one .slash
  | '=', _ => one .equal
  | '.', _ => one .dot
  | _, _ => none

/-- The mark of punctuation that a character is. -/
def punctuation? : Char → Option Punctuation
  | '(' => some .leftParen
  | ')' => some .rightParen
  | '\x7b' => some .leftBrace
  | '\x7d' => some .rightBrace
  | '[' => some .leftBracket
  | ']' => some .rightBracket
  | ',' => some .comma
  | ';' => some .semicolon
  | '\'' => some .quote
  | _ => none

/-! ## Words -/

/-- Read the word that starts with the given character. -/
def scan (first : Char) (rest : List Char) : Scanned :=
  match punctuation? first with
  | some mark => .word (.punctuation mark) 1
  | none =>
      match scanOperator? first rest with
      | some scanned => scanned
      | none =>
          if first == '"' then
            scanString false rest [] 1
          else if first == '|' then
            scanBarred rest [] 1
          else if first == '$' then
            scanChar rest
          else if first == '@' then
            scanMagic rest
          else if first.isDigit then
            scanNumber first rest
          else if Text.isNameStart first then
            scanName first rest
          else
            .fault (.unrecognizedCharacter first) 1

end Lexeme

end NewtonScript
