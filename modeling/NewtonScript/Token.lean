import NewtonScript.Double.Shortest
import NewtonScript.Symbol
import NewtonScript.Text.Hex
import NewtonScript.Text.Span

/-!
# Tokens

The words of the language: reserved words, operators, punctuation, literals
and names, each with the text under which messages show it.
-/

namespace NewtonScript

/-- The reserved words. -/
inductive Keyword where
  | kwAnd
  | kwBegin
  | kwBreak
  | kwBy
  | kwCall
  | kwCollect
  | kwConstant
  | kwDeeply
  | kwDiv
  | kwDo
  | kwElse
  | kwEnd
  | kwExists
  | kwFor
  | kwForeach
  | kwFunc
  | kwGlobal
  | kwIf
  | kwIn
  | kwInherited
  | kwLocal
  | kwLoop
  | kwMod
  | kwNative
  | kwNot
  | kwOnException
  | kwOr
  | kwRepeat
  | kwReturn
  | kwSelf
  | kwThen
  | kwTo
  | kwTry
  | kwUntil
  | kwWhile
  | kwWith
deriving DecidableEq, Repr

namespace Keyword

/-- A reserved word in lower case. -/
def text : Keyword → String
  | kwAnd => "and"
  | kwBegin => "begin"
  | kwBreak => "break"
  | kwBy => "by"
  | kwCall => "call"
  | kwCollect => "collect"
  | kwConstant => "constant"
  | kwDeeply => "deeply"
  | kwDiv => "div"
  | kwDo => "do"
  | kwElse => "else"
  | kwEnd => "end"
  | kwExists => "exists"
  | kwFor => "for"
  | kwForeach => "foreach"
  | kwFunc => "func"
  | kwGlobal => "global"
  | kwIf => "if"
  | kwIn => "in"
  | kwInherited => "inherited"
  | kwLocal => "local"
  | kwLoop => "loop"
  | kwMod => "mod"
  | kwNative => "native"
  | kwNot => "not"
  | kwOnException => "onexception"
  | kwOr => "or"
  | kwRepeat => "repeat"
  | kwReturn => "return"
  | kwSelf => "self"
  | kwThen => "then"
  | kwTo => "to"
  | kwTry => "try"
  | kwUntil => "until"
  | kwWhile => "while"
  | kwWith => "with"

/-- All reserved words. -/
def all : List Keyword :=
  [kwAnd, kwBegin, kwBreak, kwBy, kwCall, kwCollect, kwConstant, kwDeeply, kwDiv, kwDo, kwElse,
   kwEnd, kwExists, kwFor, kwForeach, kwFunc, kwGlobal, kwIf, kwIn, kwInherited, kwLocal, kwLoop,
   kwMod, kwNative, kwNot, kwOnException, kwOr, kwRepeat, kwReturn, kwSelf, kwThen, kwTo, kwTry,
   kwUntil, kwWhile, kwWith]

/-- The reserved word that a text spells, in any case. -/
def ofText? (text : String) : Option Keyword :=
  let folded := foldCase text
  all.find? fun keyword => keyword.text == folded

end Keyword

/-- The operators written with symbols. -/
inductive Operator where
  | plus
  | minus
  | star
  | slash
  | amp
  | ampAmp
  | equal
  | notEqual
  | less
  | greater
  | lessEqual
  | greaterEqual
  | shiftLeft
  | shiftRight
  | assign
  | dot
  | colon
  | colonQuery
deriving DecidableEq, Repr

/-- How an operator is written. -/
def Operator.text : Operator → String
  | plus => "+"
  | minus => "-"
  | star => "*"
  | slash => "/"
  | amp => "&"
  | ampAmp => "&&"
  | equal => "="
  | notEqual => "<>"
  | less => "<"
  | greater => ">"
  | lessEqual => "<="
  | greaterEqual => ">="
  | shiftLeft => "<<"
  | shiftRight => ">>"
  | assign => ":="
  | dot => "."
  | colon => ":"
  | colonQuery => ":?"

/-- Brackets, separators and the quote. -/
inductive Punctuation where
  | leftParen
  | rightParen
  | leftBrace
  | rightBrace
  | leftBracket
  | rightBracket
  | comma
  | semicolon
  | quote
deriving DecidableEq, Repr

/-- How a mark is written. -/
def Punctuation.text : Punctuation → String
  | leftParen => "("
  | rightParen => ")"
  | leftBrace => "\x7b"
  | rightBrace => "\x7d"
  | leftBracket => "["
  | rightBracket => "]"
  | comma => ","
  | semicolon => ";"
  | quote => "'"

/-- The literals that are one token.  Integers have no sign. -/
inductive Literal where
  | integer (n : Nat)
  | real (x : Double)
  | char (unit : UInt16)
  | string (text : String)
  | magic (n : Nat)
  | nil
  | truth
deriving DecidableEq, Repr

/-- The text of a literal. -/
def Literal.text : Literal → String
  | integer n => toString n
  | real x => x.text
  | char unit => "$\\u" ++ Text.hexUpper 4 unit.toNat
  | string text => "\"" ++ text ++ "\""
  | magic n => "@" ++ toString n
  | nil => "nil"
  | truth => "true"

/-- A word of the language without its place. -/
inductive Lexeme where
  | eof
  | identifier (name : Symbol)
  | literal (value : Literal)
  | keyword (word : Keyword)
  | operator (op : Operator)
  | punctuation (mark : Punctuation)
deriving BEq

namespace Lexeme

instance : Inhabited Lexeme := ⟨eof⟩

/-- How reports name a word. -/
def text : Lexeme → String
  | eof => "end of input"
  | identifier name => name.text
  | literal value => value.text
  | keyword word => word.text
  | operator op => op.text
  | punctuation mark => mark.text

/-- What messages call a word that they did not expect. -/
def description : Lexeme → String
  | eof => "end of input"
  | identifier name => "identifier `" ++ name.text ++ "`"
  | literal value => "literal `" ++ value.text ++ "`"
  | keyword word => "`" ++ word.text ++ "`"
  | operator op => "`" ++ op.text ++ "`"
  | punctuation mark => "`" ++ mark.text ++ "`"

/-- Whether a word ends a sequence, so that a `;` in front of it is dropped. -/
def closesSequence : Lexeme → Bool
  | keyword .kwEnd => true
  | keyword .kwElse => true
  | keyword .kwUntil => true
  | keyword .kwOnException => true
  | punctuation .rightParen => true
  | punctuation .rightBracket => true
  | punctuation .rightBrace => true
  | _ => false

/-- Whether a word ends a list, so that a `,` in front of it is dropped. -/
def closesList : Lexeme → Bool
  | punctuation .rightBracket => true
  | punctuation .rightBrace => true
  | _ => false

/-- Whether a word is a separator, which the word behind it may absorb. -/
def isSeparator : Lexeme → Bool
  | punctuation .semicolon => true
  | punctuation .comma => true
  | _ => false

/-- Whether a word is a separator that the given next word absorbs. -/
def absorbedBy : Lexeme → Lexeme → Bool
  | punctuation .semicolon, next => next.closesSequence
  | punctuation .comma, next => next.closesList
  | _, _ => false

end Lexeme

/-- A word and where it stands. -/
structure Token where
  lexeme : Lexeme
  span : Span
deriving Inhabited

end NewtonScript
