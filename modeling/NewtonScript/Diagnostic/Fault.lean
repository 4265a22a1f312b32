import NewtonScript.Bytecode.Buffer
import NewtonScript.Diagnostic.Code
import NewtonScript.Token
import NewtonScript.Value.Printer

/-!
# Faults

The reasons for which a program is refused.  A fault knows its code, its
message and, where one is to blame, the offending name.  A failure is a fault
at a place; a compile error also names the file.
-/

namespace NewtonScript

open Bytecode (Opcode OperandTooLarge)

/-- What a parser would have accepted. -/
inductive Expectation where
  | word (lexeme : Lexeme)
  | identifier
  | expression
  | number
  | literal
deriving BEq

/-- What messages call something that was expected. -/
def Expectation.text : Expectation → String
  | word lexeme => "`" ++ lexeme.text ++ "`"
  | identifier => "identifier"
  | expression => "expression"
  | number => "number"
  | literal => "literal"

/-- The reasons for which a program is refused. -/
inductive Fault where
  | unrecognizedCharacter (c : Char)
  | unterminatedString
  | unterminatedSymbol
  | unterminatedComment
  /-- An escape needs this many hex digits. -/
  | hexDigits (count : Nat)
  | openUnicodeRun
  | unknownEscape (c : Char)
  | unknownSymbolEscape (c : Char)
  | missingCharacter
  | incompleteCharacterEscape
  | unknownCharacterEscape (c : Char)
  | characterTooWide
  | missingHexDigits
  | missingExponentDigits (text : String)
  | missingMagicDigits
  | hexOutOfRange
  | integerOutOfRange (text : String)
  | magicOutOfRange
  | unexpected (found : Lexeme) (expected : List Expectation)
  | localConstantClash (name : Symbol)
  | constantGlobalClash (name : Symbol)
  | nonLiteralConstant (name : Symbol)
  | capturedLoopIndex (name : Symbol)
  | notLocal (name : Symbol)
  | existsTarget
  | assignTarget
  | assignToConstant (name : Symbol)
  | breakOutsideLoop
  | operandTooLarge (problem : OperandTooLarge)
  | handlerOutOfReach (position : Nat)
  | bodyTooLong (length : Nat)
  | undeclaredFunction

/-- A character as messages quote it: printing ASCII as it is, the usual
escapes, and everything else by its code. -/
def escapedChar (c : Char) : String :=
  match c with
  | '\t' => "\\t"
  | '\r' => "\\r"
  | '\n' => "\\n"
  | '\'' => "\\'"
  | '"' => "\\\""
  | '\\' => "\\\\"
  | c =>
      if 0x20 ≤ c.toNat && c.toNat ≤ 0x7E then
        String.singleton c
      else
        "\\u\x7b" ++ Text.hexLower 1 c.toNat ++ "\x7d"

namespace Fault

/-- The code of a fault. -/
def code : Fault → Code
  | unrecognizedCharacter _ => .unrecognizedCharacter
  | unterminatedString => .unterminatedString
  | unterminatedSymbol => .unterminatedSymbol
  | unterminatedComment => .unterminatedComment
  | hexDigits _ => .badHexDigits
  | openUnicodeRun => .badHexDigits
  | unknownEscape _ => .unknownEscape
  | unknownSymbolEscape _ => .unknownEscape
  | missingCharacter => .badCharacterLiteral
  | incompleteCharacterEscape => .badCharacterLiteral
  | unknownCharacterEscape _ => .badCharacterLiteral
  | characterTooWide => .badCharacterLiteral
  | missingHexDigits => .badNumber
  | missingExponentDigits _ => .badNumber
  | missingMagicDigits => .badNumber
  | hexOutOfRange => .integerOutOfRange
  | integerOutOfRange _ => .integerOutOfRange
  | magicOutOfRange => .integerOutOfRange
  | unexpected _ _ => .syntaxError
  | localConstantClash _ => .localConstantClash
  | constantGlobalClash _ => .constantGlobalClash
  | nonLiteralConstant _ => .nonLiteralConstant
  | capturedLoopIndex _ => .capturedLoopIndex
  | notLocal _ => .badPath
  | existsTarget => .badPath
  | assignTarget => .badPath
  | assignToConstant _ => .assignToConstant
  | breakOutsideLoop => .breakOutsideLoop
  | operandTooLarge _ => .codeTooLarge
  | handlerOutOfReach _ => .codeTooLarge
  | bodyTooLong _ => .codeTooLarge
  | undeclaredFunction => .undeclaredFunction

/-- The message, with details. -/
def message : Fault → String
  | unrecognizedCharacter c => "Unrecognized character '" ++ escapedChar c ++ "'"
  | unterminatedString => "Unterminated string literal"
  | unterminatedSymbol => "Unterminated symbol"
  | unterminatedComment => "Unterminated block comment"
  | hexDigits count => "Expected exactly " ++ toString count ++ " hex digits"
  | openUnicodeRun => "Unicode run must be closed with `\\u`"
  | unknownEscape c => "Unknown escape sequence `\\" ++ String.singleton c ++ "`"
  | unknownSymbolEscape c => "Unknown escape `\\" ++ String.singleton c ++ "` in symbol"
  | missingCharacter => "Expected a character after `$`"
  | incompleteCharacterEscape => "Incomplete character escape"
  | unknownCharacterEscape c => "Unknown character escape `$\\" ++ String.singleton c ++ "`"
  | characterTooWide => "Character is outside the 16-bit range"
  | missingHexDigits => "Expected hex digits after `0x`"
  | missingExponentDigits text => "Missing exponent digits in `" ++ text ++ "`"
  | missingMagicDigits => "Expected a number after `@`"
  | hexOutOfRange => "Integer literal out of range"
  | integerOutOfRange text => "Integer literal `" ++ text ++ "` out of range"
  | magicOutOfRange => "Magic pointer out of range"
  | unexpected found [] => "Unexpected " ++ found.description
  | unexpected found expected =>
      "Unexpected " ++ found.description ++ "; expected " ++
        ", ".intercalate (expected.map Expectation.text)
  | localConstantClash name => "`" ++ name.text ++ "` is declared both as a local and as a constant"
  | constantGlobalClash name => "Constant `" ++ name.text ++ "` has the same name as a global"
  | nonLiteralConstant name => "The value of constant `" ++ name.text ++ "` is not a literal"
  | capturedLoopIndex name => "Cannot close over the `for` index `" ++ name.text ++ "`"
  | notLocal name => "`" ++ name.text ++ "` is not a local variable"
  | existsTarget => "`exists` needs a variable or a slot path"
  | assignTarget => "Only variables, slot paths and elements can be assigned"
  | assignToConstant name => "Cannot assign to the constant `" ++ name.text ++ "`"
  | breakOutsideLoop => "`break` outside of a loop"
  | operandTooLarge problem => "Function is too large: " ++ problem.message
  | handlerOutOfReach position =>
      "Exception handler at " ++ toString position ++ " is out of reach"
  | bodyTooLong length => "Function body is " ++ toString length ++ " bytes long"
  | undeclaredFunction => "Function literal has no scope; was it declared?"

/-- The offending name, where a name is to blame. -/
def value? : Fault → Option Value
  | localConstantClash name => some (.symbol name)
  | constantGlobalClash name => some (.symbol name)
  | nonLiteralConstant name => some (.symbol name)
  | capturedLoopIndex name => some (.symbol name)
  | assignToConstant name => some (.symbol name)
  | _ => none

end Fault

/-- A fault and where it was found. -/
structure Failure where
  fault : Fault
  span : Span

/-- An error as it is reported. -/
structure CompileError where
  code : Code
  file : String
  span : Span
  message : String
  value : Option Value

namespace CompileError

def line (error : CompileError) : Nat := error.span.line

/-- The one-line text of an error. -/
def text (error : CompileError) : String :=
  error.file ++ ":" ++ toString error.line ++ ": error " ++ toString error.code.number ++ ": " ++
    error.message

end CompileError

/-- The report of a failure in a file. -/
def Failure.inFile (failure : Failure) (file : String) : CompileError :=
  { code := failure.fault.code
    file
    span := failure.span
    message := failure.fault.message
    value := failure.fault.value? }

end NewtonScript
