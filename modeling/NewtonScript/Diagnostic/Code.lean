/-!
# Diagnostic codes

Everything the compiler reports has a number.  The thousands tell the kind:
1 for the spelling of tokens, 2 for syntax, 3 for declarations, 4 for code
generation, 5 for warnings.  Each code has a default message and an
explanation.
-/

namespace NewtonScript

/-- How grave a report is. -/
inductive Level where
  | error
  | warning
deriving DecidableEq, Repr

/-- The name of a level. -/
def Level.text : Level → String
  | error => "error"
  | warning => "warning"

/-- What a report is about. -/
inductive Code where
  | unrecognizedCharacter
  | unterminatedString
  | unterminatedSymbol
  | badHexDigits
  | integerOutOfRange
  | unterminatedComment
  | badCharacterLiteral
  | badNumber
  | unknownEscape
  | syntaxError
  | localConstantClash
  | constantGlobalClash
  | nonLiteralConstant
  | badPath
  | assignToConstant
  | breakOutsideLoop
  | capturedLoopIndex
  | codeTooLarge
  | undeclaredFunction
  | duplicateName
  | unusedValue
  | standaloneEquals
deriving DecidableEq, Repr, Inhabited

namespace Code

/-- The number of a code. -/
def number : Code → Nat
  | unrecognizedCharacter => 1001
  | unterminatedString => 1002
  | unterminatedSymbol => 1003
  | badHexDigits => 1004
  | integerOutOfRange => 1005
  | unterminatedComment => 1006
  | badCharacterLiteral => 1007
  | badNumber => 1008
  | unknownEscape => 1009
  | syntaxError => 2001
  | localConstantClash => 3001
  | constantGlobalClash => 3002
  | nonLiteralConstant => 3003
  | badPath => 4001
  | assignToConstant => 4002
  | breakOutsideLoop => 4003
  | capturedLoopIndex => 4004
  | codeTooLarge => 4005
  | undeclaredFunction => 4006
  | duplicateName => 5001
  | unusedValue => 5002
  | standaloneEquals => 5003

/-- Codes from 5000 on are warnings, all others are errors. -/
def level (code : Code) : Level :=
  if 5000 ≤ code.number then .warning else .error

/-- The short name of a code: a letter for the level, then the number. -/
def text (code : Code) : String :=
  (match code.level with
    | .error => "E"
    | .warning => "W") ++ toString code.number

/-- The message without details. -/
def message : Code → String
  | unrecognizedCharacter => "Unrecognized character"
  | unterminatedString => "Unterminated string literal"
  | unterminatedSymbol => "Unterminated symbol"
  | badHexDigits => "Wrong number of hex digits in escape"
  | integerOutOfRange => "Integer literal out of range"
  | unterminatedComment => "Unterminated block comment"
  | badCharacterLiteral => "Malformed character literal"
  | badNumber => "Malformed number"
  | unknownEscape => "Unknown escape sequence"
  | syntaxError => "Syntax error"
  | localConstantClash => "Name is declared both as a local and as a constant"
  | constantGlobalClash => "Constant has the same name as a global"
  | nonLiteralConstant => "Constant initializer is not a literal"
  | badPath => "Malformed path expression"
  | assignToConstant => "Assignment to a constant"
  | breakOutsideLoop => "`break` outside of a loop"
  | capturedLoopIndex => "Closing over a `for` loop index"
  | codeTooLarge => "Function too large"
  | undeclaredFunction => "Function literal was never declared"
  | duplicateName => "Duplicate argument or local name"
  | unusedValue => "Value of expression is not used"
  | standaloneEquals => "Stand-alone `=` comparison"

/-- What a code means. -/
def explanation : Code → String
  | unrecognizedCharacter => "The character cannot start any token of the language."
  | unterminatedString => "The input ended before the closing double quote of a string."
  | unterminatedSymbol => "A symbol opened with `|` was never closed by a second `|`."
  | badHexDigits =>
      "`$\\xx` takes exactly two hex digits. `\\u` escapes take groups of exactly four " ++
        "hex digits and a string's `\\u` run must be closed by another `\\u`."
  | integerOutOfRange => "Integers are 30-bit immediates: -536870912 to 536870911."
  | unterminatedComment => "A `/*` comment was never closed by `*/`."
  | badCharacterLiteral =>
      "`$` must be followed by a character or one of the escapes `\\n`, `\\t`, `\\\\`, " ++
        "`\\xx` or `\\uXXXX`."
  | badNumber =>
      "Hex numbers need at least one digit after `0x`, exponents need at least one " ++
        "digit, and `@` must be followed by a decimal number."
  | unknownEscape => "Strings accept `\\n`, `\\t`, `\\\\`, `\\\"` and `\\u` runs."
  | syntaxError =>
      "The token cannot appear here. The message lists every token the parser " ++
        "would have accepted at this point."
  | localConstantClash => "Within one function a name is either a local variable or a local constant."
  | constantGlobalClash =>
      "A top-level constant would hide a global variable or function of the same name."
  | nonLiteralConstant =>
      "A constant must be initialized with a literal, another constant, or the " ++
        "negation of one of those."
  | badPath =>
      "Only variables, slot paths and array elements can be assigned or tested " ++
        "with `exists`."
  | assignToConstant => "Constants are bound at compile time and cannot be assigned."
  | breakOutsideLoop => "`break` must appear inside the body of a loop of the same function."
  | capturedLoopIndex =>
      "`for` indices live on the stack and cannot be captured by a nested function. " ++
        "Declare the variable with `local` first if a closure needs it."
  | codeTooLarge => "Branch targets and literal indices are 16-bit operands."
  | undeclaredFunction =>
      "Code generation met a function literal the declaration pass did not see. " ++
        "The passes must run over the same syntax tree."
  | duplicateName => "The name is already declared in this function; both refer to the same slot."
  | unusedValue => "The expression has no side effects and its result is discarded."
  | standaloneEquals => "`=` compares; to assign use `:=`."

/-- All codes. -/
def all : List Code :=
  [unrecognizedCharacter, unterminatedString, unterminatedSymbol, badHexDigits, integerOutOfRange,
   unterminatedComment, badCharacterLiteral, badNumber, unknownEscape, syntaxError,
   localConstantClash, constantGlobalClash, nonLiteralConstant, badPath, assignToConstant,
   breakOutsideLoop, capturedLoopIndex, codeTooLarge, undeclaredFunction, duplicateName,
   unusedValue, standaloneEquals]

/-- The code with a number. -/
def ofNumber? (number : Nat) : Option Code :=
  all.find? fun code => code.number == number

@[simp]
theorem ofNumber?_number (code : Code) : ofNumber? code.number = some code := by
  cases code <;> rfl

end Code

end NewtonScript
