import NewtonScript.Options

/-!
# Arguments

The arguments name one source, a file or a text, and the choices of a
compilation; two environment variables give defaults for those choices.  An
option or flag may be given once.  Arguments are read from left to right, and
the first one that is not understood, or that asks for help or the version,
ends the reading.
-/

namespace NewtonScript.CommandLine

/-- Where the text to compile comes from. -/
inductive Source where
  | file (path : String)
  | text (text : String)
deriving DecidableEq, Repr

/-- What one run of the program is to compile, and how. -/
structure Invocation where
  source : Source
  options : Options := {}
  /-- Compile every command on its own. -/
  each : Bool := false
deriving DecidableEq, Repr

/-- What the arguments ask for. -/
inductive Request where
  | help
  | version
  | compile (invocation : Invocation)
deriving DecidableEq, Repr

/-! ## Arguments -/

/-- The arguments read so far. -/
structure Arguments where
  file : Option String := none
  eval : Option String := none
  compat : Option Compatibility := none
  debugNames : Bool := false
  firstOnly : Bool := false
  each : Bool := false
  noWarnings : Bool := false
deriving DecidableEq, Repr

/-- Why reading the arguments ends before their end. -/
inductive Stop where
  | usage
  | help
  | version
deriving DecidableEq, Repr

/-- The options that take a value. -/
inductive ValueOption where
  | eval
  | compat
deriving DecidableEq, Repr

/-- The options that take none. -/
inductive Flag where
  | debugNames
  | firstOnly
  | each
  | noWarnings
  | help
  | version
deriving DecidableEq, Repr

/-- What one argument is. -/
inductive Argument where
  /-- All that follow are sources. -/
  | rest
  /-- An option, with the value attached to it. -/
  | option (option : ValueOption) (attached : Option String)
  | flag (flag : Flag)
  | plain (text : String)
  | unknown

/-- The layout with exactly this name. -/
def compatibility? : String → Option Compatibility
  | "native" => some .native
  | "newton20" => some .newton20
  | _ => none

/-- The option with a value that has a name. -/
def valueOption? : String → Option ValueOption
  | "eval" => some .eval
  | "compat" => some .compat
  | _ => none

/-- The flag with a name. -/
def flag? : String → Option Flag
  | "debug-names" => some .debugNames
  | "first-only" => some .firstOnly
  | "each" => some .each
  | "no-warnings" => some .noWarnings
  | "help" => some .help
  | "version" => some .version
  | _ => none

/-- An argument behind two dashes.  An equals sign attaches a value, which no
flag takes. -/
def longArgument (text : List Char) : Argument :=
  let name := String.ofList (text.takeWhile (· != '='))
  let attached :=
    match text.dropWhile (· != '=') with
    | _ :: value => some (String.ofList value)
    | [] => none
  match valueOption? name, flag? name, attached with
  | some option, _, attached => .option option attached
  | none, some flag, none => .flag flag
  | _, _, _ => .unknown

/-- An argument behind one dash.  The value of `-e` may follow directly, or
behind an equals sign. -/
def shortArgument : List Char → Argument
  | ['e'] => .option .eval none
  | 'e' :: '=' :: value => .option .eval (some (String.ofList value))
  | 'e' :: value => .option .eval (some (String.ofList value))
  | 'h' :: _ => .flag .help
  | 'V' :: _ => .flag .version
  | _ => .unknown

/-- What an argument is.  A single dash is plain. -/
def argumentOf (text : String) : Argument :=
  match text.toList with
  | ['-', '-'] => .rest
  | '-' :: '-' :: rest => longArgument rest
  | ['-'] => .plain text
  | '-' :: rest => shortArgument rest
  | _ => .plain text

/-- Take a source; there is only one. -/
def takePlain (text : String) (arguments : Arguments) : Except Stop Arguments :=
  match arguments.file with
  | some _ => .error .usage
  | none => .ok { arguments with file := some text }

/-- Take the value of an option, which may be given once. -/
def takeValue (option : ValueOption) (value : String) (arguments : Arguments) :
    Except Stop Arguments :=
  match option with
  | .eval =>
      match arguments.eval with
      | some _ => .error .usage
      | none => .ok { arguments with eval := some value }
  | .compat =>
      match arguments.compat, compatibility? value with
      | none, some compat => .ok { arguments with compat := some compat }
      | _, _ => .error .usage

/-- Take a flag, which may be given once. -/
def takeFlag (flag : Flag) (arguments : Arguments) : Except Stop Arguments :=
  match flag with
  | .debugNames =>
      if arguments.debugNames then .error .usage else .ok { arguments with debugNames := true }
  | .firstOnly =>
      if arguments.firstOnly then .error .usage else .ok { arguments with firstOnly := true }
  | .each => if arguments.each then .error .usage else .ok { arguments with each := true }
  | .noWarnings =>
      if arguments.noWarnings then .error .usage else .ok { arguments with noWarnings := true }
  | .help => .error .help
  | .version => .error .version

/-- Take arguments that are no options. -/
def takeAllPlain : List String → Arguments → Except Stop Arguments
  | [], arguments => .ok arguments
  | text :: rest, arguments => do
      takeAllPlain rest (← takePlain text arguments)

/-- Read arguments from left to right.  An option takes its value from the
next argument, which must be plain. -/
def readArguments : List String → Arguments → Except Stop Arguments
  | [], arguments => .ok arguments
  | text :: rest, arguments =>
      match argumentOf text with
      | .rest => takeAllPlain rest arguments
      | .plain text => do
          readArguments rest (← takePlain text arguments)
      | .flag flag => do
          readArguments rest (← takeFlag flag arguments)
      | .option option (some value) => do
          readArguments rest (← takeValue option value arguments)
      | .option option none =>
          match rest with
          | [] => .error .usage
          | value :: rest =>
              match argumentOf value with
              | .plain value => do
                  readArguments rest (← takeValue option value arguments)
              | _ => .error .usage
      | .unknown => .error .usage

/-! ## Requests -/

/-- The variable with the default layout. -/
def compatVariable : String := "NEWTC_COMPAT"

/-- The variable that asks for debug names by default. -/
def debugNamesVariable : String := "NEWTC_DEBUG_NAMES"

/-- The layout to use: the one asked for, or else the default. -/
def chosenCompat (asked : Option Compatibility) (default : Option String) :
    Option Compatibility :=
  match asked, default with
  | some compat, _ => some compat
  | none, some name => compatibility? name
  | none, none => some .native

/-- Whether debug names are asked for, by a flag or by default. -/
def chosenDebugNames (asked : Bool) (default : Option String) : Option Bool :=
  match asked, default with
  | true, _ => some true
  | false, some "true" => some true
  | false, some "false" => some false
  | false, some _ => none
  | false, none => some false

/-- The source to compile; exactly one is to be given. -/
def chosenSource (file eval : Option String) : Option Source :=
  match file, eval with
  | some path, none => some (.file path)
  | none, some text => some (.text text)
  | _, _ => none

/-- The invocation for arguments in an environment. -/
def Arguments.invocation? (arguments : Arguments) (environment : String → Option String) :
    Option Invocation := do
  let compat ← chosenCompat arguments.compat (environment compatVariable)
  let debugNames ← chosenDebugNames arguments.debugNames (environment debugNamesVariable)
  let source ← chosenSource arguments.file arguments.eval
  return {
    source
    options := {
      compat
      debugNames
      firstOnly := arguments.firstOnly
      warnings := !arguments.noWarnings }
    each := arguments.each }

/-- What the arguments ask for in an environment, or nothing if they are not
understood. -/
def request? (arguments : List String) (environment : String → Option String) :
    Option Request :=
  match readArguments arguments {} with
  | .ok arguments => (arguments.invocation? environment).map Request.compile
  | .error .usage => none
  | .error .help => some .help
  | .error .version => some .version

end NewtonScript.CommandLine
