/-
The command line of the demo.

    -o, --output PATH     the cartridge image to write
    -l, --listing PATH    also save the listing
    -p, --print           print the listing
        --log-level LEVEL what the log shows
    -h, --help            print help
    -V, --version         print the version

Arguments are read from the left, and the first one that asks for help or the version, or that is wrong, decides. A
long option may carry its value after `=`; short ones may be clustered, and the rest of a cluster is the value of an
option that takes one, with or without `=`. A value in an argument of its own must not begin with a minus sign, unless
it is just that sign. Every option may be given once. After `--` nothing may follow.
-/
import Asm6502.Trace

namespace Asm6502.Demo

structure Options where
  output : String
  listing : Option String
  print : Bool
  level : Level
  deriving DecidableEq, Repr

inductive Misuse where
  | unexpected (argument : String)
  | repeated (option : String)
  | missingValue (option : String)
  | emptyValue (option : String)
  | unwantedValue (option : String)
  | unknownLevel (text : String)
  deriving DecidableEq, Repr

def Misuse.message : Misuse → String
  | .unexpected argument => s!"error: unexpected argument '{argument}' found"
  | .repeated option => s!"error: the argument '{option}' cannot be used multiple times"
  | .missingValue option => s!"error: a value is required for '{option}' but none was supplied"
  | .emptyValue option => s!"error: a value is required for '{option}' but none was supplied"
  | .unwantedValue option => s!"error: unexpected value for '{option}' found; no more were expected"
  | .unknownLevel text => s!"error: invalid value '{text}' for '--log-level <LOG_LEVEL>'"

/-- what a command line amounts to -/
inductive Request where
  | run (options : Options)
  | help
  | version
  | misuse (misuse : Misuse)
  deriving DecidableEq, Repr

/-! ## Levels -/

def levelOfRank : Nat → Option Level
  | 1 => some .error
  | 2 => some .warn
  | 3 => some .info
  | 4 => some .debug
  | 5 => some .trace
  | _ => none

/-- a number in decimal digits, with an optional plus sign -/
def readNumber (text : List Char) : Option Nat :=
  let digits := match text with
    | '+' :: digits => digits
    | digits => digits
  if digits ≠ [] ∧ digits.all Char.isDigit then
    some (digits.foldl (fun read digit => 10 * read + (digit.toNat - '0'.toNat)) 0)
  else
    none

/-- the level that a text names, in any case, or by its rank -/
def levelOfText (text : String) : Option Level :=
  match readNumber text.toList with
  | some rank => levelOfRank rank
  | none =>
    match text.toLower with
    | "error" => some .error
    | "warn" => some .warn
    | "info" => some .info
    | "debug" => some .debug
    | "trace" => some .trace
    | _ => none

/-! ## Reading arguments -/

inductive Setting where
  | output
  | listing
  | level
  deriving DecidableEq, Repr

def Setting.usage : Setting → String
  | .output => "--output <OUTPUT>"
  | .listing => "--listing <LISTING>"
  | .level => "--log-level <LOG_LEVEL>"

structure Given where
  output : Option String := none
  listing : Option String := none
  print : Bool := false
  level : Option Level := none
  deriving DecidableEq, Repr

/-- what the next argument may be -/
inductive Expecting where
  | anyOption
  | value (setting : Setting)
  | nothing
  deriving DecidableEq, Repr

/-- the state between two arguments -/
structure Scan where
  given : Given
  expecting : Expecting
  deriving DecidableEq, Repr

namespace Given

/-- a path, which must not be empty, for an option not given before -/
def path (setting : Setting) (before : Option String) (value : String) : Except Request String :=
  if before.isSome then
    .error (.misuse (.repeated setting.usage))
  else if value = "" then
    .error (.misuse (.emptyValue setting.usage))
  else
    .ok value

/-- takes the value of an option -/
def store (given : Given) (setting : Setting) (value : String) : Except Request Given :=
  match setting with
  | .output => do
    let value ← path setting given.output value
    pure { given with output := some value }
  | .listing => do
    let value ← path setting given.listing value
    pure { given with listing := some value }
  | .level =>
    if given.level.isSome then
      .error (.misuse (.repeated setting.usage))
    else
      match levelOfText value with
      | some level => .ok { given with level := some level }
      | none => .error (.misuse (.unknownLevel value))

/-- takes the flag that asks for the listing on the screen -/
def storePrint (given : Given) : Except Request Given :=
  if given.print then .error (.misuse (.repeated "--print")) else .ok { given with print := true }

/-- the options with the defaults for those not given -/
def options (given : Given) : Options where
  output := given.output.getD "hello_world.a26"
  listing := given.listing
  print := given.print
  level := given.level.getD .info

end Given

/-- an option with the value attached to it, or else in the next argument -/
def takeValue (given : Given) (setting : Setting) : Option String → Except Request Scan
  | some value => do
    let given ← given.store setting value
    pure ⟨given, .anyOption⟩
  | none => .ok ⟨given, .value setting⟩

/-- a flag, which takes no value -/
def withoutValue (option : String) (value : Option String) (result : Except Request Scan) : Except Request Scan :=
  match value with
  | some _ => .error (.misuse (.unwantedValue option))
  | none => result

/-- a long option, without its two minus signs -/
def readLong (given : Given) (text : List Char) : Except Request Scan :=
  let name := String.ofList (text.takeWhile (· ≠ '='))
  let value := match text.dropWhile (· ≠ '=') with
    | [] => none
    | _ :: value => some (String.ofList value)
  match name with
  | "output" => takeValue given .output value
  | "listing" => takeValue given .listing value
  | "log-level" => takeValue given .level value
  | "print" => withoutValue "--print" value do
    let given ← given.storePrint
    pure ⟨given, .anyOption⟩
  | "help" => withoutValue "--help" value (.error .help)
  | "version" => withoutValue "--version" value (.error .version)
  | name => .error (.misuse (.unexpected ("--" ++ name)))

/-- the value in the rest of a cluster; an empty rest has none -/
def attached : List Char → Option String
  | [] => none
  | '=' :: value => some (String.ofList value)
  | value => some (String.ofList value)

/-- a cluster of short options -/
def readShort (given : Given) : List Char → Except Request Scan
  | [] => .ok ⟨given, .anyOption⟩
  | 'o' :: rest => takeValue given .output (attached rest)
  | 'l' :: rest => takeValue given .listing (attached rest)
  | 'p' :: rest =>
    match given.storePrint with
    | .ok given => readShort given rest
    | .error request => .error request
  | 'h' :: _ => .error .help
  | 'V' :: _ => .error .version
  | option :: _ => .error (.misuse (.unexpected (String.ofList ['-', option])))

/-- reads one argument; a request that is decided stops the reading -/
def readArgument (scan : Scan) (argument : String) : Except Request Scan :=
  match scan.expecting with
  | .nothing => .error (.misuse (.unexpected argument))
  | .value setting =>
    if argument.startsWith "-" ∧ argument ≠ "-" then
      .error (.misuse (.missingValue setting.usage))
    else
      takeValue scan.given setting (some argument)
  | .anyOption =>
    match argument.toList with
    | ['-', '-'] => .ok ⟨scan.given, .nothing⟩
    | '-' :: '-' :: text => readLong scan.given text
    | '-' :: option :: rest => readShort scan.given (option :: rest)
    | _ => .error (.misuse (.unexpected argument))

def Request.ofArguments (arguments : List String) : Request :=
  match arguments.foldlM readArgument ⟨{}, .anyOption⟩ with
  | .error request => request
  | .ok ⟨_, .value setting⟩ => .misuse (.missingValue setting.usage)
  | .ok ⟨given, _⟩ => .run given.options

/-! ## Fixed texts -/

def versionText : String :=
  "gen6502-example 1.0.0\n"

def helpLines : List String :=
  ["Builds a 4K Atari 2600 cartridge that fills the frame with colour",
    "",
    "Usage: gen6502-example [OPTIONS]",
    "",
    "Options:",
    "  -o, --output <OUTPUT>        Cartridge image to write [default: hello_world.a26]",
    "  -l, --listing <LISTING>      Also save the listing here",
    "  -p, --print                  Print the listing to stdout",
    "      --log-level <LOG_LEVEL>  One of `TRACE`, `DEBUG`, `INFO`, `WARN`, or `ERROR` [default: INFO]",
    "  -h, --help                   Print help",
    "  -V, --version                Print version"]

def helpText : String :=
  String.join (helpLines.map (· ++ "\n"))

end Asm6502.Demo
