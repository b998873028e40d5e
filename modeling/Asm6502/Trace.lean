/-
What an assembly reports while it runs, and how a log shows it.

An `Event` is one report; its level says how much detail it is, its speaker which part of the assembler it comes from,
and its wording is fixed. Labels' addresses are written in hexadecimal with at least four digits.

A log record is one report as text. In its message, the characters that a terminal would act on are spelled out; the
values after the message are written as they are. A record that contains line breaks takes several lines of the log.
-/
import Asm6502.Digits

namespace Asm6502

/-- how detailed a report is, the gravest first -/
inductive Level where
  | error
  | warn
  | info
  | debug
  | trace
  deriving DecidableEq, Repr

namespace Level

def name : Level → String
  | .error => "ERROR"
  | .warn => "WARN"
  | .info => "INFO"
  | .debug => "DEBUG"
  | .trace => "TRACE"

def rank : Level → Nat
  | .error => 1
  | .warn => 2
  | .info => 3
  | .debug => 4
  | .trace => 5

/-- whether a log that goes down to `limit` shows reports of this level -/
def shownAt (limit level : Level) : Bool :=
  level.rank ≤ limit.rank

end Level

inductive Event where
  /-- pass one starts -/
  | layoutStarted (origin nodes length : Nat)
  /-- pass one binds a label -/
  | bound (label : String) (address : Nat)
  /-- pass two starts -/
  | resolutionStarted (labels : Nat)
  /-- pass two comes by a label -/
  | reached (label : String) (address : Nat)
  /-- image and listing are ready -/
  | compiled (bytes : Nat)
  deriving DecidableEq, Repr

/-! ## Log records -/

/-- characters that a terminal would act on: bell, backspace, form feed, escape, delete -/
def terminalCodes : List Nat :=
  [0x07, 0x08, 0x0C, 0x1B, 0x7F]

/-- a character of a message as the log shows it: terminal codes and the upper control characters are spelled out -/
def escapedChar (c : Char) : String :=
  if c.toNat ∈ terminalCodes then
    "\\x" ++ Digits.lowerHex 2 c.toNat
  else if 0x80 ≤ c.toNat ∧ c.toNat ≤ 0x9F then
    "\\u\x7b" ++ Digits.lowerHex 1 c.toNat ++ "\x7d"
  else
    String.singleton c

/-- a message as the log shows it -/
def escaped (message : String) : String :=
  String.join (message.toList.map escapedChar)

/-- a log record: level, speaker, message, then the named values as they are -/
def logRecord (level : Level) (speaker message : String) (values : List (String × String)) : String :=
  s!"{level.name} {speaker}: {escaped message}" ++ String.join (values.map fun (name, value) => s!" {name}={value}")

/-- a line without the carriage return at its end -/
def dropReturn (line : String) : String :=
  let characters := line.toList
  if characters.getLast? = some '\r' then String.ofList characters.dropLast else line

/-- the lines of a log; a record with line breaks in it takes several -/
def recordLines (records : List String) : List String :=
  records.flatMap fun text => (text.splitOn "\n").map dropReturn

/-! ## The reports of the assembler -/

namespace Event

def level : Event → Level
  | .layoutStarted .. => .debug
  | .bound .. => .trace
  | .resolutionStarted .. => .debug
  | .reached .. => .trace
  | .compiled .. => .debug

/-- the part of the assembler that reports -/
def speaker : Event → String
  | .layoutStarted .. => "gen6502::program"
  | .bound .. => "gen6502::node"
  | .resolutionStarted .. => "gen6502::program"
  | .reached .. => "gen6502::node"
  | .compiled .. => "gen6502::program"

def message : Event → String
  | .layoutStarted origin _ _ => "starting pass 1 at $" ++ Digits.hex 4 origin
  | .bound _ address => "bound to $" ++ Digits.hex 4 address
  | .resolutionStarted _ => "starting pass 2"
  | .reached _ address => "at $" ++ Digits.hex 4 address
  | .compiled _ => "compiled"

/-- the named values of a report -/
def values : Event → List (String × String)
  | .layoutStarted _ nodes length => [("nodes", toString nodes), ("length", toString length)]
  | .bound label _ => [("label", label)]
  | .resolutionStarted labels => [("labels", toString labels)]
  | .reached label _ => [("label", label)]
  | .compiled bytes => [("bytes", toString bytes)]

def record (event : Event) : String :=
  logRecord event.level event.speaker event.message event.values

end Event

end Asm6502
