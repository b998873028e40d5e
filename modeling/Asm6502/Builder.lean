/-
Building a program call by call.

A `Call` is one call of the builder. Running it appends items to the program and gives the position of the first new
node, or fails; a failing call of this module appends nothing. `emit` takes the opcode from the program's instruction
set, the other instruction calls are given one. The named calls at the end are the instructions that frame programs use.
-/
import Asm6502.Program

namespace Asm6502

/-- building steps: they change the program and may fail, and what they did before failing stays -/
abbrev Builder := EStateM Fault Program

inductive Call where
  /-- a name for the address of whatever follows -/
  | label (name : String)
  /-- a table of bytes with a name -/
  | data (name : String) (values : List UInt8)
  | implied (mnemonic : String) (opcode : UInt8)
  | accumulator (mnemonic : String) (opcode : UInt8)
  /-- an opcode and a literal byte; the literal is checked at once -/
  | immediate (mnemonic : String) (opcode : UInt8) (value : Int32)
  | zeroPage (index : Index) (mnemonic : String) (opcode : UInt8) (operand : Operand)
  | absolute (index : Index) (mnemonic : String) (opcode : UInt8) (operand : Operand)
  /-- a branch; its reach is checked when the labels are known -/
  | relative (mnemonic : String) (opcode : UInt8) (operand : Operand)
  /-- an instruction whose opcode is looked up -/
  | emit (mnemonic : String) (mode : Mode) (operand : Option Operand)
  deriving DecidableEq, Repr

namespace Builder

/-- appends an item; the result is the position of its node -/
def append (item : Item) : Builder Nat :=
  modifyGet fun program => (program.tree.size, program.append item)

/-- appends a named table; the result is the position of its label -/
def appendData (name : String) (values : List UInt8) : Builder Nat := do
  let id ← append (.label name)
  modify fun program => values.foldl (fun program value => program.append (.data value)) program
  pure id

/-- appends an instruction with the opcode that the instruction set has for it -/
def emit (mnemonic : String) (mode : Mode) (operand : Option Operand) : Builder Nat := do
  match (← get).opcodes.lookup mnemonic mode with
  | none => throw (.unknownOpcode mnemonic mode)
  | some opcode =>
    let form ← Form.ofOperand mnemonic mode operand
    append (.instruction mnemonic opcode form)

end Builder

namespace Call

def run : Call → Builder Nat
  | .label name => Builder.append (.label name)
  | .data name values => Builder.appendData name values
  | .implied mnemonic opcode => Builder.append (.instruction mnemonic opcode .implied)
  | .accumulator mnemonic opcode => Builder.append (.instruction mnemonic opcode .accumulator)
  | .immediate mnemonic opcode value => do
    let form ← Form.ofImmediate value
    Builder.append (.instruction mnemonic opcode form)
  | .zeroPage index mnemonic opcode operand =>
    Builder.append (.instruction mnemonic opcode (.zeroPage index operand))
  | .absolute index mnemonic opcode operand =>
    Builder.append (.instruction mnemonic opcode (.absolute index operand))
  | .relative mnemonic opcode operand => Builder.append (.instruction mnemonic opcode (.relative operand))
  | .emit mnemonic mode operand => Builder.emit mnemonic mode operand

/-- carries calls out one after the other, up to the first that has no value for its operand or fails -/
def runAll : List (Except Fault Call) → Builder Unit
  | [] => pure ()
  | formed :: calls => do
    let call ← formed
    let _ ← call.run
    runAll calls

/-! ## Named instructions -/

def sei : Call := .emit "SEI" .implied none

def cld : Call := .emit "CLD" .implied none

def txs : Call := .emit "TXS" .implied none

def inx : Call := .emit "INX" .implied none

def dex : Call := .emit "DEX" .implied none

def dey : Call := .emit "DEY" .implied none

def nop : Call := .emit "NOP" .implied none

def rts : Call := .emit "RTS" .implied none

def ldaImmediate (value : Int32) : Call := .emit "LDA" .immediate (some (.literal value))

def ldxImmediate (value : Int32) : Call := .emit "LDX" .immediate (some (.literal value))

def ldyImmediate (value : Int32) : Call := .emit "LDY" .immediate (some (.literal value))

def ldaZeroPage (operand : Operand) : Call := .emit "LDA" (.zeroPage .none) (some operand)

def ldaAbsolute (operand : Operand) : Call := .emit "LDA" (.absolute .none) (some operand)

def ldaAbsoluteX (operand : Operand) : Call := .emit "LDA" (.absolute .x) (some operand)

def staZeroPage (operand : Operand) : Call := .emit "STA" (.zeroPage .none) (some operand)

def staZeroPageX (operand : Operand) : Call := .emit "STA" (.zeroPage .x) (some operand)

def staAbsolute (operand : Operand) : Call := .emit "STA" (.absolute .none) (some operand)

def jmpAbsolute (operand : Operand) : Call := .emit "JMP" (.absolute .none) (some operand)

def jsr (operand : Operand) : Call := .emit "JSR" (.absolute .none) (some operand)

def bne (operand : Operand) : Call := .emit "BNE" .relative (some operand)

def beq (operand : Operand) : Call := .emit "BEQ" .relative (some operand)

def bpl (operand : Operand) : Call := .emit "BPL" .relative (some operand)

end Call

end Asm6502
