/-
Items: what a program is made of, in program order.

An item is a label, a data byte or an instruction. The form of an instruction fixes its addressing mode, its operand as
written, and the operand bytes that follow the opcode: none, one (immediate, zero page, branch offset) or two (absolute,
low byte first). `Form.ofOperand` says which operand each mode takes.
-/
import Asm6502.Check
import Asm6502.Kind

namespace Asm6502

/-- an addressing mode together with the operand that it needs -/
inductive Form where
  | implied
  | accumulator
  | immediate (value : UInt8)
  | zeroPage (index : Index) (operand : Operand)
  | absolute (index : Index) (operand : Operand)
  | relative (operand : Operand)
  deriving DecidableEq, Repr

namespace Form

def mode : Form → Mode
  | .implied => .implied
  | .accumulator => .accumulator
  | .immediate _ => .immediate
  | .zeroPage index _ => .zeroPage index
  | .absolute index _ => .absolute index
  | .relative _ => .relative

/-- the operand as it is written after the mnemonic -/
def operand : Form → Option Operand
  | .implied => none
  | .accumulator => none
  | .immediate value => some (.literal (Int32.ofNat value.toNat))
  | .zeroPage _ operand => some operand
  | .absolute _ operand => some operand
  | .relative operand => some operand

/-- the operand bytes, in the order in which they follow the opcode -/
def parts : Form → List Kind
  | .implied => []
  | .accumulator => []
  | .immediate value => [.immediate value]
  | .zeroPage _ operand => [.zeroPage operand]
  | .absolute _ operand => [.absoluteLow operand, .absoluteHigh operand]
  | .relative operand => [.branchOffset operand]

/-- the immediate form of a literal, which must be a byte -/
def ofImmediate (value : Int32) : Except Fault Form := do
  Check.inRange "immediate value" value.toInt 0 0xFF
  pure (.immediate (UInt8.ofInt value.toInt))

/-- the form of `mnemonic` in `mode` with an optional operand; a mode refuses operands of the wrong sort -/
def ofOperand (mnemonic : String) (mode : Mode) (operand : Option Operand) : Except Fault Form :=
  match mode, operand with
  | .implied, none => .ok .implied
  | .accumulator, none => .ok .accumulator
  | .immediate, some (.literal value) => ofImmediate value
  | .zeroPage index, some operand => .ok (.zeroPage index operand)
  | .absolute index, some operand => .ok (.absolute index operand)
  | .relative, some operand => .ok (.relative operand)
  | _, _ => .error (.invalidOperand mnemonic mode)

end Form

inductive Item where
  | label (name : String)
  | data (value : UInt8)
  | instruction (mnemonic : String) (opcode : UInt8) (form : Form)
  deriving DecidableEq, Repr

end Asm6502
