/-
What a node of a program contributes to the image.

The root and labels contribute nothing; an instruction contributes its opcode, and the bytes of its operand are nodes
of their own. `Kind.byte` is the one byte of a node at a given address, once all labels are bound.
-/
import Asm6502.Operand
import Asm6502.Reach

namespace Asm6502

inductive Kind where
  /-- the top of the program -/
  | root
  /-- a marker of no length that binds a name to the next address -/
  | label
  /-- an opcode; its operand bytes are the node's children -/
  | instruction (mnemonic : String) (mode : Mode) (opcode : UInt8) (operand : Option Operand)
  | immediate (value : UInt8)
  | zeroPage (operand : Operand)
  | absoluteLow (operand : Operand)
  | absoluteHigh (operand : Operand)
  | branchOffset (operand : Operand)
  | data (value : UInt8)
  deriving DecidableEq, Repr

namespace Kind

/-- the value of an operand, which must be neither negative nor more than its destination holds -/
def checkedValue (what : String) (max : Int) (labels : Labels) (operand : Operand) : Except Fault Int := do
  let value ← operand.value labels
  Check.inRange what value 0 max
  pure value

def zeroPageValue (labels : Labels) (operand : Operand) : Except Fault Int :=
  checkedValue "zero-page address" 0xFF labels operand

def absoluteValue (labels : Labels) (operand : Operand) : Except Fault Int :=
  checkedValue "absolute address" 0xFFFF labels operand

/-- the byte of a node placed at `address`; nothing for nodes that emit nothing -/
def byte (labels : Labels) (address : Nat) : Kind → Except Fault (Option UInt8)
  | .root => .ok none
  | .label => .ok none
  | .instruction _ _ opcode _ => .ok (some opcode)
  | .immediate value => .ok (some value)
  | .data value => .ok (some value)
  | .zeroPage operand => do
    let value ← zeroPageValue labels operand
    pure (some (UInt8.ofInt value))
  | .absoluteLow operand => do
    let value ← absoluteValue labels operand
    pure (some (UInt8.ofInt (value % 256)))
  | .absoluteHigh operand => do
    let value ← absoluteValue labels operand
    pure (some (UInt8.ofInt (value / 256)))
  | .branchOffset operand => do
    let target ← operand.value labels
    -- the offset byte directly follows the one-byte opcode
    let offset ← Asm6502.branchOffset ((address : Int) - 1) target
    pure (some offset)

end Kind

end Asm6502
