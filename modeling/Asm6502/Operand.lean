/-
Operands of instructions that take an address.

An operand is a literal (a signed 32-bit number) or the name of a label. Its value is the literal itself or the
address to which the label is bound; an unbound label is a fault.
-/
import Asm6502.Fault
import Asm6502.Labels

namespace Asm6502

/-- a literal, or a label whose address is known after layout -/
inductive Operand where
  | literal (value : Int32)
  | label (name : String)
  deriving DecidableEq, Repr

namespace Operand

def value (labels : Labels) : Operand → Except Fault Int
  | .literal value => .ok value.toInt
  | .label name =>
    match labels.get? name with
    | some address => .ok address
    | none => .error (.undefinedLabel name)

/-- the operand as a listing writes it -/
def text : Operand → String
  | .literal value => toString value.toInt
  | .label name => name

end Operand

end Asm6502
