/-
Everything that can go wrong, as causes.

A `Fault` stops the operation that meets it; `Fault.message` is the only place where its wording stands. Addresses and
lengths are 32-bit quantities, so a sum that does not fit is a fault of its own (`sumOverflow`), and so is a distance
between branch ends that does not fit a signed 64-bit number (`differenceOverflow`).
-/
import Asm6502.Digits
import Asm6502.Mode

namespace Asm6502

/-- why the disk or an output buffer refused an operation -/
inductive Refusal where
  | bufferFull
  | missing
  | alreadyExists
  | notDirectory
  | isDirectory
  | nameTooLong
  | zeroInName
  | other (text : String)
  deriving DecidableEq, Repr

def Refusal.text : Refusal → String
  | .bufferFull => "failed to write whole buffer"
  | .missing => "No such file or directory (os error 2)"
  | .alreadyExists => "File exists (os error 17)"
  | .notDirectory => "Not a directory (os error 20)"
  | .isDirectory => "Is a directory (os error 21)"
  | .nameTooLong => "File name too long (os error 36)"
  | .zeroInName => "file name contained an unexpected NUL byte"
  | .other text => text

inductive Fault where
  | outOfRange (what : String) (value min max : Int)
  | branchOutOfRange (source target : Nat)
  | notEqual (what : String) (expected actual : Int)
  | duplicateLabel (name : String)
  | undefinedLabel (name : String)
  | unknownOpcode (mnemonic : String) (mode : Mode)
  | invalidOperand (mnemonic : String) (mode : Mode)
  | programTooLarge (length capacity : Nat)
  | invalidBinary (digits : String)
  | storage (refusal : Refusal)
  | sumOverflow
  | differenceOverflow
  deriving DecidableEq, Repr

def Fault.message : Fault → String
  | .outOfRange what value min max => s!"{what} out of range: {value} not in {min}..={max}"
  | .branchOutOfRange source target =>
    "branch out of range: $" ++ Digits.hex 4 source ++ " -> $" ++ Digits.hex 4 target
  | .notEqual what expected actual => s!"{what}: expected {expected}, got {actual}"
  | .duplicateLabel name => s!"duplicate label: `{name}`"
  | .undefinedLabel name => s!"undefined label: `{name}`"
  | .unknownOpcode mnemonic mode => s!"no opcode for {mnemonic} in {mode.name} mode"
  | .invalidOperand mnemonic mode => s!"{mnemonic} in {mode.name} mode needs a different operand"
  | .programTooLarge length capacity => s!"program is {length} bytes, image holds {capacity}"
  | .invalidBinary digits => s!"invalid binary literal: `{digits}`"
  | .storage refusal => s!"IO error: {refusal.text}"
  | .sumOverflow => "attempt to add with overflow"
  | .differenceOverflow => "attempt to subtract with overflow"

end Asm6502
