/-
Relative branches.

A branch is a one-byte opcode and a signed offset byte, and the processor adds the offset to the address after the two.
Measured from the opcode, a branch therefore reaches from 126 bytes back to 129 bytes ahead. `branchOffset` gives the
offset byte of a branch, or says that its target is too far.
-/
import Asm6502.Check

namespace Asm6502

/-- a branch end as a message shows it: negative ends as zero, the rest by their low 32 bits -/
def branchEnd (address : Int) : Nat :=
  address.toNat % Check.wordLimit

/-- the offset byte of a branch whose opcode is at `source` and which goes to `target` -/
def branchOffset (source target : Int) : Except Fault UInt8 :=
  let distance := target - source
  if 0x7FFFFFFFFFFFFFFF < distance.natAbs then
    .error .differenceOverflow
  else if -126 ≤ distance ∧ distance ≤ 129 then
    .ok (UInt8.ofInt (distance - 2))
  else
    .error (.branchOutOfRange (branchEnd source) (branchEnd target))

/-- the signed number that an offset byte stands for -/
def signedOffset (offset : UInt8) : Int :=
  offset.toInt8.toInt

end Asm6502
