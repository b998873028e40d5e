/-
Bytes written as eight binary digits, and colours.

A binary literal is eight bytes of text, each digit 0 or 1; one plus sign may stand in front of the digits. A colour
byte has its hue in the upper four bits and its luminance in the three bits below, bit 0 being unused.
-/
import Asm6502.Check

namespace Asm6502.Console

/-- the value of a binary digit -/
def bit? : Char → Option Nat
  | '0' => some 0
  | '1' => some 1
  | _ => none

/-- the value of binary digits after those already read, the highest first -/
def readBits : List Char → (read : Nat) → Option Nat
  | [], read => some read
  | digit :: digits, read =>
    match bit? digit with
    | some bit => readBits digits (2 * read + bit)
    | none => none

/-- the value of a binary number with an optional plus sign -/
def readBinary (digits : List Char) : Option Nat :=
  match digits with
  | [] => none
  | ['+'] => none
  | '+' :: digits => readBits digits 0
  | digits => readBits digits 0

/-- the byte that an eight-digit binary literal stands for -/
def binary (digits : String) : Except Fault UInt8 := do
  Check.equal "binary literal width" 8 digits.utf8ByteSize
  match readBinary digits.toList with
  | some value => pure (UInt8.ofNat value)
  | none => throw (.invalidBinary digits)

def colour (hue luminance : UInt8) : Except Fault UInt8 := do
  Check.inRange "colour hue" hue.toNat 0 15
  Check.inRange "colour luminance" luminance.toNat 0 7
  pure (hue <<< 4 ||| luminance <<< 1)

def black : UInt8 := 0x00

end Asm6502.Console
