/-
Cartridges and their images.

A cartridge holds `capacity` bytes at the top of the 64 KiB address space, so its first address, the origin, follows
from its capacity and must lie on a bank boundary. The last four bytes are the reset and interrupt vectors, both
pointing at the origin; the program must stay clear of them. `pack` lays the stored bytes out in a zero-filled image.
-/
import Asm6502.Resolution

namespace Asm6502

/-- a cartridge: its size and the size of its banks, in bytes -/
structure Cartridge where
  capacity : Nat := 4096
  bankSize : Nat := 256
  deriving DecidableEq, Repr

namespace Cartridge

/-- the bytes at the end of the image that hold the vectors -/
def vectorBytes : Nat := 4

def addressSpace : Nat := 0x10000

/-- the address of the first byte of the image -/
def origin (cartridge : Cartridge) : Except Fault Nat := do
  Check.inRange "image capacity" cartridge.capacity vectorBytes addressSpace
  Check.inRange "bank size" cartridge.bankSize 1 addressSpace
  let origin := addressSpace - cartridge.capacity
  Check.equal "origin alignment" 0 (origin % cartridge.bankSize : Nat)
  pure origin

/-- the bytes that a program may take -/
def room (cartridge : Cartridge) : Nat :=
  cartridge.capacity - vectorBytes

/-- fails unless a program of `length` bytes stays clear of the vectors -/
def ensureFits (cartridge : Cartridge) (length : Nat) : Except Fault Unit :=
  if length ≤ cartridge.room then .ok () else .error (.programTooLarge length cartridge.room)

/-- stores one byte in an image that starts at `origin` -/
def place (cartridge : Cartridge) (origin : Nat) (image : Array UInt8) (entry : Nat × UInt8) :
    Except Fault (Array UInt8) := do
  Check.inRange "image offset" ((entry.1 : Int) - origin) 0 ((cartridge.capacity : Int) - 1)
  pure (image.setIfInBounds (entry.1 - origin) entry.2)

/-- writes both vectors, low byte first, into the last four bytes -/
def writeVectors (cartridge : Cartridge) (origin : Nat) (image : Array UInt8) : Array UInt8 :=
  let low := UInt8.ofNat (origin % 256)
  let high := UInt8.ofNat (origin / 256)
  let tail := cartridge.room
  image |>.setIfInBounds tail low |>.setIfInBounds (tail + 1) high
    |>.setIfInBounds (tail + 2) low |>.setIfInBounds (tail + 3) high

/-- the image of a program of `length` bytes -/
def pack (cartridge : Cartridge) (length : Nat) (bytes : Memory) : Except Fault (Array UInt8) := do
  let origin ← cartridge.origin
  cartridge.ensureFits length
  let image ← bytes.toList.foldlM (cartridge.place origin) (Array.replicate cartridge.capacity 0)
  pure (cartridge.writeVectors origin image)

end Cartridge

end Asm6502
