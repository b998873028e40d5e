/-
Compilation: both passes, the image and the listing of a program for a cartridge.

The checks come in a fixed order, and the first one that fails decides: the cartridge's origin, the room for the
program, pass one, pass two, the image, the listing. The reports made before a failure are kept.
-/
import Asm6502.Cartridge
import Asm6502.Program

namespace Asm6502

structure Assembly where
  origin : Nat
  labels : Labels
  bytes : Memory
  image : Array UInt8
  listing : String

def report (event : Event) : EStateM Fault (List Event) Unit :=
  modify fun trace => trace ++ [event]

def Program.compile (program : Program) (cartridge : Cartridge) : EStateM Fault (List Event) Assembly := do
  let origin ← cartridge.origin
  let length ← program.length
  cartridge.ensureFits length
  report (.layoutStarted origin program.tree.count length)
  let labels ← program.layout origin
  report (.resolutionStarted labels.size)
  let bytes ← program.resolve labels origin
  let image ← cartridge.pack length bytes
  let listing ← program.render bytes origin
  report (.compiled bytes.size)
  pure { origin, labels, bytes, image, listing }

namespace Assembly

/-- writes the image over the start of a buffer, which must be long enough -/
def writeImage (assembly : Assembly) (buffer : Array UInt8) : Except Fault (Array UInt8) :=
  if assembly.image.size ≤ buffer.size then
    .ok (assembly.image ++ buffer.extract assembly.image.size)
  else
    .error (.storage .bufferFull)

/-- the listing under a heading, as it is shown to a reader -/
def printedListing (assembly : Assembly) : String :=
  "\nAssembly Listing:\n" ++ String.ofList (List.replicate 70 '-') ++ "\n" ++ assembly.listing

end Assembly

end Asm6502
