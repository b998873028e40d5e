/-
The routines around the visible part of a television frame.

A frame is 3 lines of vertical sync, 37 lines of vertical blank, 192 visible lines and 30 lines of overscan. A
`Routine` is one piece of the boilerplate; its script is a list of builder calls, some with a value that is written in
binary. The two routines that wait in a loop put a suffix after their loop label, so that each use in a program has a
label of its own.
-/
import Asm6502.Builder
import Asm6502.Console.Registers
import Asm6502.Console.Value

namespace Asm6502.Console

/-- a piece of a frame program -/
inductive Routine where
  /-- halts the processor until the next scan line -/
  | lineSync
  /-- applies the horizontal motion registers; directly after a line sync -/
  | applyMotion
  /-- interrupts off, decimal mode off, stack pointer to the top -/
  | cleanStart
  /-- three lines of vertical sync, then the timer runs for the vertical blank -/
  | startOfVerticalBlank
  /-- waits for the timer, then ends the vertical blank -/
  | waitForEndOfVerticalBlank (suffix : String)
  /-- starts the vertical blank and waits for 30 lines -/
  | overscan (suffix : String)
  deriving DecidableEq, Repr

def zeroPageRegister (register : UInt8) : Operand :=
  .literal (Int32.ofNat register.toNat)

def absoluteRegister (register : UInt16) : Operand :=
  .literal (Int32.ofNat register.toNat)

/-- stores the accumulator in a zero-page register -/
def store (register : UInt8) : Call :=
  .staZeroPage (zeroPageRegister register)

/-- the loop label of a wait for the end of the vertical blank -/
def blankLabel (suffix : String) : String :=
  s!"WaitForVblankEnd-{suffix}"

def overscanLabel (suffix : String) : String :=
  s!"overScanWaitLoop-{suffix}"

/-- loads the accumulator with a byte that is written in binary -/
def ldaBinary (digits : String) : Except Fault Call := do
  let value ← binary digits
  pure (.ldaImmediate (Int32.ofNat value.toNat))

/-- the calls of a routine in order; a binary literal is read when the call that takes it comes up -/
def Routine.script : Routine → List (Except Fault Call)
  | .lineSync => [.ok (store wsync)]
  | .applyMotion => [.ok (store hmove)]
  | .cleanStart => [.ok .sei, .ok .cld, .ok (.ldxImmediate 0xFF), .ok .txs]
  | .startOfVerticalBlank =>
    [ldaBinary "00000010", .ok (store vsync), .ok (store wsync), .ok (store wsync), .ok (store wsync),
      .ok (.ldaImmediate 43), .ok (.staAbsolute (absoluteRegister tim64t)),
      ldaBinary "00000000", .ok (store vsync)]
  | .waitForEndOfVerticalBlank suffix =>
    [.ok (.label (blankLabel suffix)), .ok (.ldaAbsolute (absoluteRegister intim)),
      .ok (.bne (.label (blankLabel suffix))), .ok (store wsync), .ok (store vblank)]
  | .overscan suffix =>
    [.ok (.ldaImmediate 2), .ok (store wsync), .ok (store vblank), .ok (.ldxImmediate 30),
      .ok (.label (overscanLabel suffix)), .ok (store wsync), .ok .dex, .ok (.bne (.label (overscanLabel suffix)))]

def Routine.run (routine : Routine) : Builder Unit :=
  Call.runAll routine.script

end Asm6502.Console
