/-
The movable objects of the screen and the sound channels, each with the registers that control it.

Players, missiles and sound channels come in pairs, numbered 0 and 1; the registers of a pair are neighbours.
-/
import Asm6502.Check
import Asm6502.Console.Registers

namespace Asm6502.Console

/-- the registers of one of the two players -/
structure Player where
  reflect : UInt8
  reset : UInt8
  graphics : UInt8
  horizontalMotion : UInt8
  verticalDelay : UInt8
  deriving DecidableEq, Repr

/-- player 0 or 1 -/
def Player.ofIndex (index : UInt8) : Except Fault Player := do
  Check.inRange "player index" index.toNat 0 1
  pure {
    reflect := refp0 + index
    reset := resp0 + index
    graphics := grp0 + index
    horizontalMotion := hmp0 + index
    verticalDelay := vdelp0 + index }

/-- the registers of one of the two missiles -/
structure Missile where
  reset : UInt8
  enable : UInt8
  horizontalMotion : UInt8
  resetToPlayer : UInt8
  deriving DecidableEq, Repr

def Missile.ofIndex (index : UInt8) : Except Fault Missile := do
  Check.inRange "missile index" index.toNat 0 1
  pure {
    reset := resm0 + index
    enable := enam0 + index
    horizontalMotion := hmm0 + index
    resetToPlayer := resmp0 + index }

structure Ball where
  reset : UInt8
  enable : UInt8
  horizontalMotion : UInt8
  verticalDelay : UInt8
  deriving DecidableEq, Repr

def ball : Ball where
  reset := resbl
  enable := enabl
  horizontalMotion := hmbl
  verticalDelay := vdelbl

/-- the registers of one of the two sound channels -/
structure Audio where
  control : UInt8
  frequency : UInt8
  volume : UInt8
  deriving DecidableEq, Repr

def Audio.ofIndex (index : UInt8) : Except Fault Audio := do
  Check.inRange "audio channel" index.toNat 0 1
  pure {
    control := audc0 + index
    frequency := audf0 + index
    volume := audv0 + index }

end Asm6502.Console
