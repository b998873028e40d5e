/-
Registers of the Atari 2600, by address.

The video and sound chip is written through the zero page; the chip with the timer and the switches needs absolute
addresses. `registers` lists every register under its customary name.
-/
namespace Asm6502.Console

/-! ## Video and sound (zero page) -/

/-- vertical sync -/
def vsync : UInt8 := 0x00

/-- vertical blank -/
def vblank : UInt8 := 0x01

/-- wait for the next scan line -/
def wsync : UInt8 := 0x02

/-- reset the line counter -/
def rsync : UInt8 := 0x03

/-- number and size of player and missile 0 -/
def nusiz0 : UInt8 := 0x04

def nusiz1 : UInt8 := 0x05

/-- colour of player 0 -/
def colup0 : UInt8 := 0x06

def colup1 : UInt8 := 0x07

/-- colour of the playfield -/
def colupf : UInt8 := 0x08

/-- colour of the background -/
def colubk : UInt8 := 0x09

/-- playfield control -/
def ctrlpf : UInt8 := 0x0A

/-- reflect player 0 -/
def refp0 : UInt8 := 0x0B

def refp1 : UInt8 := 0x0C

/-- playfield, first part -/
def pf0 : UInt8 := 0x0D

def pf1 : UInt8 := 0x0E

def pf2 : UInt8 := 0x0F

/-- reset player 0 -/
def resp0 : UInt8 := 0x10

def resp1 : UInt8 := 0x11

/-- reset missile 0 -/
def resm0 : UInt8 := 0x12

def resm1 : UInt8 := 0x13

/-- reset the ball -/
def resbl : UInt8 := 0x14

/-- audio control 0 -/
def audc0 : UInt8 := 0x15

def audc1 : UInt8 := 0x16

/-- audio frequency 0 -/
def audf0 : UInt8 := 0x17

def audf1 : UInt8 := 0x18

/-- audio volume 0 -/
def audv0 : UInt8 := 0x19

def audv1 : UInt8 := 0x1A

/-- graphics of player 0 -/
def grp0 : UInt8 := 0x1B

def grp1 : UInt8 := 0x1C

/-- enable missile 0 -/
def enam0 : UInt8 := 0x1D

def enam1 : UInt8 := 0x1E

/-- enable the ball -/
def enabl : UInt8 := 0x1F

/-- horizontal motion of player 0 -/
def hmp0 : UInt8 := 0x20

def hmp1 : UInt8 := 0x21

/-- horizontal motion of missile 0 -/
def hmm0 : UInt8 := 0x22

def hmm1 : UInt8 := 0x23

/-- horizontal motion of the ball -/
def hmbl : UInt8 := 0x24

/-- vertical delay of player 0 -/
def vdelp0 : UInt8 := 0x25

def vdelp1 : UInt8 := 0x26

/-- vertical delay of the ball -/
def vdelbl : UInt8 := 0x27

/-- reset missile 0 to its player -/
def resmp0 : UInt8 := 0x28

def resmp1 : UInt8 := 0x29

/-- apply horizontal motion -/
def hmove : UInt8 := 0x2A

/-- clear horizontal motion -/
def hmclr : UInt8 := 0x2B

/-- clear collisions -/
def cxclr : UInt8 := 0x2C

/-! ## Timer and switches (absolute) -/

/-- joysticks -/
def swcha : UInt16 := 0x280

/-- data direction of the joysticks -/
def swacnt : UInt16 := 0x281

/-- console switches -/
def swchb : UInt16 := 0x282

/-- data direction of the console switches -/
def swbcnt : UInt16 := 0x283

/-- timer output -/
def intim : UInt16 := 0x284

def tim1t : UInt16 := 0x294

def tim8t : UInt16 := 0x295

/-- set the timer, step 64 -/
def tim64t : UInt16 := 0x296

def t1024t : UInt16 := 0x297

/-! ## All registers -/

/-- every register under its customary name -/
def registers : List (String × Nat) :=
  [("VSYNC", vsync.toNat), ("VBLANK", vblank.toNat), ("WSYNC", wsync.toNat), ("RSYNC", rsync.toNat),
    ("NUSIZ0", nusiz0.toNat), ("NUSIZ1", nusiz1.toNat), ("COLUP0", colup0.toNat), ("COLUP1", colup1.toNat),
    ("COLUPF", colupf.toNat), ("COLUBK", colubk.toNat), ("CTRLPF", ctrlpf.toNat), ("REFP0", refp0.toNat),
    ("REFP1", refp1.toNat), ("PF0", pf0.toNat), ("PF1", pf1.toNat), ("PF2", pf2.toNat),
    ("RESP0", resp0.toNat), ("RESP1", resp1.toNat), ("RESM0", resm0.toNat), ("RESM1", resm1.toNat),
    ("RESBL", resbl.toNat), ("AUDC0", audc0.toNat), ("AUDC1", audc1.toNat), ("AUDF0", audf0.toNat),
    ("AUDF1", audf1.toNat), ("AUDV0", audv0.toNat), ("AUDV1", audv1.toNat), ("GRP0", grp0.toNat),
    ("GRP1", grp1.toNat), ("ENAM0", enam0.toNat), ("ENAM1", enam1.toNat), ("ENABL", enabl.toNat),
    ("HMP0", hmp0.toNat), ("HMP1", hmp1.toNat), ("HMM0", hmm0.toNat), ("HMM1", hmm1.toNat),
    ("HMBL", hmbl.toNat), ("VDELP0", vdelp0.toNat), ("VDELP1", vdelp1.toNat), ("VDELBL", vdelbl.toNat),
    ("RESMP0", resmp0.toNat), ("RESMP1", resmp1.toNat), ("HMOVE", hmove.toNat), ("HMCLR", hmclr.toNat),
    ("CXCLR", cxclr.toNat), ("SWCHA", swcha.toNat), ("SWACNT", swacnt.toNat), ("SWCHB", swchb.toNat),
    ("SWBCNT", swbcnt.toNat), ("INTIM", intim.toNat), ("TIM1T", tim1t.toNat), ("TIM8T", tim8t.toNat),
    ("TIM64T", tim64t.toNat), ("T1024T", t1024t.toNat)]

end Asm6502.Console
