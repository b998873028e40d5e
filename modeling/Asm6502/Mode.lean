/-
Addressing modes of the 6502 that the assembler can produce.

Zero-page and absolute operands may be indexed by one of the two index registers, so a mode is one of six shapes, two
of them with an index. A mode has two texts: its name, used in messages, and the suffix that a listing puts after the
mnemonic.
-/
namespace Asm6502

/-- the register added to an address, if any -/
inductive Index where
  | none
  | x
  | y
  deriving DecidableEq, Repr

/-- how an instruction finds its operand -/
inductive Mode where
  | implied
  | accumulator
  | immediate
  | zeroPage (index : Index)
  | absolute (index : Index)
  | relative
  deriving DecidableEq, Repr

namespace Mode

/-- the ten modes in their customary order -/
def all : List Mode :=
  [.implied, .accumulator, .immediate, .zeroPage .none, .zeroPage .x, .zeroPage .y,
    .absolute .none, .absolute .x, .absolute .y, .relative]

def name : Mode → String
  | .implied => "implied"
  | .accumulator => "accumulator"
  | .immediate => "immediate"
  | .zeroPage .none => "zeropage"
  | .zeroPage .x => "zeropage,X"
  | .zeroPage .y => "zeropage,Y"
  | .absolute .none => "absolute"
  | .absolute .x => "absolute,X"
  | .absolute .y => "absolute,Y"
  | .relative => "relative"

/-- what a listing writes directly after the mnemonic -/
def suffix : Mode → String
  | .implied => ""
  | .accumulator => ""
  | .immediate => "_immediate"
  | .zeroPage .none => "_zeroPage"
  | .zeroPage .x => "_zeroPageX"
  | .zeroPage .y => "_zeroPageY"
  | .absolute .none => "_absolute"
  | .absolute .x => "_absoluteX"
  | .absolute .y => "_absoluteY"
  | .relative => ""

end Mode

end Asm6502
