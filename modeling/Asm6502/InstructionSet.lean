/-
The 6502 instruction set: which opcode a mnemonic has in which addressing mode.

Mnemonics with one fixed mode (implied or relative) stand in one table, the operand-taking ones in a second table with
an opcode for each of their modes. `lookup` asks the first table and then the second, so a mnemonic in both is found in
every mode that either gives it.
-/
import Asm6502.Mode

namespace Asm6502

structure InstructionSet where
  /-- mnemonics that have one mode only -/
  single : List (String × Mode × UInt8)
  /-- mnemonics with an opcode for each of several modes -/
  extended : List (String × List (Mode × UInt8))
  deriving DecidableEq, Repr

namespace InstructionSet

/-- the opcode of `mnemonic` in `mode`, if it has one -/
def lookup (set : InstructionSet) (mnemonic : String) (mode : Mode) : Option UInt8 :=
  let multiple := (set.extended.lookup mnemonic).bind (·.lookup mode)
  match set.single.lookup mnemonic with
  | some (own, opcode) => if own = mode then some opcode else multiple
  | none => multiple

/-! ## The documented 6502 -/

/-- implied and relative instructions -/
def singleModes : List (String × Mode × UInt8) :=
  [("BRK", .implied, 0x00), ("NOP", .implied, 0xEA), ("RTS", .implied, 0x60), ("RTI", .implied, 0x40),
    ("CLC", .implied, 0x18), ("SEC", .implied, 0x38), ("CLD", .implied, 0xD8), ("SED", .implied, 0xF8),
    ("CLI", .implied, 0x58), ("SEI", .implied, 0x78), ("CLV", .implied, 0xB8), ("INX", .implied, 0xE8),
    ("INY", .implied, 0xC8), ("DEX", .implied, 0xCA), ("DEY", .implied, 0x88), ("TAX", .implied, 0xAA),
    ("TXA", .implied, 0x8A), ("TAY", .implied, 0xA8), ("TYA", .implied, 0x98), ("TSX", .implied, 0xBA),
    ("TXS", .implied, 0x9A), ("PHA", .implied, 0x48), ("PLA", .implied, 0x68), ("PHP", .implied, 0x08),
    ("PLP", .implied, 0x28), ("BCC", .relative, 0x90), ("BCS", .relative, 0xB0), ("BEQ", .relative, 0xF0),
    ("BMI", .relative, 0x30), ("BNE", .relative, 0xD0), ("BPL", .relative, 0x10), ("BVC", .relative, 0x50),
    ("BVS", .relative, 0x70)]

/-- instructions that take an operand or work on the accumulator, mode by mode -/
def operandModes : List (String × List (Mode × UInt8)) :=
  [("LDA", [(.immediate, 0xA9), (.zeroPage .none, 0xA5), (.zeroPage .x, 0xB5), (.absolute .none, 0xAD),
      (.absolute .x, 0xBD), (.absolute .y, 0xB9)]),
    ("LDX", [(.immediate, 0xA2), (.zeroPage .none, 0xA6), (.zeroPage .y, 0xB6), (.absolute .none, 0xAE),
      (.absolute .y, 0xBE)]),
    ("LDY", [(.immediate, 0xA0), (.zeroPage .none, 0xA4), (.zeroPage .x, 0xB4), (.absolute .none, 0xAC),
      (.absolute .x, 0xBC)]),
    ("STA", [(.zeroPage .none, 0x85), (.zeroPage .x, 0x95), (.absolute .none, 0x8D), (.absolute .x, 0x9D),
      (.absolute .y, 0x99)]),
    ("STX", [(.zeroPage .none, 0x86), (.zeroPage .y, 0x96), (.absolute .none, 0x8E)]),
    ("STY", [(.zeroPage .none, 0x84), (.zeroPage .x, 0x94), (.absolute .none, 0x8C)]),
    ("ADC", [(.immediate, 0x69), (.zeroPage .none, 0x65), (.zeroPage .x, 0x75), (.absolute .none, 0x6D),
      (.absolute .x, 0x7D), (.absolute .y, 0x79)]),
    ("SBC", [(.immediate, 0xE9), (.zeroPage .none, 0xE5), (.zeroPage .x, 0xF5), (.absolute .none, 0xED),
      (.absolute .x, 0xFD), (.absolute .y, 0xF9)]),
    ("AND", [(.immediate, 0x29), (.zeroPage .none, 0x25), (.zeroPage .x, 0x35), (.absolute .none, 0x2D),
      (.absolute .x, 0x3D), (.absolute .y, 0x39)]),
    ("ORA", [(.immediate, 0x09), (.zeroPage .none, 0x05), (.zeroPage .x, 0x15), (.absolute .none, 0x0D),
      (.absolute .x, 0x1D), (.absolute .y, 0x19)]),
    ("EOR", [(.immediate, 0x49), (.zeroPage .none, 0x45), (.zeroPage .x, 0x55), (.absolute .none, 0x4D),
      (.absolute .x, 0x5D), (.absolute .y, 0x59)]),
    ("CMP", [(.immediate, 0xC9), (.zeroPage .none, 0xC5), (.zeroPage .x, 0xD5), (.absolute .none, 0xCD),
      (.absolute .x, 0xDD), (.absolute .y, 0xD9)]),
    ("CPX", [(.immediate, 0xE0), (.zeroPage .none, 0xE4), (.absolute .none, 0xEC)]),
    ("CPY", [(.immediate, 0xC0), (.zeroPage .none, 0xC4), (.absolute .none, 0xCC)]),
    ("BIT", [(.zeroPage .none, 0x24), (.absolute .none, 0x2C)]),
    ("ASL", [(.accumulator, 0x0A), (.zeroPage .none, 0x06), (.zeroPage .x, 0x16), (.absolute .none, 0x0E),
      (.absolute .x, 0x1E)]),
    ("LSR", [(.accumulator, 0x4A), (.zeroPage .none, 0x46), (.zeroPage .x, 0x56), (.absolute .none, 0x4E),
      (.absolute .x, 0x5E)]),
    ("ROL", [(.accumulator, 0x2A), (.zeroPage .none, 0x26), (.zeroPage .x, 0x36), (.absolute .none, 0x2E),
      (.absolute .x, 0x3E)]),
    ("ROR", [(.accumulator, 0x6A), (.zeroPage .none, 0x66), (.zeroPage .x, 0x76), (.absolute .none, 0x6E),
      (.absolute .x, 0x7E)]),
    ("DEC", [(.zeroPage .none, 0xC6), (.zeroPage .x, 0xD6), (.absolute .none, 0xCE), (.absolute .x, 0xDE)]),
    ("INC", [(.zeroPage .none, 0xE6), (.zeroPage .x, 0xF6), (.absolute .none, 0xEE), (.absolute .x, 0xFE)]),
    ("JMP", [(.absolute .none, 0x4C)]),
    ("JSR", [(.absolute .none, 0x20)])]

def mos6502 : InstructionSet :=
  ⟨singleModes, operandModes⟩

end InstructionSet

end Asm6502
