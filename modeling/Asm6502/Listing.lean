/-
The listing: a program for human readers.

A label has a block of its own, set off by blank lines. Every instruction and every data byte has one line with its
address, its text, and its bytes in decimal and in hexadecimal. The bytes of an instruction are those stored from its
address on, over its whole length; after the decimal bytes of a branch stands its signed offset in brackets.
-/
import Asm6502.Resolution

namespace Asm6502

namespace Listing

/-- the address column: hexadecimal, then decimal -/
def address (address : Nat) : String :=
  Digits.hex 2 address ++ s!" {address} : "

/-- one line: text in forty columns, decimal bytes in fifteen, hexadecimal bytes -/
def line (text decimal hexadecimal : String) : String :=
  Digits.column 40 text ++ Digits.column 15 decimal ++ hexadecimal

/-- bytes in decimal, a blank between two -/
def decimal (bytes : List UInt8) : String :=
  Digits.spaced (bytes.map fun byte => toString byte.toNat)

/-- bytes in two hexadecimal digits each, a blank between two -/
def hexadecimal (bytes : List UInt8) : String :=
  Digits.spaced (bytes.map fun byte => Digits.hex 2 byte.toNat)

/-- the signed offset of a branch with the given bytes, in brackets -/
def offsetNote (mode : Mode) (bytes : List UInt8) : String :=
  match mode, bytes with
  | .relative, _ :: offset :: _ => s!" [{signedOffset offset}]"
  | _, _ => ""

def labelBlock (place : Nat) (name : String) : String :=
  "\n" ++ address place ++ name ++ ":\n\n"

def instructionLine (place : Nat) (mnemonic : String) (mode : Mode) (operand : Option Operand)
    (bytes : List UInt8) : String :=
  let argument := match operand with
    | some operand => " " ++ operand.text
    | none => ""
  line (address place ++ mnemonic ++ mode.suffix ++ argument) (decimal bytes ++ offsetNote mode bytes)
    (hexadecimal bytes) ++ "\n"

def dataLine (place : Nat) (value : UInt8) : String :=
  line (address place ++ s!".byte {value.toNat}") (decimal [value]) (hexadecimal [value]) ++ "\n"

end Listing

/-- what the listing says about a node at `address` with the given trees below it -/
def Node.listing (bytes : Memory) (node : Node) (children : Forest) (address : Nat) : Except Fault String :=
  match node.kind with
  | .label => .ok (Listing.labelBlock address (node.label.getD ""))
  | .instruction mnemonic mode _ operand => do
    let length ← node.lengthWith children
    let stop ← Check.add address length
    pure (Listing.instructionLine address mnemonic mode operand (bytes.range address stop))
  | .data value => .ok (Listing.dataLine address value)
  | _ => .ok ""

/-- the text `out` followed by the listing of each tree, the first tree being at `address` -/
def Forest.render (bytes : Memory) : Forest → (address : Nat) → (out : String) → Except Fault String
  | .nil, _, out => .ok out
  | .cons _ node children rest, address, out => do
    let own ← node.listing bytes children address
    let inside ← Check.add address node.length
    let out ← children.render bytes inside (out ++ own)
    let length ← node.lengthWith children
    let next ← Check.add address length
    rest.render bytes next out

/-- the text `out` followed by the listing of a node at `address` and of all nodes below it -/
def Tree.render (tree : Tree) (bytes : Memory) (id : Fin tree.size) (address : Nat) (out : String) :
    Except Fault String := do
  let node := tree.node id
  let children := tree.under id
  let own ← node.listing bytes children address
  let inside ← Check.add address node.length
  children.render bytes inside (out ++ own)

end Asm6502
