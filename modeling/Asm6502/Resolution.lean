/-
Pass two: every node's byte is stored at the node's address.

The pass walks the tree as pass one does. A node that has a byte stores it and moves the address on by the node's
length; a node without a byte leaves the address as it is, and a named one is reported. Past each child the address
moves by the child's whole length.

A `Memory` maps addresses to bytes and lists them in ascending order. A failed pass leaves behind the bytes stored
before it stopped.
-/
import Std.Data.TreeMap
import Std.Data.TreeMap.Slice
import Asm6502.Labels
import Asm6502.Trace
import Asm6502.Tree

namespace Asm6502

/-- bytes by address, in ascending order -/
abbrev Memory := Std.TreeMap Nat UInt8

namespace Memory

/-- the memory that stores the given bytes one after the other -/
def ofPairs (pairs : List (Nat × UInt8)) : Memory :=
  pairs.foldl (fun bytes pair => bytes.insert pair.1 pair.2) ∅

/-- the stored bytes with addresses from `first` up to but not including `last`, in ascending order -/
def range (bytes : Memory) (first last : Nat) : List UInt8 :=
  bytes[first...last].toList.map Prod.snd

end Memory

/-- what pass two has stored so far -/
structure Resolution where
  bytes : Memory
  trace : List Event

/-- stores the node's own byte, if it has one; the result is the address at which its children start -/
def Node.resolve (labels : Labels) (node : Node) (address : Nat) : EStateM Fault Resolution Nat := do
  match ← node.kind.byte labels address with
  | some byte =>
    modify fun stored => { stored with bytes := stored.bytes.insert address byte }
    Check.add address node.length
  | none =>
    match node.label with
    | some name => modify fun stored => { stored with trace := stored.trace ++ [.reached name address] }
    | none => pure ()
    pure address

/-- stores the bytes of each tree, the first tree being at `address` -/
def Forest.resolve (labels : Labels) : Forest → (address : Nat) → EStateM Fault Resolution Unit
  | .nil, _ => pure ()
  | .cons _ node children rest, address => do
    let inside ← node.resolve labels address
    children.resolve labels inside
    let length ← node.lengthWith children
    let next ← Check.add address length
    rest.resolve labels next

/-- stores the bytes of a node at `address` and of all nodes below it -/
def Tree.resolve (tree : Tree) (labels : Labels) (id : Fin tree.size) (address : Nat) :
    EStateM Fault Resolution Unit := do
  let inside ← (tree.node id).resolve labels address
  (tree.under id).resolve labels inside

end Asm6502
