/-
Pass one: every label gets an address.

The pass walks a tree from the top down and from left to right with the address of the next byte. A named node binds
its name to the address at which it stands; a name bound before stops the pass. The address then moves on by the
node's own length, and past each child by the child's whole length.

The pass runs in `EStateM`, so a failed pass leaves behind the labels bound before it stopped.
-/
import Asm6502.Labels
import Asm6502.Trace
import Asm6502.Tree

namespace Asm6502

/-- what pass one has found so far -/
structure Bindings where
  labels : Labels
  trace : List Event
  deriving DecidableEq, Repr

/-- binds `name` to `address`, unless it is bound already -/
def bindLabel (name : String) (address : Nat) : EStateM Fault Bindings Unit := do
  if (← get).labels.contains name then
    throw (.duplicateLabel name)
  else
    modify fun found =>
      { labels := found.labels.insert name address, trace := found.trace ++ [.bound name address] }

/-- binds the node's own name, if it has one; the result is the address after the node's own bytes -/
def Node.layout (node : Node) (address : Nat) : EStateM Fault Bindings Nat := do
  match node.label with
  | some name => bindLabel name address
  | none => pure ()
  Check.add address node.length

/-- binds the names in each tree, the first tree being at `address` -/
def Forest.layout : Forest → (address : Nat) → EStateM Fault Bindings Unit
  | .nil, _ => pure ()
  | .cons _ node children rest, address => do
    let inside ← node.layout address
    children.layout inside
    let length ← node.lengthWith children
    let next ← Check.add address length
    rest.layout next

/-- binds the names of a node at `address` and of all nodes below it -/
def Tree.layout (tree : Tree) (id : Fin tree.size) (address : Nat) : EStateM Fault Bindings Unit := do
  let inside ← (tree.node id).layout address
  (tree.under id).layout inside

end Asm6502
