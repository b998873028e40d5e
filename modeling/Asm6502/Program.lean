/-
Programs under construction.

A program is a tree and the instruction set from which its opcodes are taken. Items are appended below the root; the
operand bytes of an instruction are the children of its node. The two passes and the listing of a program are those of
its tree, from the root.
-/
import Asm6502.InstructionSet
import Asm6502.Item
import Asm6502.Layout
import Asm6502.Listing

namespace Asm6502

/-- a tree with one more node of length one under `parent` for each part -/
def Tree.pushParts (tree : Tree) (parent : Fin tree.size) : List Kind → Tree
  | [] => tree
  | part :: parts =>
    (tree.push parent none 1 part).pushParts ⟨parent.val, by rw [size_push]; omega⟩ parts

/-- a tree with one more instruction below the root, its operand bytes below it -/
def Tree.pushInstruction (tree : Tree) (mnemonic : String) (opcode : UInt8) (form : Form) : Tree :=
  (tree.push tree.root none 1 (.instruction mnemonic form.mode opcode form.operand)).pushParts
    ⟨tree.size, by rw [size_push]; omega⟩ form.parts

structure Program where
  tree : Tree
  opcodes : InstructionSet

namespace Program

/-- the empty program, for the 6502 -/
def new : Program :=
  ⟨.new, .mos6502⟩

/-- the program with one more item at its end -/
def append (program : Program) : Item → Program
  | .label name => { program with tree := program.tree.push program.tree.root (some name) 0 .label }
  | .data value => { program with tree := program.tree.push program.tree.root none 1 (.data value) }
  | .instruction mnemonic opcode form =>
    { program with tree := program.tree.pushInstruction mnemonic opcode form }

def length (program : Program) : Except Fault Nat :=
  program.tree.length program.tree.root

/-- pass one from `origin`: the labels with their addresses -/
def layout (program : Program) (origin : Nat) : EStateM Fault (List Event) Labels := fun trace =>
  match program.tree.layout program.tree.root origin ⟨.empty, trace⟩ with
  | .ok () found => .ok found.labels found.trace
  | .error fault found => .error fault found.trace

/-- pass two from `origin`: the bytes with their addresses -/
def resolve (program : Program) (labels : Labels) (origin : Nat) : EStateM Fault (List Event) Memory := fun trace =>
  match program.tree.resolve labels program.tree.root origin ⟨∅, trace⟩ with
  | .ok () stored => .ok stored.bytes stored.trace
  | .error fault stored => .error fault stored.trace

/-- the listing from `origin`, with the bytes of pass two -/
def render (program : Program) (bytes : Memory) (origin : Nat) : Except Fault String :=
  program.tree.render bytes program.tree.root origin ""

end Program

end Asm6502
