import Asm6502.Assembly
import Asm6502.Builder
import Asm6502.Cartridge
import Asm6502.Check
import Asm6502.Console.Frame
import Asm6502.Console.Objects
import Asm6502.Console.Registers
import Asm6502.Console.Step
import Asm6502.Console.Value
import Asm6502.Demo.Disk
import Asm6502.Demo.Options
import Asm6502.Demo.Session
import Asm6502.Digits
import Asm6502.Fault
import Asm6502.InstructionSet
import Asm6502.Item
import Asm6502.Kind
import Asm6502.Labels
import Asm6502.Layout
import Asm6502.Listing
import Asm6502.Main
import Asm6502.Mode
import Asm6502.Operand
import Asm6502.Program
import Asm6502.Reach
import Asm6502.Resolution
import Asm6502.Trace
import Asm6502.Tree
import Asm6502.Proofs.Flat
import Asm6502.Proofs.Arena
import Asm6502.Proofs.Binding
import Asm6502.Proofs.Storing
import Asm6502.Proofs.Image
import Asm6502.Proofs.Compilation
import Asm6502.Proofs.Acceptance
import Asm6502.Proofs.Disassembly
import Asm6502.Proofs.Refinement
import Asm6502.Proofs.Strict
import Asm6502.Proofs.Safety
import Asm6502.Proofs.Representation
import Asm6502.Proofs.Outcome
import Asm6502.Proofs.Extension
import Asm6502.Proofs.Relocation
import Asm6502.Proofs.Columns
import Asm6502.Proofs.Listing
import Asm6502.Proofs.Delivery
import Asm6502.Proofs.Destinations
import Asm6502.Proofs.Renaming
import Asm6502.Proofs.Scan
import Asm6502.Proofs.Places
import Asm6502.Proofs.Growth
import Asm6502.Proofs.Drift
import Asm6502.Proofs.Emitting
import Asm6502.Proofs.Packing
import Asm6502.Proofs.Frames
import Asm6502.Proofs.Branches
import Asm6502.Proofs.Literals
import Asm6502.Proofs.Reports
import Asm6502.Proofs.Spacing
import Asm6502.Proofs.Descent
import Asm6502.Proofs.Subtrees
