/-
Strict compilation: the same stages on a machine that stops at every operation it cannot carry out.

Lengths are 32-bit numbers, differences are 64-bit numbers, a remainder by zero has no value and an image may not be
left. Addresses are kept shorter still: no sum of addresses may pass `top`, where the vectors start. An operation that
breaks one of these rules is a `Trap`, and nothing like a fault that a compilation reports.

Each function here is one of a compilation with its operations replaced by strict ones; checks and reports are taken
over as they are (`reported`, `reportedBy`).
-/
import Asm6502.Assembly

namespace Asm6502.Strict

/-- an operation that cannot be carried out -/
inductive Trap where
  | sum
  | difference
  | remainder
  | index
  deriving DecidableEq, Repr

/-- why a strict stage stops: it reports a fault, or an operation cannot be carried out -/
inductive Stop where
  | fault (fault : Fault)
  | trap (trap : Trap)

/-! ## Operations -/

/-- no address that is formed goes beyond the first byte of the vectors -/
def top : Nat := 0xFFFC

def wordMost : Nat := 0xFFFFFFFF

/-- a sum that may not exceed `most` -/
def add (most a b : Nat) : Except Stop Nat :=
  if a + b ≤ most then .ok (a + b) else .error (.trap .sum)

def subtract (a b : Nat) : Except Stop Nat :=
  if b ≤ a then .ok (a - b) else .error (.trap .difference)

/-- a difference of signed 64-bit numbers -/
def difference (a b : Int) : Except Stop Int :=
  if -0x8000000000000000 ≤ a - b ∧ a - b ≤ 0x7FFFFFFFFFFFFFFF then .ok (a - b) else .error (.trap .difference)

/-- a remainder of unsigned numbers -/
def remainder (a b : Nat) : Except Stop Nat :=
  if b = 0 then .error (.trap .remainder) else .ok (a % b)

/-- one byte of an image is replaced -/
def store (image : Array UInt8) (place : Nat) (byte : UInt8) : Except Stop (Array UInt8) :=
  if place < image.size then .ok (image.setIfInBounds place byte) else .error (.trap .index)

/-- the bytes of an image from `first` up to but not including `last` are replaced by as many others -/
def copy (image : Array UInt8) (first last : Nat) (bytes : List UInt8) : Except Stop (Array UInt8) :=
  if first ≤ last ∧ last ≤ image.size ∧ bytes.length = last - first then go image first bytes
  else .error (.trap .index)
where
  go (image : Array UInt8) (place : Nat) : List UInt8 → Except Stop (Array UInt8)
    | [] => .ok image
    | byte :: bytes => do
      let image ← store image place byte
      go image (place + 1) bytes

/-- what a check reports, in a strict stage -/
def reported {α : Type} : Except Fault α → Except Stop α
  | .ok a => .ok a
  | .error fault => .error (.fault fault)

/-- what a pass does and reports, in a strict stage -/
def reportedBy {σ α : Type} (pass : EStateM Fault σ α) : EStateM Stop σ α := fun s =>
  match pass s with
  | .ok a s => .ok a s
  | .error fault s => .error (.fault fault) s

/-- a strict operation inside a pass: what stops it stops the pass and keeps its state -/
instance {σ : Type} : MonadLift (Except Stop) (EStateM Stop σ) where
  monadLift
    | .ok a => pure a
    | .error stop => throw stop

/-! ## Lengths and pass one -/

def total : Forest → (sum : Nat) → Except Stop Nat
  | .nil, sum => .ok sum
  | .cons _ node children rest, sum => do
    let below ← total children 0
    let length ← add wordMost node.length below
    let sum ← add wordMost sum length
    total rest sum

def lengthWith (node : Node) (children : Forest) : Except Stop Nat := do
  let below ← total children 0
  add wordMost node.length below

def layoutNode (node : Node) (address : Nat) : EStateM Stop Bindings Nat := do
  match node.label with
  | some name => reportedBy (bindLabel name address)
  | none => pure ()
  add top address node.length

def layoutForest : Forest → (address : Nat) → EStateM Stop Bindings Unit
  | .nil, _ => pure ()
  | .cons _ node children rest, address => do
    let inside ← layoutNode node address
    layoutForest children inside
    let length ← lengthWith node children
    let next ← add top address length
    layoutForest rest next

/-! ## Pass two -/

def branchOffset (source target : Int) : Except Stop UInt8 := do
  let distance ← if target ≤ source then difference source target else difference target source
  if distance ≤ (if target ≤ source then 126 else 129) then
    let ahead ← difference target source
    let offset ← difference ahead 2
    pure (UInt8.ofInt offset)
  else
    .error (.fault (.branchOutOfRange (branchEnd source) (branchEnd target)))

/-- the byte of a node placed at `address`; only a branch takes differences -/
def byte (labels : Labels) (address : Nat) : Kind → Except Stop (Option UInt8)
  | .branchOffset operand => do
    let target ← reported (operand.value labels)
    let source ← difference address 1
    let offset ← branchOffset source target
    pure (some offset)
  | kind => reported (kind.byte labels address)

def resolveNode (labels : Labels) (node : Node) (address : Nat) : EStateM Stop Resolution Nat := do
  match ← byte labels address node.kind with
  | some byte =>
    modify fun stored => { stored with bytes := stored.bytes.insert address byte }
    add top address node.length
  | none =>
    match node.label with
    | some name => modify fun stored => { stored with trace := stored.trace ++ [.reached name address] }
    | none => pure ()
    pure address

def resolveForest (labels : Labels) : Forest → (address : Nat) → EStateM Stop Resolution Unit
  | .nil, _ => pure ()
  | .cons _ node children rest, address => do
    let inside ← resolveNode labels node address
    resolveForest labels children inside
    let length ← lengthWith node children
    let next ← add top address length
    resolveForest labels rest next

/-! ## Listing -/

/-- what the listing says about a node; only an instruction's line forms a second address -/
def line (bytes : Memory) (node : Node) (children : Forest) (address : Nat) : Except Stop String :=
  match node.kind with
  | .instruction mnemonic mode _ operand => do
    let length ← lengthWith node children
    let stop ← add top address length
    pure (Listing.instructionLine address mnemonic mode operand (bytes.range address stop))
  | _ => reported (node.listing bytes children address)

def renderForest (bytes : Memory) : Forest → (address : Nat) → (out : String) → Except Stop String
  | .nil, _, out => .ok out
  | .cons _ node children rest, address, out => do
    let own ← line bytes node children address
    let inside ← add top address node.length
    let out ← renderForest bytes children inside (out ++ own)
    let length ← lengthWith node children
    let next ← add top address length
    renderForest bytes rest next out

/-! ## Cartridges -/

def origin (cartridge : Cartridge) : Except Stop Nat := do
  reported (Check.inRange "image capacity" cartridge.capacity Cartridge.vectorBytes Cartridge.addressSpace)
  reported (Check.inRange "bank size" cartridge.bankSize 1 Cartridge.addressSpace)
  let origin ← subtract Cartridge.addressSpace cartridge.capacity
  let rest ← remainder origin cartridge.bankSize
  reported (Check.equal "origin alignment" 0 rest)
  pure origin

def place (cartridge : Cartridge) (origin : Nat) (image : Array UInt8) (entry : Nat × UInt8) :
    Except Stop (Array UInt8) := do
  let offset ← difference entry.1 origin
  let last ← difference cartridge.capacity 1
  reported (Check.inRange "image offset" offset 0 last)
  store image offset.toNat entry.2

def writeVectors (origin : Nat) (image : Array UInt8) : Except Stop (Array UInt8) := do
  let vector := [UInt8.ofNat (origin % 256), UInt8.ofNat (origin / 256)]
  let tail ← subtract image.size Cartridge.vectorBytes
  let middle ← add wordMost tail 2
  let image ← copy image tail middle vector
  copy image middle image.size vector

def pack (cartridge : Cartridge) (length : Nat) (bytes : Memory) : Except Stop (Array UInt8) := do
  let origin ← origin cartridge
  reported (cartridge.ensureFits length)
  let image ← bytes.toList.foldlM (place cartridge origin) (Array.replicate cartridge.capacity 0)
  writeVectors origin image

/-! ## Programs -/

def length (program : Program) : Except Stop Nat :=
  lengthWith (program.tree.node program.tree.root) (program.tree.under program.tree.root)

def layout (program : Program) (origin : Nat) : EStateM Stop (List Event) Labels := fun trace =>
  let root := program.tree.root
  match (do
    let inside ← layoutNode (program.tree.node root) origin
    layoutForest (program.tree.under root) inside : EStateM Stop Bindings Unit) ⟨.empty, trace⟩ with
  | .ok () found => .ok found.labels found.trace
  | .error stop found => .error stop found.trace

def resolve (program : Program) (labels : Labels) (origin : Nat) : EStateM Stop (List Event) Memory := fun trace =>
  let root := program.tree.root
  match (do
    let inside ← resolveNode labels (program.tree.node root) origin
    resolveForest labels (program.tree.under root) inside : EStateM Stop Resolution Unit) ⟨∅, trace⟩ with
  | .ok () stored => .ok stored.bytes stored.trace
  | .error stop stored => .error stop stored.trace

def render (program : Program) (bytes : Memory) (origin : Nat) : Except Stop String := do
  let node := program.tree.node program.tree.root
  let children := program.tree.under program.tree.root
  let own ← line bytes node children origin
  let inside ← add top origin node.length
  renderForest bytes children inside ("" ++ own)

def compile (program : Program) (cartridge : Cartridge) : EStateM Stop (List Event) Assembly := do
  let origin ← origin cartridge
  let length ← length program
  reported (cartridge.ensureFits length)
  let count ← subtract program.tree.size 1
  reportedBy (report (.layoutStarted origin count length))
  let labels ← layout program origin
  reportedBy (report (.resolutionStarted labels.size))
  let bytes ← resolve program labels origin
  let image ← pack cartridge length bytes
  let listing ← render program bytes origin
  reportedBy (report (.compiled bytes.size))
  pure { origin, labels, bytes, image, listing }

end Asm6502.Strict
