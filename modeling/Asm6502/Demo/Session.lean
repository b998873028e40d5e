/-
The demo: it builds a cartridge that fills the frame with colour, writes the image, and on request saves and prints the
listing.

`plan` is the list of things to do for given options; nothing in it depends on how the earlier ones went, except that a
refused one ends the run. `perform` carries an action out on a session (a disk, the text on the screen, the notices).
`invoke` is the whole program: arguments and a disk in, exit code, screen, log and disk out.
-/
import Asm6502.Assembly
import Asm6502.Console.Step
import Asm6502.Demo.Disk
import Asm6502.Demo.Options

namespace Asm6502.Demo

open Asm6502.Console

/-! ## The program -/

/-- one visible line: a line sync, then the line's number as the background colour -/
def colouredLine (line : Nat) : List Step :=
  [.routine .lineSync, .call (.ldaImmediate (Int32.ofNat line)), .call (store colubk)]

/-- one frame per turn: sync, blank, 192 coloured lines, overscan -/
def frameSteps : List Step :=
  [.routine .cleanStart, .call (.label "startOfFrame"), .routine .startOfVerticalBlank,
      .routine (.waitForEndOfVerticalBlank "HelloWorld")]
    ++ (List.range 192).flatMap colouredLine
    ++ [.routine (.overscan "HelloWorld"), .call (.jmpAbsolute (.label "startOfFrame"))]

def frameProgram : Except Fault Program :=
  match Step.runAll frameSteps Program.new with
  | .ok () program => .ok program
  | .error fault _ => .error fault

/-- the demo's program compiled for a 4 KiB cartridge -/
def compileFrame : EStateM Fault (List Event) Assembly := do
  let program ← frameProgram
  program.compile {}

/-! ## Notices -/

inductive Notice where
  | assembler (event : Event)
  | cartridgeSaved (path : String)
  | listingSaved (path : String)
  | programBytes (used capacity : Nat)
  | failed (fault : Fault)
  deriving DecidableEq, Repr

namespace Notice

def level : Notice → Level
  | .assembler event => event.level
  | .failed _ => .error
  | _ => .info

def record : Notice → String
  | .assembler event => event.record
  | .cartridgeSaved path => logRecord .info "gen6502_example" s!"cartridge saved to {path}" []
  | .listingSaved path => logRecord .info "gen6502_example" s!"listing saved to {path}" []
  | .programBytes used capacity => logRecord .info "gen6502_example" s!"program bytes: {used} of {capacity}" []
  | .failed fault => logRecord .error "gen6502_example" fault.message []

end Notice

/-! ## The plan -/

inductive Action where
  | note (notice : Notice)
  | print (text : String)
  /-- create the directories above a path -/
  | makeRoomFor (path : String)
  | save (path : String) (content : ByteArray)
  | fail (fault : Fault)

/-- what to do with a compiled program -/
def deliver (options : Options) (assembly : Assembly) : List Action :=
  let printing := if options.print then [.print assembly.printedListing] else []
  let listing := match options.listing with
    | some path => [.save path assembly.listing.toUTF8, .note (.listingSaved path)]
    | none => []
  printing
    ++ [.makeRoomFor options.output, .save options.output ⟨assembly.image⟩,
      .note (.cartridgeSaved options.output)]
    ++ listing
    ++ [.note (.programBytes assembly.bytes.size assembly.image.size)]

/-- everything to do for given options -/
def plan (options : Options) : List Action :=
  match compileFrame [] with
  | .ok assembly trace => trace.map (.note ∘ .assembler) ++ deliver options assembly
  | .error fault trace => trace.map (.note ∘ .assembler) ++ [.fail fault]

/-! ## Carrying it out -/

/-- a disk, the text on the screen and the notices so far -/
structure Session where
  disk : Disk
  screen : String
  notices : List Notice

def perform : Action → EStateM Fault Session Unit
  | .note notice => modify fun session => { session with notices := session.notices ++ [notice] }
  | .print text => modify fun session => { session with screen := session.screen ++ text }
  | .makeRoomFor path => fun session =>
    match (Path.ofString path).parent? with
    | none => .ok () session
    | some directory =>
      match Disk.makeDirectories directory session.disk with
      | .ok () disk => .ok () { session with disk }
      | .error refusal disk => .error (.storage refusal) { session with disk }
  | .save path content => fun session =>
    match session.disk.save (Path.ofString path) content with
    | .ok disk => .ok () { session with disk }
    | .error refusal => .error (.storage refusal) session
  | .fail fault => throw fault

/-- carries actions out up to the first that is refused -/
def performAll : List Action → EStateM Fault Session Unit
  | [] => pure ()
  | action :: actions => do
    perform action
    performAll actions

/-- exit code and session after the demo has run; a fault is the last notice -/
def run (options : Options) (session : Session) : Nat × Session :=
  match performAll (plan options) session with
  | .ok () session => (0, session)
  | .error fault session => (1, { session with notices := session.notices ++ [.failed fault] })

/-! ## The whole program -/

structure Outcome where
  exit : Nat
  screen : String
  log : List String
  disk : Disk

/-- the lines of a log that goes down to `limit` -/
def logLines (limit : Level) (notices : List Notice) : List String :=
  recordLines ((notices.filter fun notice => limit.shownAt notice.level).map Notice.record)

/-- runs the demo with the given arguments on a disk -/
def invoke (arguments : List String) (disk : Disk) : Outcome :=
  match Request.ofArguments arguments with
  | .run options =>
    let (exit, session) := run options ⟨disk, "", []⟩
    { exit, screen := session.screen, log := logLines options.level session.notices, disk := session.disk }
  | .help => { exit := 0, screen := helpText, log := [], disk }
  | .version => { exit := 0, screen := versionText, log := [], disk }
  | .misuse _ => { exit := 2, screen := "", log := [], disk }

end Asm6502.Demo
