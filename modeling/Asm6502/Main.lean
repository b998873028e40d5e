/-
The demo as a command: the plan of a session carried out on the real disk, notices on the error stream.
-/
import Asm6502.Demo.Session

namespace Asm6502.Demo

/-- the refusal that a failed system call amounts to -/
def refusalOf : IO.Error → Refusal
  | .noFileOrDirectory .. => .missing
  | .alreadyExists .. => .alreadyExists
  | .inappropriateType _ 20 _ => .notDirectory
  | .inappropriateType _ 21 _ => .isDirectory
  | .invalidArgument _ 36 _ => .nameTooLong
  | error => .other (toString error)

/-- writes a notice on the error stream if the log shows it -/
def logNotice (limit : Level) (notice : Notice) : IO Unit := do
  if limit.shownAt notice.level then
    IO.eprintln notice.record

def performReal (limit : Level) : Action → IO (Except Fault Unit)
  | .note notice => do
    logNotice limit notice
    pure (.ok ())
  | .print text => do
    IO.print text
    pure (.ok ())
  | .makeRoomFor path =>
    match (Path.ofString path).parent? with
    | none => pure (.ok ())
    | some directory => attempt (IO.FS.createDirAll directory.text)
  | .save path content => attempt (IO.FS.writeBinFile path content)
  | .fail fault => pure (.error fault)
where
  attempt (action : IO Unit) : IO (Except Fault Unit) :=
    tryCatch (do action; pure (.ok ())) fun error => pure (.error (.storage (refusalOf error)))

/-- carries actions out up to the first that is refused; the result is the exit code -/
def performAllReal (limit : Level) : List Action → IO UInt32
  | [] => pure 0
  | action :: actions => do
    match ← performReal limit action with
    | .ok () => performAllReal limit actions
    | .error fault =>
      logNotice limit (.failed fault)
      pure 1

end Asm6502.Demo

open Asm6502.Demo in
def main (arguments : List String) : IO UInt32 :=
  match Request.ofArguments arguments with
  | .run options => performAllReal options.level (plan options)
  | .help => do
    IO.print helpText
    pure 0
  | .version => do
    IO.print versionText
    pure 0
  | .misuse misuse => do
    IO.eprintln misuse.message
    pure 2
