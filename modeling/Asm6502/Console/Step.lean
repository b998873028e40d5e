/-
Building a whole program: builder calls and frame routines in any order.

A `Step` is one or the other. A step that fails does not stop the building: what it did before failing stays, and the
next step goes on from there. `build` is the program that a list of steps leaves, starting from the empty one.
-/
import Asm6502.Console.Frame

namespace Asm6502.Console

inductive Step where
  | call (call : Call)
  | routine (routine : Routine)
  deriving DecidableEq, Repr

namespace Step

/-- carries a step out; a call gives the position of its node -/
def run : Step → Builder (Option Nat)
  | .call single => do
    let id ← single.run
    pure (some id)
  | .routine piece => do
    piece.run
    pure none

/-- the program after a step, whether it failed or not -/
def advance (program : Program) (step : Step) : Program :=
  match step.run program with
  | .ok _ program => program
  | .error _ program => program

end Step

/-- carries steps out one after the other, up to the first that fails -/
def Step.runAll : List Step → Builder Unit
  | [] => pure ()
  | step :: steps => do
    let _ ← step.run
    runAll steps

/-- the program that the steps leave -/
def build (steps : List Step) : Program :=
  steps.foldl Step.advance Program.new

end Asm6502.Console
