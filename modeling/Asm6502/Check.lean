/-
The checks that every later stage is built from.

`inRange` and `equal` compare a measured value with what is allowed and name the value in the fault. `add` is addition
of 32-bit quantities: the sum, or a fault if it does not fit.
-/
import Asm6502.Fault

namespace Asm6502.Check

/-- fails unless `min ≤ value ≤ max` -/
def inRange (what : String) (value min max : Int) : Except Fault Unit :=
  if min ≤ value ∧ value ≤ max then .ok () else .error (.outOfRange what value min max)

/-- fails unless `actual` is `expected` -/
def equal (what : String) (expected actual : Int) : Except Fault Unit :=
  if expected = actual then .ok () else .error (.notEqual what expected actual)

/-- the number of 32-bit values -/
def wordLimit : Nat := 0x100000000

/-- the sum of two 32-bit quantities -/
def add (a b : Nat) : Except Fault Nat :=
  if a + b < wordLimit then .ok (a + b) else .error .sumOverflow

theorem inRange_eq_ok_iff (what : String) (value min max : Int) :
    inRange what value min max = .ok () ↔ min ≤ value ∧ value ≤ max := by
  unfold inRange
  split <;> simp_all

theorem equal_eq_ok_iff (what : String) (expected actual : Int) :
    equal what expected actual = .ok () ↔ expected = actual := by
  unfold equal
  split <;> simp_all

theorem add_eq_ok_iff (a b c : Nat) : add a b = .ok c ↔ a + b < wordLimit ∧ a + b = c := by
  unfold add
  split
  · simp [*]
  · simp only [reduceCtorEq, false_iff]
    omega

end Asm6502.Check

namespace Asm6502

/-- a check used inside a stateful pass: a fault stops the pass and keeps its state -/
instance {σ : Type} : MonadLift (Except Fault) (EStateM Fault σ) where
  monadLift
    | .ok a => pure a
    | .error fault => throw fault

end Asm6502
