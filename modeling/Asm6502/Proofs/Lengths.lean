/-
Lengths without a limit.

`Forest.span` is the sum of all lengths in a forest as a plain number. The 32-bit sums that the passes form over and
over agree with it as long as it stays below the limit, and overflow exactly when it does not.

- `total_eq`: a 32-bit sum over a forest is the starting value plus the span, or the overflow.
- `lengthWith_eq`: the same for one node together with the trees below it.

The first section has the equations by which checks and passes are taken apart: a check that holds goes on, one that
fails stops everything after it and leaves the state as it is.
-/
import Asm6502.Layout
import Asm6502.Listing

namespace Asm6502

/-! ## Checks in sequence -/

section Sequence

variable {ε σ α β : Type}

@[simp] theorem ok_bind (a : α) (f : α → Except ε β) : (Except.ok a >>= f) = f a := rfl

@[simp] theorem error_bind (fault : ε) (f : α → Except ε β) : (Except.error fault >>= f) = .error fault := rfl

theorem bind_eq_ok_iff {x : Except ε α} {f : α → Except ε β} {b : β} :
    (x >>= f) = .ok b ↔ ∃ a, x = .ok a ∧ f a = .ok b := by
  cases x <;> simp

theorem bind_eq_error_iff {x : Except ε α} {f : α → Except ε β} {fault : ε} :
    (x >>= f) = .error fault ↔ x = .error fault ∨ ∃ a, x = .ok a ∧ f a = .error fault := by
  cases x <;> simp

@[simp] theorem lift_ok (a : α) : (liftM (Except.ok a : Except Fault α) : EStateM Fault σ α) = pure a := rfl

@[simp] theorem lift_error (fault : Fault) :
    (liftM (Except.error fault : Except Fault α) : EStateM Fault σ α) = throw fault := rfl

@[simp] theorem throw_bind (fault : ε) (f : α → EStateM ε σ β) : (throw fault >>= f) = throw fault := rfl

theorem run_bind (x : EStateM ε σ α) (f : α → EStateM ε σ β) (s : σ) :
    (x >>= f) s = match x s with
      | .ok a s => f a s
      | .error fault s => .error fault s := by
  simp only [bind, EStateM.bind]
  cases x s <;> rfl

theorem run_modify (change : σ → σ) (s : σ) : (modify change : EStateM ε σ Unit) s = .ok () (change s) := rfl

end Sequence

namespace Check

theorem inRange_eq_ok {what : String} {value min max : Int} (h : min ≤ value ∧ value ≤ max) :
    inRange what value min max = .ok () := if_pos h

theorem inRange_eq_error {what : String} {value min max : Int} (h : ¬ (min ≤ value ∧ value ≤ max)) :
    inRange what value min max = .error (.outOfRange what value min max) := if_neg h

theorem equal_eq_ok {what : String} {expected actual : Int} (h : expected = actual) :
    equal what expected actual = .ok () := if_pos h

theorem equal_eq_error {what : String} {expected actual : Int} (h : expected ≠ actual) :
    equal what expected actual = .error (.notEqual what expected actual) := if_neg h

theorem add_eq_ok {a b : Nat} (h : a + b < wordLimit) : add a b = .ok (a + b) := by
  simp [add, h]

theorem add_eq_error {a b : Nat} (h : wordLimit ≤ a + b) : add a b = .error .sumOverflow := by
  simp [add, h]

theorem wordLimit_pos : 0 < wordLimit := by
  simp [wordLimit]

end Check

/-! ## Spans -/

namespace Forest

/-- the sum of all lengths in a forest -/
def span : Forest → Nat
  | .nil => 0
  | .cons _ node children rest => node.length + children.span + rest.span

@[simp] theorem span_nil : nil.span = 0 := rfl

@[simp] theorem span_cons (id : Nat) (node : Node) (children rest : Forest) :
    (cons id node children rest).span = node.length + children.span + rest.span := rfl

theorem total_eq (forest : Forest) (sum : Nat) (h : sum < Check.wordLimit) :
    forest.total sum =
      if sum + forest.span < Check.wordLimit then .ok (sum + forest.span) else .error .sumOverflow := by
  induction forest generalizing sum with
  | nil => simp [total, h]
  | cons id node children rest ihc ihr =>
    rw [total, span_cons, ihc 0 Check.wordLimit_pos, Nat.zero_add]
    -- three sums may overflow, one after the other: the children's, the node's, the running one
    by_cases h1 : children.span < Check.wordLimit
    · rw [if_pos h1, ok_bind]
      by_cases h2 : node.length + children.span < Check.wordLimit
      · rw [Check.add_eq_ok h2, ok_bind]
        by_cases h3 : sum + (node.length + children.span) < Check.wordLimit
        · rw [Check.add_eq_ok h3, ok_bind, ihr _ h3]
          simp only [Nat.add_assoc]
        · rw [Check.add_eq_error (by omega), error_bind, if_neg (by omega)]
      · rw [Check.add_eq_error (by omega), error_bind, if_neg (by omega)]
    · rw [if_neg h1, error_bind, if_neg (by omega)]

theorem total_zero_eq_ok {forest : Forest} (h : forest.span < Check.wordLimit) :
    forest.total 0 = .ok forest.span := by
  rw [total_eq forest 0 Check.wordLimit_pos, Nat.zero_add, if_pos h]

end Forest

namespace Node

theorem lengthWith_eq (node : Node) (children : Forest) :
    node.lengthWith children =
      if node.length + children.span < Check.wordLimit then .ok (node.length + children.span)
      else .error .sumOverflow := by
  rw [lengthWith]
  by_cases h : children.span < Check.wordLimit
  · rw [Forest.total_zero_eq_ok h, ok_bind]
    rfl
  · rw [Forest.total_eq children 0 Check.wordLimit_pos, Nat.zero_add, if_neg h, error_bind, if_neg (by omega)]

theorem lengthWith_eq_ok {node : Node} {children : Forest} (h : node.length + children.span < Check.wordLimit) :
    node.lengthWith children = .ok (node.length + children.span) := by
  rw [lengthWith_eq, if_pos h]

end Node

end Asm6502
