/-
What the two passes give, without the reports that they make.

For a program made of items each pass is one scan over the items: pass one gives the labels of `labelsFrom` or stops at
the first repeated name, pass two gives the code of `encodeFrom` stored from the origin on, or the fault of that scan.
Reports made before a pass do not matter to either.
-/
import Asm6502.Proofs.Compilation

namespace Asm6502

/-- what a pass gives: its result or its fault, without the state that it leaves -/
def outcome {ε σ α : Type} : EStateM.Result ε σ α → Except ε α
  | .ok a _ => .ok a
  | .error fault _ => .error fault

section Passes

variable {items : List Item} {origin : Nat}

theorem length_eq_ok_iff {length : Nat} :
    (Program.ofItems items).length = .ok length ↔ totalSize items < Check.wordLimit ∧ length = totalSize items := by
  rw [length_ofItems]
  split
  next h => simp [h, eq_comm]
  next h => simp [h]

theorem outcome_layout_distinct (h : origin + totalSize items < Check.wordLimit) (hd : (labelNames items).Nodup)
    (trace : List Event) : outcome ((Program.ofItems items).layout origin trace) = .ok ⟨labelsFrom origin items⟩ := by
  rw [layout_ofItems h hd]
  rfl

theorem outcome_layout_repeated {before after : List Item} {name : String}
    (h : origin + totalSize (before ++ .label name :: after) < Check.wordLimit) (hd : (labelNames before).Nodup)
    (hm : name ∈ labelNames before) (trace : List Event) :
    outcome ((Program.ofItems (before ++ .label name :: after)).layout origin trace) =
      .error (.duplicateLabel name) := by
  rw [layout_ofItems_duplicate h hd hm]
  rfl

/-- the labels that pass one gives are those of the scan -/
theorem eq_labelsFrom_of_layout {labels : Labels} {trace : List Event}
    (h : origin + totalSize items < Check.wordLimit)
    (hrun : outcome ((Program.ofItems items).layout origin trace) = .ok labels) :
    (labelNames items).Nodup ∧ labels = ⟨labelsFrom origin items⟩ := by
  cases hlayout : (Program.ofItems items).layout origin trace with
  | ok found after =>
    rw [hlayout] at hrun
    cases hrun
    exact layout_inv h hlayout
  | error fault after =>
    rw [hlayout] at hrun
    cases hrun

/-- **Pass two is the scan**, whether it succeeds or fails. -/
theorem outcome_resolve {labels : Labels} (hb : labels.Bounded) (h : origin + totalSize items < Check.wordLimit)
    (trace : List Event) :
    outcome ((Program.ofItems items).resolve labels origin trace) =
      (encodeFrom labels origin items).map (Memory.store ∅ origin) := by
  cases hc : encodeFrom labels origin items with
  | ok code =>
    rw [resolve_ofItems hb h hc]
    rfl
  | error fault =>
    obtain ⟨before, item, after, code, rfl, hbefore, hitem⟩ := encodeFrom_eq_error_iff.1 hc
    rw [resolve_ofItems_error hb h hbefore hitem]
    rfl

theorem resolve_eq_ok_iff {labels : Labels} (hb : labels.Bounded) (h : origin + totalSize items < Check.wordLimit)
    (trace : List Event) {bytes : Memory} :
    outcome ((Program.ofItems items).resolve labels origin trace) = .ok bytes ↔
      ∃ code, encodeFrom labels origin items = .ok code ∧ bytes = Memory.store ∅ origin code := by
  rw [outcome_resolve hb h]
  cases encodeFrom labels origin items with
  | ok code => simp [Except.map, eq_comm]
  | error fault => simp [Except.map]

theorem resolve_eq_error_iff {labels : Labels} (hb : labels.Bounded) (h : origin + totalSize items < Check.wordLimit)
    (trace : List Event) {fault : Fault} :
    outcome ((Program.ofItems items).resolve labels origin trace) = .error fault ↔
      encodeFrom labels origin items = .error fault := by
  rw [outcome_resolve hb h]
  cases encodeFrom labels origin items with
  | ok code => simp [Except.map]
  | error cause => simp [Except.map]

end Passes

end Asm6502
