/-
Branches between any two 64-bit numbers.

The reach of a branch is measured from its opcode, its offset byte counts from the end of its two bytes, and the
distance between its ends may not fit the 64 bits in which it is taken. How the three fit together is said here without
`branchOffset` itself: the offset byte is the one byte from which the processor finds the target.

- `signedOffset_injective`, `ofInt_signedOffset`: bytes and the distances from -128 to 127 correspond.
- `branchOffset_eq_ok_iff`: a branch is encoded by a byte just if the byte leads to the target. So there is at most one
  such byte, and in reach there is one.
- `exact_branches`: all that follows for branches from one place, over every target.
-/
import Asm6502.Proofs.Disassembly
import Asm6502.Proofs.Safety

namespace Asm6502

/-! ## Offset bytes -/

theorem signedOffset_injective {offset other : UInt8} (h : signedOffset offset = signedOffset other) :
    offset = other := by
  have hsigned : offset.toInt8 = other.toInt8 := Int8.toInt_inj.1 h
  rw [← UInt8.toUInt8_toInt8 offset, hsigned, UInt8.toUInt8_toInt8]

theorem ofInt_signedOffset (offset : UInt8) : UInt8.ofInt (signedOffset offset) = offset := by
  obtain ⟨hlow, hhigh⟩ := signedOffset_bounds offset
  exact signedOffset_injective (signedOffset_ofInt hlow hhigh)

/-! ## One branch -/

section Branch

variable {source target : Int}

/-- a target in reach: the two ends are near, and the byte is the distance from behind the branch -/
theorem branchOffset_of_reach (h : -126 ≤ target - source ∧ target - source ≤ 129) :
    branchOffset source target = .ok (UInt8.ofInt (target - source - 2)) := by
  have hnear : ¬ 0x7FFFFFFFFFFFFFFF < (target - source).natAbs := by omega
  rw [branchOffset]
  simp only [if_neg hnear, if_pos h]

theorem branchOffset_of_far (h : 0x7FFFFFFFFFFFFFFF < (target - source).natAbs) :
    branchOffset source target = .error .differenceOverflow := by
  rw [branchOffset]
  simp only [if_pos h]

theorem branchOffset_of_not_reach (hnear : ¬ 0x7FFFFFFFFFFFFFFF < (target - source).natAbs)
    (h : ¬ (-126 ≤ target - source ∧ target - source ≤ 129)) :
    branchOffset source target = .error (.branchOutOfRange (branchEnd source) (branchEnd target)) := by
  rw [branchOffset]
  simp only [if_neg hnear, if_neg h]

/-- **The offset byte is the one that leads to the target.** -/
theorem branchOffset_eq_ok_iff {offset : UInt8} :
    branchOffset source target = .ok offset ↔ source + 2 + signedOffset offset = target := by
  constructor
  · intro h
    by_cases hr : -126 ≤ target - source ∧ target - source ≤ 129
    · rw [branchOffset_of_reach hr] at h
      cases h
      rw [signedOffset_ofInt (by omega) (by omega)]
      omega
    · by_cases hfar : 0x7FFFFFFFFFFFFFFF < (target - source).natAbs
      · rw [branchOffset_of_far hfar] at h
        cases h
      · rw [branchOffset_of_not_reach hfar hr] at h
        cases h
  · rintro rfl
    -- a signed byte is at most 128 below and 127 above the end of the branch, and that is the reach
    have hbounds := signedOffset_bounds offset
    have hdistance : source + 2 + signedOffset offset - source - 2 = signedOffset offset := by omega
    rw [branchOffset_of_reach (by omega), hdistance, ofInt_signedOffset]

theorem exists_branchOffset_iff :
    (∃ offset, branchOffset source target = .ok offset) ↔ -126 ≤ target - source ∧ target - source ≤ 129 := by
  constructor
  · rintro ⟨offset, h⟩
    have hbounds := signedOffset_bounds offset
    have hlead := branchOffset_eq_ok_iff.1 h
    omega
  · intro h
    exact ⟨_, branchOffset_of_reach h⟩

theorem branchOffset_eq_overflow_iff :
    branchOffset source target = .error .differenceOverflow ↔ 0x7FFFFFFFFFFFFFFF < (target - source).natAbs := by
  constructor
  · intro h
    by_contra hnear
    by_cases hr : -126 ≤ target - source ∧ target - source ≤ 129
    · rw [branchOffset_of_reach hr] at h
      cases h
    · rw [branchOffset_of_not_reach hnear hr] at h
      cases h
  · exact branchOffset_of_far

end Branch

/-- the low 32 bits of a branch end, a negative end counting as zero -/
theorem branchEnd_eq_max (address : Int) : branchEnd address = (max 0 address).toNat % 0x100000000 := by
  rw [branchEnd, show (max 0 address).toNat = address.toNat by omega]
  rfl

/-! ## All branches from one place -/

/-- what the branches from `source` give, over all targets -/
structure ExactBranches (source : Int64) : Prop where
  /-- taken step by step in 64 bits, the differences trap just where an overflow is reported here -/
  stepwise : ∀ target : Int64, Strict.branchOffset source.toInt target.toInt =
    Strict.trapped (branchOffset source.toInt target.toInt)
  /-- the overflow is that of the distance, in either direction -/
  overflow_iff : ∀ target : Int64, branchOffset source.toInt target.toInt = .error .differenceOverflow ↔
    0x7FFFFFFFFFFFFFFF < (target.toInt - source.toInt).natAbs
  /-- 126 bytes back and 129 bytes ahead, counted from the opcode -/
  reach_iff : ∀ target : Int64, (∃ offset, branchOffset source.toInt target.toInt = .ok offset) ↔
    -126 ≤ target.toInt - source.toInt ∧ target.toInt - source.toInt ≤ 129
  /-- the byte leads from behind the branch to the target -/
  leads : ∀ (target : Int64) (offset : UInt8), branchOffset source.toInt target.toInt = .ok offset →
    source.toInt + 2 + signedOffset offset = target.toInt
  /-- and no other byte does -/
  unique : ∀ (target : Int64) (offset other : UInt8), branchOffset source.toInt target.toInt = .ok offset →
    source.toInt + 2 + signedOffset other = target.toInt → other = offset
  /-- distinct targets have distinct bytes -/
  injective : ∀ (target other : Int64) (offset : UInt8), branchOffset source.toInt target.toInt = .ok offset →
    branchOffset source.toInt other.toInt = .ok offset → target = other
  /-- where the whole reach consists of 64-bit numbers, every byte has its target -/
  surjective : Int64.minValue.toInt ≤ source.toInt - 126 → source.toInt + 129 ≤ Int64.maxValue.toInt →
    ∀ offset : UInt8, ∃ target : Int64, branchOffset source.toInt target.toInt = .ok offset
  /-- a target out of reach is reported with both ends -/
  tooFar : ∀ target : Int64, (target.toInt - source.toInt).natAbs ≤ 0x7FFFFFFFFFFFFFFF →
    ¬ (-126 ≤ target.toInt - source.toInt ∧ target.toInt - source.toInt ≤ 129) →
    branchOffset source.toInt target.toInt =
      .error (.branchOutOfRange ((max 0 source.toInt).toNat % 0x100000000) ((max 0 target.toInt).toNat % 0x100000000))

/-- **Branches are exact**, from every 64-bit number to every other. -/
theorem exact_branches (source : Int64) : ExactBranches source where
  stepwise target := Strict.branchOffset_eq_trapped _ _
  overflow_iff target := branchOffset_eq_overflow_iff
  reach_iff target := exists_branchOffset_iff
  leads target offset h := branchOffset_eq_ok_iff.1 h
  unique target offset other h hother := by
    have hlead := branchOffset_eq_ok_iff.1 h
    exact signedOffset_injective (by omega)
  injective target other offset h hother := by
    have hlead := branchOffset_eq_ok_iff.1 h
    have hlead' := branchOffset_eq_ok_iff.1 hother
    exact Int64.toInt_inj.1 (hlead.symm.trans hlead')
  surjective hlow hhigh offset := by
    have hbounds := signedOffset_bounds offset
    have hends : Int64.minValue.toInt = -0x8000000000000000 ∧ Int64.maxValue.toInt = 0x7FFFFFFFFFFFFFFF := ⟨rfl, rfl⟩
    have htarget : (Int64.ofInt (source.toInt + 2 + signedOffset offset)).toInt =
        source.toInt + 2 + signedOffset offset := Int64.toInt_ofInt_of_le (by omega) (by omega)
    exact ⟨_, branchOffset_eq_ok_iff.2 htarget.symm⟩
  tooFar target hnear hr := by
    rw [branchOffset_of_not_reach (by omega) hr, branchEnd_eq_max, branchEnd_eq_max]

-- one step further, and the distance would be reported as out of reach instead
example : branchOffset Int64.maxValue.toInt (-1) = .error .differenceOverflow ∧
    branchOffset Int64.maxValue.toInt 0 = .error (.branchOutOfRange 0xFFFFFFFF 0) := by
  decide

end Asm6502
