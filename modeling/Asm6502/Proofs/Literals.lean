/-
What is read from a text as a binary literal, over every text.

A byte is formatted as eight digits 0 and 1, the highest first, and reading takes the digits back to the byte. The width
of a literal counts bytes of text, and one plus sign may stand in front of the digits: so there is a second form, in
which the sign takes up the place of the highest digit and seven digits follow.

- `readBits_eq_some_iff`: digits are read just if all are 0 or 1, as the sum of their weights.
- `weight_injective`, `weight_toDigits`: the weights tell numbers of one length apart and invert formatting.
- `binary_eq_ok_iff`, `binary_eq_width_iff`, `binary_eq_invalid_iff`: the three outcomes, each by the text alone.
- `exact_literal`: with formatting and what it takes for two texts to be one byte.
- `signed_literal`: a sign and seven digits are taken for the byte of another text.
-/
import Mathlib.Data.String.Basic
import Mathlib.Tactic.Ring
import Asm6502.Console.Value
import Asm6502.Digits

namespace Asm6502.Console

/-! ## Digits and their weights -/

/-- the text has no characters but binary digits -/
def Bits (digits : List Char) : Prop :=
  ∀ digit ∈ digits, digit = '0' ∨ digit = '1'

/-- the sum of the ones, each weighted by a power of two: the last by 1, every other by twice the next one's weight -/
def weight : List Char → Nat
  | [] => 0
  | digit :: digits => (if digit = '1' then 2 ^ digits.length else 0) + weight digits

theorem bits_cons {digit : Char} {digits : List Char} :
    Bits (digit :: digits) ↔ (digit = '0' ∨ digit = '1') ∧ Bits digits := by
  simp [Bits]

theorem bits_append {digits more : List Char} : Bits (digits ++ more) ↔ Bits digits ∧ Bits more := by
  simp [Bits, or_imp, forall_and]

theorem bit?_eq_some_iff {digit : Char} {bit : Nat} :
    bit? digit = some bit ↔ (digit = '0' ∨ digit = '1') ∧ bit = if digit = '1' then 1 else 0 := by
  unfold bit?
  split <;> simp_all [eq_comm]

/-- **Digits are read as the sum of their weights**, behind the number already read. -/
theorem readBits_eq_some_iff {digits : List Char} {read value : Nat} :
    readBits digits read = some value ↔ Bits digits ∧ value = 2 ^ digits.length * read + weight digits := by
  induction digits generalizing read with
  | nil => simp [readBits, Bits, weight, eq_comm]
  | cons digit digits ih =>
    rw [readBits, bits_cons]
    rcases hbit : bit? digit with _ | bit
    · have hdigit : ¬ (digit = '0' ∨ digit = '1') := by
        intro h
        rw [bit?_eq_some_iff.2 ⟨h, rfl⟩] at hbit
        cases hbit
      simp [hdigit]
    · obtain ⟨hdigit, rfl⟩ := bit?_eq_some_iff.1 hbit
      have hvalue : 2 ^ digits.length * (2 * read + if digit = '1' then 1 else 0) + weight digits =
          2 ^ (digit :: digits).length * read + weight (digit :: digits) := by
        rw [weight, List.length_cons, pow_succ]
        split <;> ring
      simp only [ih, hvalue, hdigit, true_and]

theorem weight_lt (digits : List Char) : weight digits < 2 ^ digits.length := by
  induction digits with
  | nil => simp [weight]
  | cons digit digits ih =>
    rw [weight, List.length_cons, pow_succ]
    split <;> omega

theorem weight_injective {digits other : List Char} (hlength : digits.length = other.length) (hd : Bits digits)
    (ho : Bits other) (h : weight digits = weight other) : digits = other := by
  induction digits generalizing other with
  | nil => exact (List.length_eq_zero_iff.1 hlength.symm).symm
  | cons digit digits ih =>
    rcases other with _ | ⟨digit', other⟩
    · cases hlength
    · have hrest : digits.length = other.length := by simpa using hlength
      obtain ⟨hdigit, hds⟩ := bits_cons.1 hd
      obtain ⟨hdigit', hos⟩ := bits_cons.1 ho
      -- the lower digits weigh less than the highest one, so that the highest ones agree
      have hlt := weight_lt digits
      have hlt' := weight_lt other
      rw [weight, weight, hrest] at h
      rw [hrest] at hlt
      have hsame : digit = digit' := by
        rcases hdigit with rfl | rfl <;> rcases hdigit' with rfl | rfl <;> grind
      subst hsame
      rw [ih hrest hds hos (by omega)]

theorem weight_append (digits more : List Char) :
    weight (digits ++ more) = weight digits * 2 ^ more.length + weight more := by
  induction digits with
  | nil => simp [weight]
  | cons digit digits ih =>
    rw [List.cons_append, weight, weight, ih, List.length_append, pow_add]
    split <;> ring

theorem weight_zeros (count : Nat) : weight (List.replicate count '0') = 0 := by
  induction count with
  | zero => rfl
  | succ count ih => simpa [List.replicate_succ, weight] using ih

theorem weight_digitChar {n : Nat} (h : n < 2) : Bits [n.digitChar] ∧ weight [n.digitChar] = n := by
  have hn : n = 0 ∨ n = 1 := by omega
  rcases hn with rfl | rfl <;> simp [Bits, weight]

/-- the binary digits of a number are 0 and 1, and weigh the number -/
theorem weight_toDigits (n : Nat) : Bits (Nat.toDigits 2 n) ∧ weight (Nat.toDigits 2 n) = n := by
  induction n using Nat.strongRecOn with
  | ind n ih =>
    by_cases h : n < 2
    · rw [Nat.toDigits_of_lt_base h]
      exact weight_digitChar h
    · obtain ⟨hbits, hweight⟩ := ih (n / 2) (by omega)
      obtain ⟨hlast, hmod⟩ := weight_digitChar (Nat.mod_lt n (by decide))
      rw [Nat.toDigits_of_base_le (by decide) (by omega), bits_append, weight_append, hweight, hmod,
        List.length_singleton]
      refine ⟨⟨hbits, hlast⟩, ?_⟩
      omega

/-! ## Numbers -/

/-- a binary number as it may be written: digits, perhaps behind a plus sign -/
def Numeral (text : List Char) : Prop :=
  Bits text ∨ ∃ digits, text = '+' :: digits ∧ Bits digits

theorem numeral_plus {digits : List Char} : Numeral ('+' :: digits) ↔ Bits digits := by
  simp [Numeral, bits_cons]

theorem numeral_of_ne_plus {text : List Char} (h : ∀ digits, text ≠ '+' :: digits) : Numeral text ↔ Bits text := by
  simp [Numeral, h]

/-- **A number is read just if there is something behind the sign.** The sign weighs nothing, so that the value is the
weight of the whole text. -/
theorem readBinary_eq_some_iff {text : List Char} {value : Nat} :
    readBinary text = some value ↔ text ≠ [] ∧ text ≠ ['+'] ∧ Numeral text ∧ value = weight text := by
  unfold readBinary
  split
  · simp
  · simp
  · rename_i digits hdigits
    have hne : digits ≠ [] := by
      rintro rfl
      exact hdigits rfl
    simp [readBits_eq_some_iff, numeral_plus, weight, hne]
  · rename_i hnil hplus hsigned
    have hnil : text ≠ [] := hnil
    have hplus : text ≠ ['+'] := hplus
    simp [readBits_eq_some_iff, numeral_of_ne_plus hsigned, hnil, hplus]

theorem utf8Len_of_bits {digits : List Char} (h : Bits digits) : String.utf8Len digits = digits.length := by
  induction digits with
  | nil => rfl
  | cons digit digits ih =>
    obtain ⟨hdigit, hdigits⟩ := bits_cons.1 h
    have hsize : digit.utf8Size = 1 := by rcases hdigit with rfl | rfl <;> rfl
    rw [String.utf8Len_cons, ih hdigits, hsize, List.length_cons]

/-- a number has as many characters as bytes of text -/
theorem utf8ByteSize_of_numeral {literal : String} (h : Numeral literal.toList) :
    literal.utf8ByteSize = literal.length := by
  rw [← String.utf8Len_toList, ← String.length_toList]
  rcases h with bits | ⟨digits, htext, bits⟩
  · exact utf8Len_of_bits bits
  · rw [htext, String.utf8Len_cons, utf8Len_of_bits bits]
    rfl

/-! ## Literals -/

/-- a text of eight binary digits -/
structure Plain (literal : String) : Prop where
  width : literal.length = 8
  bits : Bits literal.toList

/-- a plus sign and seven binary digits -/
structure Signed (literal : String) : Prop where
  width : literal.length = 8
  bits : ∃ digits, literal.toList = '+' :: digits ∧ Bits digits

section Literal

variable {literal : String}

theorem plain_or_signed_iff : Plain literal ∨ Signed literal ↔ literal.length = 8 ∧ Numeral literal.toList := by
  constructor
  · rintro (h | h)
    · exact ⟨h.width, .inl h.bits⟩
    · exact ⟨h.width, .inr h.bits⟩
  · rintro ⟨width, bits | bits⟩
    · exact .inl ⟨width, bits⟩
    · exact .inr ⟨width, bits⟩

theorem weight_toList_lt (h : literal.length = 8) : weight literal.toList < 256 := by
  have hlt := weight_lt literal.toList
  rwa [String.length_toList, h] at hlt

theorem binary_of_literal (h : Plain literal ∨ Signed literal) :
    binary literal = .ok (UInt8.ofNat (weight literal.toList)) := by
  obtain ⟨width, hnumeral⟩ := plain_or_signed_iff.1 h
  have hread : readBinary literal.toList = some (weight literal.toList) := by
    rw [readBinary_eq_some_iff]
    rw [← String.length_toList] at width
    refine ⟨?_, ?_, hnumeral, rfl⟩ <;> intro htext <;> rw [htext] at width <;> cases width
  rw [binary, utf8ByteSize_of_numeral hnumeral, width, hread]
  rfl

theorem binary_of_width_ne (h : literal.utf8ByteSize ≠ 8) :
    binary literal = .error (.notEqual "binary literal width" 8 literal.utf8ByteSize) := by
  have hwidth : (8 : Int) ≠ literal.utf8ByteSize := by omega
  rw [binary, Check.equal, if_neg hwidth]
  rfl

theorem binary_of_not_literal (hwidth : literal.utf8ByteSize = 8) (h : ¬ (Plain literal ∨ Signed literal)) :
    binary literal = .error (.invalidBinary literal) := by
  rw [binary, hwidth]
  rcases hread : readBinary literal.toList with _ | value
  · rfl
  · obtain ⟨-, -, hnumeral, -⟩ := readBinary_eq_some_iff.1 hread
    rw [utf8ByteSize_of_numeral hnumeral] at hwidth
    exact absurd (plain_or_signed_iff.2 ⟨hwidth, hnumeral⟩) h

/-- **The two forms of literals**, and the bytes they stand for. -/
theorem binary_eq_ok_iff {value : UInt8} :
    binary literal = .ok value ↔ (Plain literal ∨ Signed literal) ∧ value.toNat = weight literal.toList := by
  by_cases h : Plain literal ∨ Signed literal
  · have hlt := weight_toList_lt (plain_or_signed_iff.1 h).1
    have hvalue : (UInt8.ofNat (weight literal.toList)).toNat = weight literal.toList := UInt8.toNat_ofNat_of_lt hlt
    rw [binary_of_literal h, Except.ok.injEq, ← UInt8.toNat_inj, hvalue]
    simp [h, eq_comm]
  · by_cases hwidth : literal.utf8ByteSize = 8
    · simp [binary_of_not_literal hwidth h, h]
    · simp [binary_of_width_ne hwidth, h]

theorem binary_eq_width_iff :
    binary literal = .error (.notEqual "binary literal width" 8 literal.utf8ByteSize) ↔ literal.utf8ByteSize ≠ 8 := by
  refine ⟨?_, binary_of_width_ne⟩
  intro h hwidth
  by_cases hl : Plain literal ∨ Signed literal
  · rw [binary_of_literal hl] at h
    cases h
  · rw [binary_of_not_literal hwidth hl] at h
    cases h

theorem binary_eq_invalid_iff :
    binary literal = .error (.invalidBinary literal) ↔
      literal.utf8ByteSize = 8 ∧ ¬ Plain literal ∧ ¬ Signed literal := by
  rw [← not_or]
  refine ⟨?_, fun h => binary_of_not_literal h.1 h.2⟩
  intro h
  by_cases hl : Plain literal ∨ Signed literal
  · rw [binary_of_literal hl] at h
    cases h
  · refine ⟨?_, hl⟩
    by_contra hwidth
    rw [binary_of_width_ne hwidth] at h
    cases h

end Literal

/-! ## Formatting -/

def eightDigits (value : UInt8) : String :=
  Digits.padded 8 (Nat.toDigits 2 value.toNat)

theorem plain_eightDigits (value : UInt8) : Plain (eightDigits value) where
  width := by
    have hlength : (Nat.toDigits 2 value.toNat).length ≤ 8 :=
      (Nat.length_toDigits_le_iff (by decide) (by decide)).2 value.toNat_lt
    simp [eightDigits, Digits.padded, hlength]
  bits := by
    rw [eightDigits, Digits.padded, String.toList_ofList, bits_append]
    refine ⟨?_, (weight_toDigits _).1⟩
    intro digit hdigit
    exact .inl (List.eq_of_mem_replicate hdigit)

theorem weight_eightDigits (value : UInt8) : weight (eightDigits value).toList = value.toNat := by
  rw [eightDigits, Digits.padded, String.toList_ofList, weight_append, weight_zeros, (weight_toDigits _).2]
  omega

theorem Plain.eq_of_weight {literal other : String} (h : Plain literal) (ho : Plain other)
    (hweight : weight literal.toList = weight other.toList) : literal = other := by
  apply String.toList_injective
  apply weight_injective _ h.bits ho.bits hweight
  rw [String.length_toList, String.length_toList, h.width, ho.width]

/-- **A plain literal is a formatted byte**, and it is read as that byte. -/
theorem Plain.binary_eq_ok_iff {literal : String} (h : Plain literal) {value : UInt8} :
    binary literal = .ok value ↔ literal = eightDigits value := by
  rw [Console.binary_eq_ok_iff, ← weight_eightDigits]
  constructor
  · rintro ⟨-, hweight⟩
    exact h.eq_of_weight (plain_eightDigits value) hweight.symm
  · rintro rfl
    exact ⟨.inl h, rfl⟩

theorem Signed.exists_plain {literal : String} (h : Signed literal) :
    ∃ digits, literal = "+" ++ digits ∧ Plain ("0" ++ digits) := by
  obtain ⟨digits, htext, bits⟩ := h.bits
  have hliteral : literal = "+" ++ String.ofList digits := by
    apply String.toList_injective
    simp [htext]
  have hwidth := h.width
  rw [← String.length_toList, htext, List.length_cons] at hwidth
  refine ⟨String.ofList digits, hliteral, ?_, ?_⟩
  · rw [← String.length_toList]
    simpa using hwidth
  · simpa [bits_cons] using bits

/-- a sign is read as a digit 0 in its place -/
theorem Signed.binary_eq_ok_iff {literal digits : String} (h : Signed literal) (htext : literal = "+" ++ digits)
    {value : UInt8} : binary literal = .ok value ↔ "0" ++ digits = eightDigits value := by
  obtain ⟨digits', htext', hplain⟩ := h.exists_plain
  have hdigits : digits' = digits := (String.append_right_inj "+").1 (htext'.symm.trans htext)
  subst hdigits
  have hweight : weight literal.toList = weight ("0" ++ digits').toList := by simp [htext, weight]
  rw [← hplain.binary_eq_ok_iff, Console.binary_eq_ok_iff, Console.binary_eq_ok_iff, hweight]
  simp [h, hplain]

/-! ## All texts -/

/-- what a text gives when it is read as a binary literal -/
structure ExactLiteral (literal : String) : Prop where
  /-- eight digits, or a sign and seven; the value is the sum of their weights, from 2 ^ 7 down to 2 ^ 0 -/
  ok_iff : ∀ value, binary literal = .ok value ↔
    (Plain literal ∨ Signed literal) ∧ value.toNat = weight literal.toList
  /-- the width is that of the text in bytes -/
  width_iff : binary literal = .error (.notEqual "binary literal width" 8 literal.utf8ByteSize) ↔
    literal.utf8ByteSize ≠ 8
  /-- everything else is refused with the text itself -/
  invalid_iff : binary literal = .error (.invalidBinary literal) ↔
    literal.utf8ByteSize = 8 ∧ ¬ Plain literal ∧ ¬ Signed literal
  /-- a formatted byte is read back -/
  formatted : ∀ value, literal = eightDigits value → binary literal = .ok value
  /-- and eight digits are the format of the byte they are read as -/
  plain : Plain literal → ∀ value, binary literal = .ok value → literal = eightDigits value
  /-- behind a sign stand the lower digits of a byte whose highest digit is 0 -/
  signed : Signed literal → ∀ value digits, literal = "+" ++ digits → binary literal = .ok value →
    "0" ++ digits = eightDigits value
  /-- no two texts of one form are read alike -/
  injective : ∀ value other, (Plain literal ↔ Plain other) → binary literal = .ok value → binary other = .ok value →
    literal = other

/-- **Binary literals are exact**, over every text. -/
theorem exact_literal (literal : String) : ExactLiteral literal where
  ok_iff value := binary_eq_ok_iff
  width_iff := binary_eq_width_iff
  invalid_iff := binary_eq_invalid_iff
  formatted value h := by
    subst h
    exact (plain_eightDigits value).binary_eq_ok_iff.2 rfl
  plain h value hread := h.binary_eq_ok_iff.1 hread
  signed h value digits htext hread := (h.binary_eq_ok_iff htext).1 hread
  injective value other hform h ho := by
    by_cases hplain : Plain literal
    · rw [hplain.binary_eq_ok_iff.1 h, (hform.1 hplain).binary_eq_ok_iff.1 ho]
    · have hsigned : Signed literal := (binary_eq_ok_iff.1 h).1.resolve_left hplain
      have hsigned' : Signed other := (binary_eq_ok_iff.1 ho).1.resolve_left (mt hform.2 hplain)
      obtain ⟨digits, htext, -⟩ := hsigned.exists_plain
      obtain ⟨digits', htext', -⟩ := hsigned'.exists_plain
      have hzero : "0" ++ digits = "0" ++ digits' :=
        ((hsigned.binary_eq_ok_iff htext).1 h).trans ((hsigned'.binary_eq_ok_iff htext').1 ho).symm
      rw [htext, htext', (String.append_right_inj "0").1 hzero]

/-- a sign and seven digits fill the width of eight, and are taken for the byte that eight digits stand for -/
theorem signed_literal : binary "+1010101" = .ok 85 ∧ binary "01010101" = .ok 85 ∧ ¬ Plain "+1010101" := by
  refine ⟨by decide, by decide, ?_⟩
  intro h
  have hplus := h.bits '+' (by decide)
  exact absurd hplus (by decide)

end Asm6502.Console
