/-
Where the operands of a compiled program lead.

The processor has sixteen address lines, and a page of 256 addresses that one byte names. The three sorts of operand
that are addresses are checked in three ways: a zero-page operand against the page, an absolute one against the address
space, a branch against its reach alone. So the bytes of a compiled program always stand for the value that was asked
for, and for operands of the first two sorts that value is an address. A branch to a label also leads to an address,
since labels stand below the vectors. A branch to a literal leads to an address just if the literal is one: near either
end of the address space the reach goes past the end.

- `branchTaken`: the processor's own arithmetic on its program counter, which wraps.
- `toNat_branchTaken`: the counter is the decoded target, taken modulo 2 ^ 16.
- `Addressed`: what the operands of a compiled program denote.
- `addressed_build`: it holds of every program that steps can build; `stray_branch` is a branch past the top.
-/
import Asm6502.Proofs.Disassembly
import Asm6502.Proofs.Refinement

namespace Asm6502

/-! ## The program counter -/

/-- where the processor goes on after taking a branch whose opcode is at `counter` -/
def branchTaken (counter : UInt16) (offset : UInt8) : UInt16 :=
  counter + 2 + UInt16.ofInt (signedOffset offset)

/-- an address that the processor has -/
def IsAddress (value : Int) : Prop :=
  0 ≤ value ∧ value ≤ 0xFFFF

instance (value : Int) : Decidable (IsAddress value) :=
  inferInstanceAs (Decidable (_ ∧ _))

theorem toNat_branchTaken (address : Nat) (offset : UInt8) :
    ((branchTaken (UInt16.ofNat address) offset).toNat : Int) = (address + 2 + signedOffset offset) % 0x10000 := by
  have hoffset : ((UInt16.ofInt (signedOffset offset)).toNat : Int) = signedOffset offset % 0x10000 := by
    rw [UInt16.ofInt, UInt16.toNat_ofNat']
    omega
  rw [branchTaken, UInt16.toNat_add, UInt16.toNat_add, UInt16.toNat_ofNat']
  have htwo : (2 : UInt16).toNat = 2 := rfl
  omega

/-- the counter comes to the decoded target, unless there is no such address -/
theorem branchTaken_eq_iff {address : Nat} {offset : UInt8} {target : Int}
    (ht : address + 2 + signedOffset offset = target) :
    ((branchTaken (UInt16.ofNat address) offset).toNat : Int) = target ↔ IsAddress target := by
  rw [toNat_branchTaken, ht, IsAddress]
  omega

/-! ## Operands of a compiled program -/

/-- every operand that is an address is encoded as the value that was asked for, and the value is one that the processor
has; a branch to a literal has an address as its target just if the literal is one -/
structure Addressed (items : List Item) (assembly : Assembly) : Prop where
  zeroPage_at : ∀ before mnemonic opcode index operand after,
    items = before ++ .instruction mnemonic opcode (.zeroPage index operand) :: after →
    ∃ value byte, operand.value assembly.labels = .ok value ∧ 0 ≤ value ∧ value ≤ 0xFF ∧
      assembly.bytes[assembly.origin + totalSize before + 1]? = some byte ∧ (byte.toNat : Int) = value
  absolute_at : ∀ before mnemonic opcode index operand after,
    items = before ++ .instruction mnemonic opcode (.absolute index operand) :: after →
    ∃ value low high, operand.value assembly.labels = .ok value ∧ IsAddress value ∧
      assembly.bytes[assembly.origin + totalSize before + 1]? = some low ∧
      assembly.bytes[assembly.origin + totalSize before + 2]? = some high ∧
      ((low.toNat + 256 * high.toNat : Nat) : Int) = value
  /-- the decoded target is the one that was asked for, as a number -/
  branch_at : ∀ before mnemonic opcode operand after,
    items = before ++ .instruction mnemonic opcode (.relative operand) :: after →
    ∃ target offset, operand.value assembly.labels = .ok target ∧
      assembly.bytes[assembly.origin + totalSize before + 1]? = some offset ∧
      ((assembly.origin + totalSize before : Nat) : Int) + 2 + signedOffset offset = target ∧
      (((branchTaken (UInt16.ofNat (assembly.origin + totalSize before)) offset).toNat : Int) = target ↔
        IsAddress target) ∧
      ∀ name, operand = .label name → IsAddress target

/-- the bytes behind the opcode of an instruction among the items -/
theorem operand_bytes {items : List Item} {cartridge : Cartridge} {assembly : Assembly}
    (h : IsFlat items cartridge assembly) {before after : List Item} {mnemonic : String} {opcode : UInt8} {form : Form}
    (hi : items = before ++ .instruction mnemonic opcode form :: after) :
    ∃ bytes, form.encode assembly.labels (assembly.origin + totalSize before) opcode = .ok (opcode :: bytes) ∧
      ∀ k < bytes.length, assembly.bytes[assembly.origin + totalSize before + 1 + k]? = bytes[k]? := by
  obtain ⟨own, hown, hlength, hstored⟩ := h.item_at before _ after hi
  have hown : form.encode assembly.labels (assembly.origin + totalSize before) opcode = .ok own := hown
  obtain ⟨bytes, rfl, _⟩ := Form.encode_reading hown mnemonic
  refine ⟨bytes, hown, ?_⟩
  intro k hk
  rw [List.length_cons] at hlength
  have hat := hstored (k + 1) (by omega)
  rwa [List.getElem?_cons_succ, Nat.add_comm k 1, ← Nat.add_assoc] at hat

/-- a label of a compiled program stands below the vectors -/
theorem isAddress_label {items : List Item} {cartridge : Cartridge} {origin : Nat} (ho : cartridge.origin = .ok origin)
    (hf : cartridge.ensureFits (totalSize items) = .ok ()) {name : String} {target : Int}
    (hv : (Operand.label name).value ⟨labelsFrom origin items⟩ = .ok target) : IsAddress target := by
  rw [Operand.value] at hv
  cases hget : (Labels.mk (labelsFrom origin items)).get? name with
  | none =>
    rw [hget] at hv
    cases hv
  | some address =>
    rw [hget] at hv
    cases hv
    obtain ⟨first, second, hsplit, _⟩ := List.lookup_eq_some_iff.1 hget
    have hentry : (name, address) ∈ labelsFrom origin items := by
      rw [show labelsFrom origin items = _ from hsplit]
      simp
    have hbelow := fits_below_vectors ho hf
    have hplace := mem_labelsFrom hentry
    rw [IsAddress]
    omega

theorem addressed_of_compile {items : List Item} {cartridge : Cartridge} {trace after : List Event}
    {assembly : Assembly} (h : (Program.ofItems items).compile cartridge trace = .ok assembly after) :
    Addressed items assembly := by
  have hflat := isFlat_of_compile h
  obtain ⟨_, ho, hf, _, hlabels, _⟩ := compile_inv h
  refine ⟨?_, ?_, ?_⟩
  · intro before mnemonic opcode index operand rest hi
    obtain ⟨bytes, hcode, hstored⟩ := operand_bytes hflat hi
    obtain ⟨value, hvalue, hpure⟩ := bind_eq_ok_iff.1 hcode
    cases hpure
    obtain ⟨hvalue, hlow, hhigh⟩ := Operand.within_eq_ok_iff.1 hvalue
    exact ⟨value, _, hvalue, hlow, hhigh, hstored 0 (by simp), toNat_ofInt hlow hhigh⟩
  · intro before mnemonic opcode index operand rest hi
    obtain ⟨bytes, hcode, hstored⟩ := operand_bytes hflat hi
    obtain ⟨value, hvalue, hpure⟩ := bind_eq_ok_iff.1 hcode
    cases hpure
    obtain ⟨hvalue, hlow, hhigh⟩ := Operand.within_eq_ok_iff.1 hvalue
    refine ⟨value, _, _, hvalue, ⟨hlow, hhigh⟩, hstored 0 (by simp), hstored 1 (by simp), ?_⟩
    rw [Int.natCast_add, Int.natCast_mul, toNat_ofInt (by omega) (by omega), toNat_ofInt (by omega) (by omega)]
    exact Int.emod_add_mul_ediv value 256
  · intro before mnemonic opcode operand rest hi
    obtain ⟨bytes, hcode, hstored⟩ := operand_bytes hflat hi
    obtain ⟨target, hvalue, hpure⟩ := bind_eq_ok_iff.1 hcode
    cases hpure
    obtain ⟨hvalue, hlow, hhigh⟩ := Operand.within_eq_ok_iff.1 hvalue
    have hdecoded : ((assembly.origin + totalSize before : Nat) : Int) + 2 +
        signedOffset (UInt8.ofInt (target - ((assembly.origin + totalSize before : Nat) + 2))) = target := by
      rw [signedOffset_ofInt (by omega) (by omega)]
      omega
    refine ⟨target, _, hvalue, hstored 0 (by simp), hdecoded, branchTaken_eq_iff hdecoded, ?_⟩
    rintro name rfl
    rw [hlabels] at hvalue
    exact isAddress_label ho hf hvalue

namespace Console

/-- **Every operand denotes an address, and a branch leads where it was sent**, for every program that steps can build
and every cartridge; a branch to a literal that is no address is the one exception. -/
theorem addressed_build (steps : List Step) (cartridge : Cartridge) (trace after : List Event) (assembly : Assembly)
    (h : (build steps).compile cartridge trace = .ok assembly after) : Addressed (itemsOf steps) assembly := by
  rw [build_eq] at h
  exact addressed_of_compile h

/-- a store, a jump and two branches at the top of the address space: one back, and one as far ahead as there are
addresses -/
def topmost : List Step :=
  [.call (.label "top"), .call (Call.staZeroPage (.literal 0xFF)), .call (Call.jmpAbsolute (.label "top")),
    .call (Call.bne (.label "top")), .call (Call.beq (.literal 0xFFFF))]

theorem addressed_topmost :
    ∃ assembly after, (build topmost).compile ⟨16, 16⟩ [] = .ok assembly after ∧
      assembly.bytes[0xFFF8]? = some 6 ∧ branchTaken 0xFFF7 6 = 0xFFFF ∧
      Addressed [.label "top", .instruction "STA" 0x85 (.zeroPage .none (.literal 0xFF)),
        .instruction "JMP" 0x4C (.absolute .none (.label "top")), .instruction "BNE" 0xD0 (.relative (.label "top")),
        .instruction "BEQ" 0xF0 (.relative (.literal 0xFFFF))] assembly := by
  have ho : Cartridge.origin ⟨16, 16⟩ = .ok 0xFFF0 := rfl
  have hd : (labelNames (itemsOf topmost)).Nodup := by decide
  have hc : encodeFrom ⟨labelsFrom 0xFFF0 (itemsOf topmost)⟩ 0xFFF0 (itemsOf topmost) =
      .ok [0x85, 0xFF, 0x4C, 0xF0, 0xFF, 0xD0, 0xF9, 0xF0, 0x06] := rfl
  obtain ⟨image, listing, _, h⟩ := compile_ofItems ho rfl hd hc []
  rw [← build_eq] at h
  exact ⟨_, _, h, Memory.getElem?_store_empty 0xFFF0 _ 8, rfl, addressed_build _ _ _ _ _ h⟩

/-- one branch, to the number after the last address -/
def stray : List Step :=
  [.call (Call.bne (.literal 0x10000))]

/-- it compiles, its decoded target is no address, and the processor comes to the bottom of memory instead -/
theorem stray_branch :
    ∃ assembly after offset, (build stray).compile ⟨16, 16⟩ [] = .ok assembly after ∧
      itemsOf stray = [.instruction "BNE" 0xD0 (.relative (.literal 0x10000))] ∧
      assembly.origin = 0xFFF0 ∧ assembly.bytes[0xFFF1]? = some offset ∧
      (0xFFF0 : Int) + 2 + signedOffset offset = 0x10000 ∧ ¬ IsAddress (0xFFF0 + 2 + signedOffset offset) ∧
      branchTaken 0xFFF0 offset = 0 := by
  have ho : Cartridge.origin ⟨16, 16⟩ = .ok 0xFFF0 := rfl
  have hd : (labelNames (itemsOf stray)).Nodup := by decide
  have hc : encodeFrom ⟨labelsFrom 0xFFF0 (itemsOf stray)⟩ 0xFFF0 (itemsOf stray) = .ok [0xD0, 0x0E] := rfl
  obtain ⟨image, listing, _, h⟩ := compile_ofItems ho rfl hd hc []
  rw [← build_eq] at h
  exact ⟨_, _, 0x0E, h, rfl, rfl, Memory.getElem?_store_empty 0xFFF0 _ 1, rfl, by decide, rfl⟩

end Console

end Asm6502
