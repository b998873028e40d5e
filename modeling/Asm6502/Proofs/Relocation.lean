/-
Moving a program to another origin.

Both passes are run on one program from two origins. All labels move by the distance between the origins, and so does
every instruction; what an operand byte does depends on its form.
- Literals stay: immediate values, literal addresses, data.
- The addresses of labels move: zero-page and absolute operands that name a label.
- A branch to a label stays, since both of its ends move. A branch to a literal is shortened by what its opcode moves.

- `Labels.Moved`: the same names in the same order, each address moved by the distance.
- `Form.Shifts`: what the operand bytes of an instruction do, form by form.
- `encode_still`: an item that does not depend on its place has the same bytes at the other place.
- `Relocated`: what the two runs have in common.
- `relocated_build`: it holds of every program and every two origins.
-/
import Asm6502.Proofs.Disassembly
import Asm6502.Proofs.Outcome
import Asm6502.Proofs.Refinement

namespace Asm6502

/-! ## Labels -/

/-- the same names in the same order, each address moved by the distance -/
def Labels.Moved (distance : Int) (labels other : Labels) : Prop :=
  List.Forall₂ (fun a b => a.1 = b.1 ∧ (b.2 : Int) - a.2 = distance) labels.entries other.entries

theorem Labels.Moved.symm {distance : Int} {labels other : Labels} (h : labels.Moved distance other) :
    other.Moved (-distance) labels := by
  refine List.Forall₂.flip (List.Forall₂.imp ?_ h)
  rintro a b ⟨hname, haddress⟩
  exact ⟨hname.symm, by omega⟩

theorem moved_labelsFrom {distance : Int} {first second : Nat} (h : (second : Int) - first = distance)
    (items : List Item) :
    (Labels.mk (labelsFrom first items)).Moved distance ⟨labelsFrom second items⟩ := by
  induction items generalizing first second with
  | nil => exact .nil
  | cons item items ih =>
    have hrest : (Labels.mk (labelsFrom (first + item.size) items)).Moved distance
        ⟨labelsFrom (second + item.size) items⟩ := ih (by omega)
    cases item with
    | label name => exact .cons ⟨rfl, h⟩ hrest
    | data value => exact hrest
    | instruction mnemonic opcode form => exact hrest

theorem lookup_moved {distance : Int} {entries others : List (String × Nat)} {name : String} {address : Nat}
    (h : List.Forall₂ (fun a b => a.1 = b.1 ∧ (b.2 : Int) - a.2 = distance) entries others)
    (hget : entries.lookup name = some address) :
    ∃ moved, others.lookup name = some moved ∧ (moved : Int) - address = distance := by
  induction h with
  | nil => cases hget
  | @cons a b entries others hab _ ih =>
    obtain ⟨hname, hmoved⟩ := hab
    rw [List.lookup_cons] at hget ⊢
    rw [← hname]
    cases heq : name == a.1 with
    | true =>
      rw [heq] at hget
      cases hget
      exact ⟨b.2, rfl, hmoved⟩
    | false =>
      rw [heq] at hget
      exact ih hget

/-! ## Operand bytes -/

/-- whether an operand byte depends on where the program stands -/
def Form.moves : Form → Bool
  | .zeroPage _ (.label _) => true
  | .absolute _ (.label _) => true
  | .relative (.literal _) => true
  | _ => false

def Item.moves : Item → Bool
  | .instruction _ _ form => form.moves
  | _ => false

/-- what the operand bytes of an instruction are at two places that far from each other -/
def Form.Shifts (distance : Int) : Form → (own moved : List UInt8) → Prop
  | .zeroPage _ (.label _), own, moved =>
    ∃ a b, own = [a] ∧ moved = [b] ∧ (b.toNat : Int) - a.toNat = distance
  | .absolute _ (.label _), own, moved =>
    ∃ low high low' high', own = [low, high] ∧ moved = [low', high'] ∧
      ((low'.toNat + 256 * high'.toNat : Nat) : Int) - (low.toNat + 256 * high.toNat : Nat) = distance
  | .relative (.literal _), own, moved =>
    ∃ a b, own = [a] ∧ moved = [b] ∧ signedOffset b - signedOffset a = -distance
  | .relative (.label _), own, moved => own = moved
  | _, own, moved => own = moved

def Item.Shifts (distance : Int) : Item → (own moved : List UInt8) → Prop
  | .instruction _ opcode form, own, moved =>
    ∃ operand operand', own = opcode :: operand ∧ moved = opcode :: operand' ∧ form.Shifts distance operand operand'
  | _, own, moved => own = moved

/-- the two bytes of a sixteen-bit number, low byte first, read back as the number -/
theorem toNat_word {value : Int} (hlow : 0 ≤ value) (hhigh : value ≤ 0xFFFF) :
    (((UInt8.ofInt (value % 256)).toNat + 256 * (UInt8.ofInt (value / 256)).toNat : Nat) : Int) = value := by
  rw [Int.natCast_add, Int.natCast_mul, toNat_ofInt (by omega) (by omega), toNat_ofInt (by omega) (by omega)]
  exact Int.emod_add_mul_ediv value 256

section Moving

variable {labels other : Labels} {distance : Int} {first second : Nat}

theorem Operand.value_label_moved (hm : labels.Moved distance other) {name : String} {value : Int}
    (h : (Operand.label name).value labels = .ok value) :
    ∃ moved, (Operand.label name).value other = .ok moved ∧ moved - value = distance := by
  simp only [Operand.value, Labels.get?] at h ⊢
  cases hget : labels.entries.lookup name with
  | none =>
    rw [hget] at h
    cases h
  | some address =>
    rw [hget] at h
    cases h
    obtain ⟨moved, hmoved, hdistance⟩ := lookup_moved hm hget
    exact ⟨moved, by rw [hmoved], hdistance⟩

theorem Operand.distance_of_moved (hm : labels.Moved distance other) {name : String} {value moved : Int}
    (hv : (Operand.label name).value labels = .ok value) (hv' : (Operand.label name).value other = .ok moved) :
    moved - value = distance := by
  obtain ⟨address, haddress, hdistance⟩ := value_label_moved hm hv
  rw [hv'] at haddress
  cases haddress
  exact hdistance

theorem Operand.value_of_encode {operand : Operand} {least most : Int} {fault : Int → Fault} {made : Int → List UInt8}
    {code : List UInt8}
    (h : (operand.within labels least most fault >>= fun value => pure (made value)) = .ok code) :
    ∃ value, operand.value labels = .ok value ∧ least ≤ value ∧ value ≤ most ∧ code = made value := by
  obtain ⟨value, hvalue, hmade⟩ := bind_eq_ok_iff.1 h
  cases hmade
  obtain ⟨hv, hlow, hhigh⟩ := within_eq_ok_iff.1 hvalue
  exact ⟨value, hv, hlow, hhigh, rfl⟩

theorem Form.encode_still (hm : labels.Moved distance other) (hd : (second : Int) - first = distance) {form : Form}
    (hs : form.moves = false) {opcode : UInt8} {code : List UInt8} (h : form.encode labels first opcode = .ok code) :
    form.encode other second opcode = .ok code := by
  cases form with
  | zeroPage index operand =>
    cases operand with
    | literal value => exact h
    | label name => cases hs
  | absolute index operand =>
    cases operand with
    | literal value => exact h
    | label name => cases hs
  | relative operand =>
    cases operand with
    | literal value => cases hs
    | label name =>
      -- the target and the opcode move together
      obtain ⟨target, hv, hlow, hhigh, rfl⟩ := Operand.value_of_encode h
      obtain ⟨moved, hv', hmoved⟩ := Operand.value_label_moved hm hv
      have hoffset : moved - (second + 2) = target - (first + 2) := by omega
      refine bind_eq_ok_iff.2 ⟨moved, Operand.within_eq_ok_iff.2 ⟨hv', by omega, by omega⟩, ?_⟩
      rw [hoffset]
      rfl
  | _ => exact h

theorem Item.encode_still (hm : labels.Moved distance other) (hd : (second : Int) - first = distance) {item : Item}
    (hs : item.moves = false) {code : List UInt8} (h : item.encode labels first = .ok code) :
    item.encode other second = .ok code := by
  cases item with
  | label name => exact h
  | data value => exact h
  | instruction mnemonic opcode form => exact Form.encode_still hm hd hs h

/-- **A program that does not depend on its place** has the same code at the other place. -/
theorem encodeFrom_still (hm : labels.Moved distance other) (hd : (second : Int) - first = distance)
    {items : List Item} (hs : ∀ item ∈ items, item.moves = false) {code : List UInt8}
    (h : encodeFrom labels first items = .ok code) : encodeFrom other second items = .ok code := by
  induction items generalizing first second code with
  | nil => exact h
  | cons item items ih =>
    obtain ⟨own, rest, hown, hrest, rfl⟩ := encodeFrom_cons_eq_ok_iff.1 h
    have hitem := Item.encode_still hm hd (hs item List.mem_cons_self) hown
    have htail : encodeFrom other (second + item.size) items = .ok rest :=
      ih (by omega) (fun i hi => hs i (List.mem_cons_of_mem _ hi)) hrest
    exact encodeFrom_cons_eq_ok_iff.2 ⟨own, rest, hitem, htail, rfl⟩

theorem Form.shifts_iff_of_still {form : Form} (hs : form.moves = false) {own moved : List UInt8} :
    form.Shifts distance own moved ↔ own = moved := by
  cases form with
  | zeroPage index operand =>
    cases operand with
    | literal value => exact Iff.rfl
    | label name => cases hs
  | absolute index operand =>
    cases operand with
    | literal value => exact Iff.rfl
    | label name => cases hs
  | relative operand =>
    cases operand with
    | literal value => cases hs
    | label name => exact Iff.rfl
  | _ => exact Iff.rfl

theorem Form.shifts_of_encode (hm : labels.Moved distance other) (hd : (second : Int) - first = distance) {form : Form}
    {opcode : UInt8} {own moved : List UInt8} (hown : form.encode labels first opcode = .ok own)
    (hmoved : form.encode other second opcode = .ok moved) :
    ∃ operand operand', own = opcode :: operand ∧ moved = opcode :: operand' ∧
      form.Shifts distance operand operand' := by
  cases hs : form.moves with
  | false =>
    obtain ⟨operand, rfl, _, _⟩ := Form.encode_reading hown ""
    rw [Form.encode_still hm hd hs hown] at hmoved
    cases hmoved
    exact ⟨operand, operand, rfl, rfl, (shifts_iff_of_still hs).2 rfl⟩
  | true =>
    cases form with
    | zeroPage index operand =>
      cases operand with
      | literal number => cases hs
      | label name =>
        obtain ⟨value, hv, hlow, hhigh, rfl⟩ := Operand.value_of_encode hown
        obtain ⟨value', hv', hlow', hhigh', rfl⟩ := Operand.value_of_encode hmoved
        refine ⟨_, _, rfl, rfl, _, _, rfl, rfl, ?_⟩
        rw [toNat_ofInt hlow hhigh, toNat_ofInt hlow' hhigh']
        exact Operand.distance_of_moved hm hv hv'
    | absolute index operand =>
      cases operand with
      | literal number => cases hs
      | label name =>
        obtain ⟨value, hv, hlow, hhigh, rfl⟩ := Operand.value_of_encode hown
        obtain ⟨value', hv', hlow', hhigh', rfl⟩ := Operand.value_of_encode hmoved
        refine ⟨_, _, rfl, rfl, _, _, _, _, rfl, rfl, ?_⟩
        rw [toNat_word hlow hhigh, toNat_word hlow' hhigh']
        exact Operand.distance_of_moved hm hv hv'
    | relative operand =>
      cases operand with
      | label name => cases hs
      | literal number =>
        obtain ⟨target, hv, hlow, hhigh, rfl⟩ := Operand.value_of_encode hown
        obtain ⟨target', hv', hlow', hhigh', rfl⟩ := Operand.value_of_encode hmoved
        -- the target stays and the opcode moves
        cases hv
        cases hv'
        refine ⟨_, _, rfl, rfl, _, _, rfl, rfl, ?_⟩
        rw [signedOffset_ofInt (by omega) (by omega), signedOffset_ofInt (by omega) (by omega)]
        omega
    | _ => cases hs

theorem Item.shifts_of_encode (hm : labels.Moved distance other) (hd : (second : Int) - first = distance) {item : Item}
    {own moved : List UInt8} (hown : item.encode labels first = .ok own)
    (hmoved : item.encode other second = .ok moved) : item.Shifts distance own moved := by
  cases item with
  | instruction mnemonic opcode form => exact Form.shifts_of_encode hm hd hown hmoved
  | label name =>
    cases hown
    cases hmoved
    rfl
  | data value =>
    cases hown
    cases hmoved
    rfl

end Moving

/-! ## Both passes from two origins -/

/-- what the bytes of a program are that is resolved from two origins -/
structure BytesMoved (items : List Item) (first second : Nat) (bytes moved : Memory) : Prop where
  /-- item by item, the bytes shift as their forms say -/
  item_at : ∀ before item after, items = before ++ item :: after → ∃ own own',
    own.length = item.size ∧ own'.length = item.size ∧
    (∀ j < item.size, bytes[first + totalSize before + j]? = own[j]?) ∧
    (∀ j < item.size, moved[second + totalSize before + j]? = own'[j]?) ∧
    item.Shifts ((second : Int) - first) own own'
  /-- byte by byte, only an operand that depends on its place may change -/
  byte_at : ∀ k < totalSize items, bytes[first + k]? = moved[second + k]? ∨
    ∃ before item after, items = before ++ item :: after ∧ item.moves = true ∧
      totalSize before < k ∧ k < totalSize before + item.size

/-- what a program made of the given items has in common with itself at another origin; reports made before a pass do
not matter -/
structure Relocated (program : Program) (items : List Item) (first second : Nat) : Prop where
  /-- both layouts succeed, or both stop at the same repeated name -/
  layout : ∀ t₁ t₂,
    (∃ labels other, outcome (program.layout first t₁) = .ok labels ∧ outcome (program.layout second t₂) = .ok other ∧
      labels.Moved ((second : Int) - first) other) ∨
    ∃ name, outcome (program.layout first t₁) = .error (.duplicateLabel name) ∧
      outcome (program.layout second t₂) = .error (.duplicateLabel name)
  bytes : ∀ t₁ t₂ t₃ t₄ labels other bytes moved,
    outcome (program.layout first t₁) = .ok labels → outcome (program.layout second t₂) = .ok other →
    outcome (program.resolve labels first t₃) = .ok bytes → outcome (program.resolve other second t₄) = .ok moved →
    BytesMoved items first second bytes moved
  /-- if no item depends on its place, both passes succeed at both origins or at neither -/
  resolve_iff : (∀ item ∈ items, item.moves = false) → ∀ t₁ t₂ t₃ t₄ labels other,
    outcome (program.layout first t₁) = .ok labels → outcome (program.layout second t₂) = .ok other →
    ((∃ bytes, outcome (program.resolve labels first t₃) = .ok bytes) ↔
      ∃ moved, outcome (program.resolve other second t₄) = .ok moved)

section Items

variable {items : List Item} {first second : Nat}

/-- every byte belongs to an item -/
theorem exists_item_at {items : List Item} {k : Nat} (h : k < totalSize items) :
    ∃ before item after, items = before ++ item :: after ∧
      totalSize before ≤ k ∧ k < totalSize before + item.size := by
  induction items generalizing k with
  | nil => cases h
  | cons item items ih =>
    rw [totalSize_cons] at h
    by_cases hk : k < item.size
    · exact ⟨[], item, items, rfl, Nat.zero_le k, by rw [totalSize_nil]; omega⟩
    · obtain ⟨before, found, after, rfl, hlow, hhigh⟩ := ih (show k - item.size < totalSize items by omega)
      refine ⟨item :: before, found, after, rfl, ?_, ?_⟩ <;> rw [totalSize_cons] <;> omega

/-- two shifted items agree in their opcodes, and wholly if they do not depend on their places -/
theorem Item.Shifts.getElem?_eq {distance : Int} {item : Item} {own moved : List UInt8}
    (h : item.Shifts distance own moved) {j : Nat} (hj : item.moves = false ∨ j = 0) : own[j]? = moved[j]? := by
  cases item with
  | label name => rw [show own = moved from h]
  | data value => rw [show own = moved from h]
  | instruction mnemonic opcode form =>
    obtain ⟨operand, operand', rfl, rfl, hshift⟩ := h
    rcases hj with hs | rfl
    · rw [(Form.shifts_iff_of_still hs).1 hshift]
    · rfl

theorem bytesMoved_of_encode {labels other : Labels} {code code' : List UInt8}
    (hm : labels.Moved ((second : Int) - first) other) (hcode : encodeFrom labels first items = .ok code)
    (hcode' : encodeFrom other second items = .ok code') :
    BytesMoved items first second (Memory.store ∅ first code) (Memory.store ∅ second code') := by
  have hitem : ∀ before item after, items = before ++ item :: after → ∃ own own',
      own.length = item.size ∧ own'.length = item.size ∧
      (∀ j < item.size, (Memory.store ∅ first code)[first + totalSize before + j]? = own[j]?) ∧
      (∀ j < item.size, (Memory.store ∅ second code')[second + totalSize before + j]? = own'[j]?) ∧
      item.Shifts ((second : Int) - first) own own' := by
    rintro before item after rfl
    obtain ⟨own, hown, hlen, hat⟩ := getElem?_store_item hcode
    obtain ⟨own', hown', hlen', hat'⟩ := getElem?_store_item hcode'
    exact ⟨own, own', hlen, hlen', hat, hat', Item.shifts_of_encode hm (by omega) hown hown'⟩
  refine ⟨hitem, ?_⟩
  intro k hk
  obtain ⟨before, item, after, hi, hlow, hhigh⟩ := exists_item_at hk
  obtain ⟨own, own', _, _, hat, hat', hshift⟩ := hitem before item after hi
  by_cases hdepends : item.moves = true ∧ totalSize before < k
  · exact .inr ⟨before, item, after, hi, hdepends.1, hdepends.2, hhigh⟩
  · left
    obtain ⟨j, rfl⟩ := Nat.exists_eq_add_of_le hlow
    have hj : item.moves = false ∨ j = 0 := by
      cases hs : item.moves with
      | false => exact .inl rfl
      | true => exact .inr (by simp only [hs, true_and] at hdepends; omega)
    rw [← Nat.add_assoc, ← Nat.add_assoc, hat j (by omega), hat' j (by omega), hshift.getElem?_eq hj]

theorem relocated_ofItems (h₁ : first + totalSize items < Check.wordLimit)
    (h₂ : second + totalSize items < Check.wordLimit) :
    Relocated (Program.ofItems items) items first second := by
  have hm : (Labels.mk (labelsFrom first items)).Moved ((second : Int) - first) ⟨labelsFrom second items⟩ :=
    moved_labelsFrom rfl items
  have hb₁ := bounded_labelsFrom h₁
  have hb₂ := bounded_labelsFrom h₂
  refine ⟨?_, ?_, ?_⟩
  · intro t₁ t₂
    rcases nodup_or_repeated items with hd | ⟨before, name, after, rfl, hd, hrepeated⟩
    · exact .inl ⟨_, _, outcome_layout_distinct h₁ hd t₁, outcome_layout_distinct h₂ hd t₂, hm⟩
    · exact .inr ⟨name, outcome_layout_repeated h₁ hd hrepeated t₁, outcome_layout_repeated h₂ hd hrepeated t₂⟩
  · intro _ _ _ _ labels other bytes moved hlabels hother hbytes hmoved
    obtain ⟨_, rfl⟩ := eq_labelsFrom_of_layout h₁ hlabels
    obtain ⟨_, rfl⟩ := eq_labelsFrom_of_layout h₂ hother
    obtain ⟨code, hcode, rfl⟩ := (resolve_eq_ok_iff hb₁ h₁ _).1 hbytes
    obtain ⟨code', hcode', rfl⟩ := (resolve_eq_ok_iff hb₂ h₂ _).1 hmoved
    exact bytesMoved_of_encode hm hcode hcode'
  · intro hs _ _ t₃ t₄ labels other hlabels hother
    obtain ⟨_, rfl⟩ := eq_labelsFrom_of_layout h₁ hlabels
    obtain ⟨_, rfl⟩ := eq_labelsFrom_of_layout h₂ hother
    constructor
    · rintro ⟨bytes, hbytes⟩
      obtain ⟨code, hcode, _⟩ := (resolve_eq_ok_iff hb₁ h₁ t₃).1 hbytes
      exact ⟨_, (resolve_eq_ok_iff hb₂ h₂ t₄).2 ⟨code, encodeFrom_still hm (by omega) hs hcode, rfl⟩⟩
    · rintro ⟨moved, hmoved⟩
      obtain ⟨code, hcode, _⟩ := (resolve_eq_ok_iff hb₂ h₂ t₄).1 hmoved
      exact ⟨_, (resolve_eq_ok_iff hb₁ h₁ t₃).2 ⟨code, encodeFrom_still hm.symm (by omega) hs hcode, rfl⟩⟩

end Items

namespace Console

/-- **Relocation**: for all steps and every two origins at which the program ends below 2 ^ 32. -/
theorem relocated_build (steps : List Step) (first second length : Nat) (hl : (build steps).length = .ok length)
    (h₁ : first + length < 0x100000000) (h₂ : second + length < 0x100000000) :
    length = totalSize (itemsOf steps) ∧ Relocated (build steps) (itemsOf steps) first second := by
  rw [build_eq] at hl ⊢
  obtain ⟨_, rfl⟩ := length_eq_ok_iff.1 hl
  exact ⟨rfl, relocated_ofItems h₁ h₂⟩

/-- one operand of each sort: two addresses of a label, a branch to it, a branch to a literal -/
def wanderer : List Step :=
  [.call (.label "top"), .call (Call.ldaZeroPage (.label "top")), .call (Call.jmpAbsolute (.label "top")),
    .call (Call.bne (.label "top")), .call (Call.bne (.literal 0x18))]

theorem relocated_wanderer :
    (build wanderer).length = .ok 9 ∧ 0x10 + 9 < 0x100000000 ∧ 0x20 + 9 < 0x100000000 ∧
    ∃ labels other bytes moved, outcome ((build wanderer).layout 0x10 []) = .ok labels ∧
      outcome ((build wanderer).layout 0x20 []) = .ok other ∧
      outcome ((build wanderer).resolve labels 0x10 []) = .ok bytes ∧
      outcome ((build wanderer).resolve other 0x20 []) = .ok moved ∧
      BytesMoved (itemsOf wanderer) 0x10 0x20 bytes moved := by
  have hlength : (build wanderer).length = .ok 9 := by
    rw [build_eq]
    exact length_eq_ok_iff.2 ⟨by decide, rfl⟩
  obtain ⟨_, hrelocated⟩ := relocated_build wanderer 0x10 0x20 9 hlength (by decide) (by decide)
  have h₁ : 0x10 + totalSize (itemsOf wanderer) < Check.wordLimit := by decide
  have h₂ : 0x20 + totalSize (itemsOf wanderer) < Check.wordLimit := by decide
  have hlabels := outcome_layout_distinct h₁ (by decide) []
  have hother := outcome_layout_distinct h₂ (by decide) []
  have hbytes := (resolve_eq_ok_iff (bounded_labelsFrom h₁) h₁ []).2
    ⟨[0xA5, 0x10, 0x4C, 0x10, 0x00, 0xD0, 0xF9, 0xD0, 0xFF], rfl, rfl⟩
  have hmoved := (resolve_eq_ok_iff (bounded_labelsFrom h₂) h₂ []).2
    ⟨[0xA5, 0x20, 0x4C, 0x20, 0x00, 0xD0, 0xF9, 0xD0, 0xEF], rfl, rfl⟩
  rw [← build_eq] at hlabels hother hbytes hmoved
  exact ⟨hlength, by decide, by decide, _, _, _, _, hlabels, hother, hbytes, hmoved,
    hrelocated.bytes [] [] [] [] _ _ _ _ hlabels hother hbytes hmoved⟩

end Console

end Asm6502
