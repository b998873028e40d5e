/-
The flat view of a program: a list of items, each with its size, its label and its bytes.

Nothing here knows about trees. An item has a fixed size; one scan over the items gives every label its address, and a
second one, with the labels bound, gives every item its bytes. Ranges and offsets are written out as numbers:
- a zero-page operand is a byte;
- an absolute operand fits sixteen bits and is written low byte first;
- a branch at address A to target T needs -126 ≤ T - A ≤ 129, and its second byte is the distance from A + 2.

- `encode_length`, `encodeFrom_length`: an item has as many bytes as its size says.
- `labelsFrom_append`, `encodeFrom_append_eq_ok_iff`: both scans go on where they left off, behind the bytes so far.
- `get?_labelsFrom`: if all names differ, each label has the address at which its item stands.
-/
import Asm6502.Item
import Asm6502.Proofs.Lengths

namespace Asm6502

/-! ## Sizes and names -/

namespace Form

/-- the number of bytes of an instruction, opcode included -/
def size : Form → Nat
  | .implied => 1
  | .accumulator => 1
  | .immediate _ => 2
  | .zeroPage _ _ => 2
  | .absolute _ _ => 3
  | .relative _ => 2

theorem size_eq (form : Form) : form.size = 1 + form.parts.length := by
  cases form <;> rfl

end Form

namespace Item

def size : Item → Nat
  | .label _ => 0
  | .data _ => 1
  | .instruction _ _ form => form.size

/-- the name that an item binds -/
def name? : Item → Option String
  | .label name => some name
  | _ => none

end Item

def totalSize : List Item → Nat
  | [] => 0
  | item :: items => item.size + totalSize items

def labelNames (items : List Item) : List String :=
  items.filterMap Item.name?

@[simp] theorem totalSize_nil : totalSize [] = 0 := rfl

@[simp] theorem totalSize_cons (item : Item) (items : List Item) :
    totalSize (item :: items) = item.size + totalSize items := rfl

@[simp] theorem totalSize_append (before after : List Item) :
    totalSize (before ++ after) = totalSize before + totalSize after := by
  induction before with
  | nil => simp
  | cons item before ih => simp [ih, Nat.add_assoc]

@[simp] theorem labelNames_nil : labelNames [] = [] := rfl

@[simp] theorem labelNames_label (name : String) (items : List Item) :
    labelNames (.label name :: items) = name :: labelNames items := rfl

@[simp] theorem labelNames_data (value : UInt8) (items : List Item) :
    labelNames (.data value :: items) = labelNames items := rfl

@[simp] theorem labelNames_instruction (mnemonic : String) (opcode : UInt8) (form : Form) (items : List Item) :
    labelNames (.instruction mnemonic opcode form :: items) = labelNames items := rfl

@[simp] theorem labelNames_append (before after : List Item) :
    labelNames (before ++ after) = labelNames before ++ labelNames after := by
  simp [labelNames]

/-! ## Addresses of labels -/

/-- every label with the address at which it stands, the first item being at `address` -/
def labelsFrom : (address : Nat) → List Item → List (String × Nat)
  | _, [] => []
  | address, item :: items =>
    (item.name?.toList.map fun name => (name, address)) ++ labelsFrom (address + item.size) items

theorem labelsFrom_append (address : Nat) (before after : List Item) :
    labelsFrom address (before ++ after) =
      labelsFrom address before ++ labelsFrom (address + totalSize before) after := by
  induction before generalizing address with
  | nil => simp [labelsFrom]
  | cons item before ih => simp [labelsFrom, ih, Nat.add_assoc]

theorem map_fst_labelsFrom (address : Nat) (items : List Item) :
    (labelsFrom address items).map Prod.fst = labelNames items := by
  induction items generalizing address with
  | nil => rfl
  | cons item items ih =>
    rw [labelsFrom, List.map_append, ih]
    cases item <;> rfl

theorem mem_labelsFrom {address : Nat} {items : List Item} {entry : String × Nat}
    (h : entry ∈ labelsFrom address items) : address ≤ entry.2 ∧ entry.2 ≤ address + totalSize items := by
  induction items generalizing address with
  | nil => simp [labelsFrom] at h
  | cons item items ih =>
    rw [totalSize_cons]
    rcases List.mem_append.1 h with h | h
    · obtain ⟨name, _, rfl⟩ := List.mem_map.1 h
      exact ⟨Nat.le_refl _, Nat.le_add_right _ _⟩
    · have := ih h
      omega

theorem lookup_eq_none {entries : List (String × Nat)} {name : String} (h : name ∉ entries.map Prod.fst) :
    entries.lookup name = none := by
  rw [List.lookup_eq_none_iff]
  intro entry he
  rw [bne_iff_ne]
  rintro rfl
  exact h (List.mem_map_of_mem he)

/-- the address of a label among distinct ones -/
theorem get?_labelsFrom {address : Nat} {before after : List Item} {name : String}
    (h : (labelNames (before ++ .label name :: after)).Nodup) :
    (Labels.mk (labelsFrom address (before ++ .label name :: after))).get? name =
      some (address + totalSize before) := by
  have hn : name ∉ labelNames before := by
    rw [labelNames_append, List.nodup_append] at h
    intro hb
    exact h.2.2 name hb name (by simp) rfl
  rw [← map_fst_labelsFrom address] at hn
  rw [Labels.get?, labelsFrom_append, List.lookup_append, lookup_eq_none hn]
  simp [labelsFrom, Item.name?]

/-! ## Bytes -/

/-- the operand's value, which must lie between two bounds -/
def Operand.within (labels : Labels) (operand : Operand) (least most : Int) (fault : Int → Fault) :
    Except Fault Int := do
  let value ← operand.value labels
  if least ≤ value ∧ value ≤ most then .ok value else .error (fault value)

/-- the bytes of an instruction whose opcode is at `address` -/
def Form.encode (labels : Labels) (address : Nat) (opcode : UInt8) : Form → Except Fault (List UInt8)
  | .implied => .ok [opcode]
  | .accumulator => .ok [opcode]
  | .immediate value => .ok [opcode, value]
  | .zeroPage _ operand => do
    let value ← operand.within labels 0 0xFF fun value => .outOfRange "zero-page address" value 0 0xFF
    pure [opcode, UInt8.ofInt value]
  | .absolute _ operand => do
    let value ← operand.within labels 0 0xFFFF fun value => .outOfRange "absolute address" value 0 0xFFFF
    pure [opcode, UInt8.ofInt (value % 256), UInt8.ofInt (value / 256)]
  | .relative operand => do
    let target ← operand.within labels (address - 126) (address + 129) fun target =>
      .branchOutOfRange address target.toNat
    -- the processor counts from the address after both bytes
    pure [opcode, UInt8.ofInt (target - (address + 2))]

def Item.encode (labels : Labels) (address : Nat) : Item → Except Fault (List UInt8)
  | .label _ => .ok []
  | .data value => .ok [value]
  | .instruction _ opcode form => form.encode labels address opcode

/-- the bytes of all items in order, the first item being at `address`; the first fault stops the scan -/
def encodeFrom (labels : Labels) : (address : Nat) → List Item → Except Fault (List UInt8)
  | _, [] => .ok []
  | address, item :: items => do
    let code ← item.encode labels address
    let rest ← encodeFrom labels (address + item.size) items
    pure (code ++ rest)

theorem Operand.within_eq_ok_iff {labels : Labels} {operand : Operand} {least most value : Int}
    {fault : Int → Fault} :
    operand.within labels least most fault = .ok value ↔
      operand.value labels = .ok value ∧ least ≤ value ∧ value ≤ most := by
  rw [within]
  cases operand.value labels with
  | error cause => simp
  | ok found =>
    rw [ok_bind]
    split <;> grind

theorem Operand.within_eq_error_iff {labels : Labels} {operand : Operand} {least most : Int} {fault : Int → Fault}
    {cause : Fault} :
    operand.within labels least most fault = .error cause ↔
      operand.value labels = .error cause ∨
        ∃ value, operand.value labels = .ok value ∧ ¬ (least ≤ value ∧ value ≤ most) ∧ cause = fault value := by
  rw [within]
  cases operand.value labels with
  | error found => simp
  | ok found =>
    rw [ok_bind]
    split <;> grind

theorem Form.encode_length {labels : Labels} {address : Nat} {opcode : UInt8} {form : Form} {code : List UInt8}
    (h : form.encode labels address opcode = .ok code) : code.length = form.size := by
  cases form with
  | implied => cases h; rfl
  | accumulator => cases h; rfl
  | immediate value => cases h; rfl
  | zeroPage index operand =>
    obtain ⟨value, _, h⟩ := bind_eq_ok_iff.1 h
    cases h; rfl
  | absolute index operand =>
    obtain ⟨value, _, h⟩ := bind_eq_ok_iff.1 h
    cases h; rfl
  | relative operand =>
    obtain ⟨target, _, h⟩ := bind_eq_ok_iff.1 h
    cases h; rfl

theorem Item.encode_length {labels : Labels} {address : Nat} {item : Item} {code : List UInt8}
    (h : item.encode labels address = .ok code) : code.length = item.size := by
  cases item with
  | label name => cases h; rfl
  | data value => cases h; rfl
  | instruction mnemonic opcode form => exact Form.encode_length h

theorem encodeFrom_cons_eq_ok_iff {labels : Labels} {address : Nat} {item : Item} {items : List Item}
    {code : List UInt8} :
    encodeFrom labels address (item :: items) = .ok code ↔
      ∃ own rest, item.encode labels address = .ok own ∧
        encodeFrom labels (address + item.size) items = .ok rest ∧ code = own ++ rest := by
  rw [encodeFrom]
  constructor
  · intro h
    obtain ⟨own, ho, h⟩ := bind_eq_ok_iff.1 h
    obtain ⟨rest, hr, h⟩ := bind_eq_ok_iff.1 h
    cases h
    exact ⟨own, rest, ho, hr, rfl⟩
  · rintro ⟨own, rest, ho, hr, rfl⟩
    rw [ho, ok_bind, hr, ok_bind]
    rfl

/-- a scan that fails, fails at one item; those before it have an encoding -/
theorem encodeFrom_eq_error_iff {labels : Labels} {address : Nat} {items : List Item} {fault : Fault} :
    encodeFrom labels address items = .error fault ↔
      ∃ before item after code, items = before ++ item :: after ∧ encodeFrom labels address before = .ok code ∧
        item.encode labels (address + totalSize before) = .error fault := by
  induction items generalizing address with
  | nil =>
    refine ⟨fun h => (by cases h), ?_⟩
    rintro ⟨before, item, after, _, h, _⟩
    cases before <;> cases h
  | cons item items ih =>
    rw [encodeFrom]
    constructor
    · intro h
      rcases bind_eq_error_iff.1 h with hown | ⟨own, hown, h⟩
      · exact ⟨[], item, items, [], rfl, rfl, hown⟩
      · rcases bind_eq_error_iff.1 h with hrest | ⟨_, _, h⟩
        · obtain ⟨before, other, after, code, rfl, hbefore, hother⟩ := ih.1 hrest
          rw [Nat.add_assoc, ← totalSize_cons] at hother
          exact ⟨item :: before, other, after, own ++ code, rfl,
            encodeFrom_cons_eq_ok_iff.2 ⟨own, code, hown, hbefore, rfl⟩, hother⟩
        · cases h
    · rintro ⟨before, other, after, code, hsplit, hbefore, hother⟩
      rcases List.cons_eq_append_iff.1 hsplit with ⟨rfl, hcons⟩ | ⟨before, rfl, rfl⟩
      · cases hcons
        exact bind_eq_error_iff.2 (.inl hother)
      · obtain ⟨own, rest, hown, hrest, _⟩ := encodeFrom_cons_eq_ok_iff.1 hbefore
        rw [totalSize_cons, ← Nat.add_assoc] at hother
        refine bind_eq_error_iff.2 (.inr ⟨own, hown, bind_eq_error_iff.2 (.inl ?_)⟩)
        exact ih.2 ⟨before, other, after, rest, rfl, hrest, hother⟩

theorem encodeFrom_length {labels : Labels} {address : Nat} {items : List Item} {code : List UInt8}
    (h : encodeFrom labels address items = .ok code) : code.length = totalSize items := by
  induction items generalizing address code with
  | nil => cases h; rfl
  | cons item items ih =>
    obtain ⟨own, rest, ho, hr, rfl⟩ := encodeFrom_cons_eq_ok_iff.1 h
    rw [List.length_append, Item.encode_length ho, ih hr, totalSize_cons]

/-- the scan over items in two parts: the second starts behind the bytes of the first -/
theorem encodeFrom_append_eq_ok_iff {labels : Labels} {address : Nat} {before after : List Item} {code : List UInt8} :
    encodeFrom labels address (before ++ after) = .ok code ↔
      ∃ first second, encodeFrom labels address before = .ok first ∧
        encodeFrom labels (address + totalSize before) after = .ok second ∧ code = first ++ second := by
  induction before generalizing address code with
  | nil => simp [encodeFrom]
  | cons item before ih =>
    rw [List.cons_append, encodeFrom_cons_eq_ok_iff]
    constructor
    · rintro ⟨own, rest, ho, hr, rfl⟩
      obtain ⟨first, second, hf, hs, rfl⟩ := ih.1 hr
      refine ⟨own ++ first, second, encodeFrom_cons_eq_ok_iff.2 ⟨own, first, ho, hf, rfl⟩, ?_, by simp⟩
      rw [totalSize_cons, ← Nat.add_assoc]
      exact hs
    · rintro ⟨first, second, hf, hs, rfl⟩
      obtain ⟨own, rest, ho, hr, rfl⟩ := encodeFrom_cons_eq_ok_iff.1 hf
      rw [totalSize_cons, ← Nat.add_assoc] at hs
      exact ⟨own, rest ++ second, ho, ih.2 ⟨rest, second, hr, hs, rfl⟩, by simp⟩

end Asm6502
