/-
Appending never disturbs what was built.

A program that is built further has all its old items in front of the new ones. Its labels therefore begin with the old
labels, and under more labels an operand that had a value keeps it. Only an operand that had none may get one.

- `Labels.Extends`: one map has all labels of another, at the same addresses.
- `encodeFrom_extends`: under more labels a scan gives the same code or the same fault, unless it stopped at a label
  that was not bound.
- `Preserved`: what the two passes of a program and of an extension of it have in common.
- `preserved_build`: it holds of every program and every way of going on building it.
-/
import Asm6502.Proofs.Outcome

namespace Asm6502

/-! ## More labels -/

/-- every label of the first map has the same address in the second -/
def Labels.Extends (labels larger : Labels) : Prop :=
  ∀ name address, labels.get? name = some address → larger.get? name = some address

theorem Labels.extends_of_entries {labels larger : Labels} (h : labels.entries <+: larger.entries) :
    labels.Extends larger := by
  obtain ⟨more, hmore⟩ := h
  intro name address hget
  rw [get?] at hget ⊢
  rw [← hmore, List.lookup_append, hget]
  rfl

section Extends

variable {labels larger : Labels}

theorem Operand.value_extends (h : labels.Extends larger) (operand : Operand) :
    (∃ name, operand.value labels = .error (.undefinedLabel name)) ∨
      operand.value larger = operand.value labels := by
  cases operand with
  | literal value => exact .inr rfl
  | label name =>
    simp only [value]
    cases hget : labels.get? name with
    | none => exact .inl ⟨name, rfl⟩
    | some address => exact .inr (by rw [h name address hget])

theorem Operand.within_extends (h : labels.Extends larger) (operand : Operand) (least most : Int)
    (fault : Int → Fault) (made : Int → List UInt8) :
    (∃ name, (operand.within labels least most fault >>= fun value => pure (made value)) =
      .error (.undefinedLabel name)) ∨
      (operand.within larger least most fault >>= fun value => pure (made value)) =
        (operand.within labels least most fault >>= fun value => pure (made value)) := by
  rcases operand.value_extends h with ⟨name, hvalue⟩ | hvalue
  · exact .inl ⟨name, by rw [within, hvalue]; rfl⟩
  · exact .inr (by rw [within, within, hvalue])

theorem Item.encode_extends (h : labels.Extends larger) (item : Item) (address : Nat) :
    (∃ name, item.encode labels address = .error (.undefinedLabel name)) ∨
      item.encode larger address = item.encode labels address := by
  cases item with
  | label name => exact .inr rfl
  | data value => exact .inr rfl
  | instruction mnemonic opcode form =>
    cases form with
    | zeroPage index operand => exact operand.within_extends h _ _ _ _
    | absolute index operand => exact operand.within_extends h _ _ _ _
    | relative operand => exact operand.within_extends h _ _ _ _
    | _ => exact .inr rfl

/-- **More labels change nothing**, unless a label was missing. -/
theorem encodeFrom_extends (h : labels.Extends larger) (address : Nat) (items : List Item) :
    (∃ name, encodeFrom labels address items = .error (.undefinedLabel name)) ∨
      encodeFrom larger address items = encodeFrom labels address items := by
  induction items generalizing address with
  | nil => exact .inr rfl
  | cons item items ih =>
    rw [encodeFrom, encodeFrom]
    rcases item.encode_extends h address with ⟨name, hown⟩ | hown
    · exact .inl ⟨name, by rw [hown, error_bind]⟩
    · rw [hown]
      cases item.encode labels address with
      | error fault => exact .inr rfl
      | ok own =>
        rcases ih (address + item.size) with ⟨name, hrest⟩ | hrest
        · exact .inl ⟨name, by rw [ok_bind, hrest, error_bind]⟩
        · exact .inr (by rw [hrest])

end Extends

/-- a fault in the first items is the fault of all -/
theorem encodeFrom_append_error {labels : Labels} {address : Nat} {before : List Item} {fault : Fault}
    (h : encodeFrom labels address before = .error fault) (after : List Item) :
    encodeFrom labels address (before ++ after) = .error fault := by
  induction before generalizing address with
  | nil => cases h
  | cons item before ih =>
    rw [List.cons_append, encodeFrom]
    rcases bind_eq_error_iff.1 h with hown | ⟨own, hown, hrest⟩
    · rw [hown, error_bind]
    · rcases bind_eq_error_iff.1 hrest with hrest | ⟨_, _, hpure⟩
      · rw [hown, ok_bind, ih hrest, error_bind]
      · cases hpure

/-! ## Both passes -/

/-- what a program and an extension of it have in common, both of them starting at `origin`; reports made before a pass
do not matter -/
structure Preserved (program extension : Program) (origin : Nat) : Prop where
  /-- the labels of the extension begin with those of the program -/
  layout_ok : ∀ t₁ t₂ larger, outcome (extension.layout origin t₂) = .ok larger →
    ∃ labels, outcome (program.layout origin t₁) = .ok labels ∧ labels.entries <+: larger.entries
  /-- a repeated name stays the first repeated name -/
  layout_error : ∀ t₁ t₂ fault, outcome (program.layout origin t₁) = .error fault →
    (∃ name, fault = .duplicateLabel name) ∧ outcome (extension.layout origin t₂) = .error fault
  /-- the bytes of the program are bytes of the extension -/
  bytes_eq : ∀ t₁ t₂ t₃ t₄ labels larger bytes longer length,
    outcome (program.layout origin t₁) = .ok labels → outcome (extension.layout origin t₂) = .ok larger →
    outcome (program.resolve labels origin t₃) = .ok bytes →
    outcome (extension.resolve larger origin t₄) = .ok longer →
    program.length = .ok length → ∀ address, origin ≤ address → address < origin + length →
      ∃ byte, bytes[address]? = some byte ∧ longer[address]? = some byte
  /-- a fault stays the first fault, unless a label was missing -/
  resolve_error : ∀ t₁ t₂ t₃ t₄ labels larger fault,
    outcome (program.layout origin t₁) = .ok labels → outcome (extension.layout origin t₂) = .ok larger →
    outcome (program.resolve labels origin t₃) = .error fault → (∀ name, fault ≠ .undefinedLabel name) →
      outcome (extension.resolve larger origin t₄) = .error fault

section Items

variable {items more : List Item} {origin : Nat}

theorem labelsFrom_begins (origin : Nat) (items more : List Item) :
    labelsFrom origin items <+: labelsFrom origin (items ++ more) := by
  rw [labelsFrom_append]
  exact List.prefix_append _ _

theorem layout_ok_append (h : origin + totalSize (items ++ more) < Check.wordLimit) {t₂ : List Event}
    {larger : Labels} (hrun : outcome ((Program.ofItems (items ++ more)).layout origin t₂) = .ok larger)
    (t₁ : List Event) :
    ∃ labels, outcome ((Program.ofItems items).layout origin t₁) = .ok labels ∧
      labels.entries <+: larger.entries := by
  obtain ⟨hd, rfl⟩ := eq_labelsFrom_of_layout h hrun
  rw [labelNames_append] at hd
  rw [totalSize_append] at h
  exact ⟨_, outcome_layout_distinct (by omega) (List.nodup_append.1 hd).1 t₁, labelsFrom_begins origin items more⟩

theorem layout_error_append (h : origin + totalSize (items ++ more) < Check.wordLimit) {t₁ : List Event}
    {fault : Fault} (hrun : outcome ((Program.ofItems items).layout origin t₁) = .error fault) (t₂ : List Event) :
    (∃ name, fault = .duplicateLabel name) ∧
      outcome ((Program.ofItems (items ++ more)).layout origin t₂) = .error fault := by
  have hsize : origin + totalSize items < Check.wordLimit := by
    rw [totalSize_append] at h
    omega
  rcases nodup_or_repeated items with hd | ⟨before, name, after, rfl, hd, hm⟩
  · rw [outcome_layout_distinct hsize hd] at hrun
    cases hrun
  · rw [outcome_layout_repeated hsize hd hm] at hrun
    cases hrun
    rw [List.append_assoc, List.cons_append] at h ⊢
    exact ⟨⟨name, rfl⟩, outcome_layout_repeated h hd hm t₂⟩

/-- what pass two stores for the first items, it stores for all -/
theorem getElem?_store_append {labels larger : Labels} {code longer : List UInt8} (hext : labels.Extends larger)
    (hcode : encodeFrom labels origin items = .ok code)
    (hlonger : encodeFrom larger origin (items ++ more) = .ok longer) {address : Nat} (hlow : origin ≤ address)
    (hhigh : address < origin + totalSize items) :
    ∃ byte, (Memory.store ∅ origin code)[address]? = some byte ∧
      (Memory.store ∅ origin longer)[address]? = some byte := by
  obtain ⟨first, second, hfirst, _, rfl⟩ := encodeFrom_append_eq_ok_iff.1 hlonger
  have heq : first = code := by
    rcases encodeFrom_extends hext origin items with ⟨name, hstop⟩ | hsame
    · rw [hcode] at hstop
      cases hstop
    · rw [hfirst, hcode] at hsame
      cases hsame
      rfl
  have hlen := encodeFrom_length hcode
  obtain ⟨k, rfl⟩ := Nat.exists_eq_add_of_le hlow
  have hk : k < code.length := by omega
  refine ⟨code[k], ?_, ?_⟩
  · rw [Memory.getElem?_store_empty, List.getElem?_eq_getElem hk]
  · rw [Memory.getElem?_store_empty, heq, List.getElem?_append_left hk, List.getElem?_eq_getElem hk]

theorem preserved_append (h : origin + totalSize (items ++ more) < Check.wordLimit) :
    Preserved (Program.ofItems items) (Program.ofItems (items ++ more)) origin := by
  have hsize : origin + totalSize items < Check.wordLimit := by
    rw [totalSize_append] at h
    omega
  have hext : (Labels.mk (labelsFrom origin items)).Extends ⟨labelsFrom origin (items ++ more)⟩ :=
    Labels.extends_of_entries (labelsFrom_begins origin items more)
  refine ⟨fun t₁ _ _ hrun => layout_ok_append h hrun t₁, fun _ t₂ _ hrun => layout_error_append h hrun t₂, ?_, ?_⟩
  · intro _ _ _ _ labels larger bytes longer length hlabels hlarger hbytes hlonger hlength address hlow hhigh
    obtain ⟨_, rfl⟩ := eq_labelsFrom_of_layout hsize hlabels
    obtain ⟨_, rfl⟩ := eq_labelsFrom_of_layout h hlarger
    obtain ⟨code, hcode, rfl⟩ := (resolve_eq_ok_iff (bounded_labelsFrom hsize) hsize _).1 hbytes
    obtain ⟨whole, hwhole, rfl⟩ := (resolve_eq_ok_iff (bounded_labelsFrom h) h _).1 hlonger
    obtain ⟨_, rfl⟩ := length_eq_ok_iff.1 hlength
    exact getElem?_store_append hext hcode hwhole hlow hhigh
  · intro _ _ _ _ labels larger fault hlabels hlarger hfault hbound
    obtain ⟨_, rfl⟩ := eq_labelsFrom_of_layout hsize hlabels
    obtain ⟨_, rfl⟩ := eq_labelsFrom_of_layout h hlarger
    have hstop := (resolve_eq_error_iff (bounded_labelsFrom hsize) hsize _).1 hfault
    refine (resolve_eq_error_iff (bounded_labelsFrom h) h _).2 ?_
    rcases encodeFrom_extends hext origin items with ⟨name, hundefined⟩ | hsame
    · rw [hstop] at hundefined
      cases hundefined
      exact absurd rfl (hbound name)
    · exact encodeFrom_append_error (hsame.trans hstop) more

end Items

namespace Console

theorem itemsOf_append (steps more : List Step) : itemsOf (steps ++ more) = itemsOf steps ++ itemsOf more :=
  List.flatMap_append

/-- **Appending never disturbs what was built**: for all steps, all further steps and every origin at which the longer
program ends below 2 ^ 32. -/
theorem preserved_build (steps more : List Step) (origin length : Nat)
    (hl : (build (steps ++ more)).length = .ok length) (ho : origin + length < 0x100000000) :
    Preserved (build steps) (build (steps ++ more)) origin := by
  rw [build_eq (steps ++ more), itemsOf_append] at hl ⊢
  rw [build_eq steps]
  obtain ⟨_, rfl⟩ := length_eq_ok_iff.1 hl
  exact preserved_append ho

/-- a loop over one instruction -/
def opening : List Step :=
  [.call (.label "top"), .call Call.dex, .call (Call.bne (.label "top"))]

/-- a jump ahead and a failing call, to be put after something else -/
def ending : List Step :=
  [.call (Call.jmpAbsolute (.label "end")), .call (.emit "JMP" .implied none), .call (.label "end")]

theorem preserved_opening :
    (build (opening ++ ending)).length = .ok 6 ∧ 0xF000 + 6 < 0x100000000 ∧
    ∃ labels larger bytes longer, outcome ((build opening).layout 0xF000 []) = .ok labels ∧
      outcome ((build (opening ++ ending)).layout 0xF000 []) = .ok larger ∧
      outcome ((build opening).resolve labels 0xF000 []) = .ok bytes ∧
      outcome ((build (opening ++ ending)).resolve larger 0xF000 []) = .ok longer ∧
      ∀ address, 0xF000 ≤ address → address < 0xF003 →
        ∃ byte, bytes[address]? = some byte ∧ longer[address]? = some byte := by
  have hlength : (build (opening ++ ending)).length = .ok 6 := by
    rw [build_eq]
    exact length_eq_ok_iff.2 ⟨by decide, rfl⟩
  have hpreserved := preserved_build opening ending 0xF000 6 hlength (by decide)
  have hfirst : 0xF000 + totalSize (itemsOf opening) < Check.wordLimit := by decide
  have hboth : 0xF000 + totalSize (itemsOf (opening ++ ending)) < Check.wordLimit := by decide
  have hlabels := outcome_layout_distinct hfirst (by decide) []
  have hlarger := outcome_layout_distinct hboth (by decide) []
  have hbytes := (resolve_eq_ok_iff (bounded_labelsFrom hfirst) hfirst []).2 ⟨[0xCA, 0xD0, 0xFD], rfl, rfl⟩
  have hlonger := (resolve_eq_ok_iff (bounded_labelsFrom hboth) hboth []).2
    ⟨[0xCA, 0xD0, 0xFD, 0x4C, 0x06, 0xF0], rfl, rfl⟩
  rw [← build_eq] at hlabels hlarger hbytes hlonger
  have hthree : (build opening).length = .ok 3 := by
    rw [build_eq]
    exact length_eq_ok_iff.2 ⟨by decide, rfl⟩
  exact ⟨hlength, by decide, _, _, _, _, hlabels, hlarger, hbytes, hlonger,
    hpreserved.bytes_eq [] [] [] [] _ _ _ _ 3 hlabels hlarger hbytes hlonger hthree⟩

end Console

end Asm6502
