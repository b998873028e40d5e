/-
When a compilation succeeds, and which fault it gives when it does not.

Both answers are stated on the items of a program and the two numbers of a cartridge, without passes or trees.
- `Accepted`: the cartridge lies in the address space on a bank boundary, the items leave room for the vectors, the
  label names differ, and every operand has a value that its place can hold.
- `Rejected`: the fault of the first check that fails. Each rule also says that all earlier checks hold, so the order
  of the rules is the precedence of the faults.

Every program and cartridge is accepted or rejected (`accepted_or_rejected`), an accepted one compiles
(`compile_of_accepted`), and a rejected one stops with the fault of its rule, having reported what `Reported` says
(`compile_of_rejected`). The converses follow, since a compilation has only one result (`accepted_of_compile`,
`rejected_of_compile`), and with them the two equivalences of `compile_ok_iff_accepted`.
-/
import Asm6502.Proofs.Building
import Asm6502.Proofs.Compilation

namespace Asm6502

/-! ## Operands -/

/-- every operand that is an address has a value, and its place can hold it -/
def Form.Resolves (labels : Labels) (address : Nat) : Form → Prop
  | .implied => True
  | .accumulator => True
  | .immediate _ => True
  | .zeroPage _ operand => ∃ value, operand.value labels = .ok value ∧ 0 ≤ value ∧ value ≤ 0xFF
  | .absolute _ operand => ∃ value, operand.value labels = .ok value ∧ 0 ≤ value ∧ value ≤ 0xFFFF
  | .relative operand =>
    ∃ target, operand.value labels = .ok target ∧ -126 ≤ target - address ∧ target - address ≤ 129

/-- why the operand of an instruction at `address` cannot be encoded -/
inductive Form.Refused (labels : Labels) (address : Nat) : Form → Fault → Prop where
  | unbound {form : Form} {name : String} (hop : form.operand = some (.label name)) (hn : labels.get? name = none) :
      Refused labels address form (.undefinedLabel name)
  | zeroPage {index : Index} {operand : Operand} {value : Int} (hv : operand.value labels = .ok value)
      (hr : ¬ (0 ≤ value ∧ value ≤ 0xFF)) :
      Refused labels address (.zeroPage index operand) (.outOfRange "zero-page address" value 0 0xFF)
  | absolute {index : Index} {operand : Operand} {value : Int} (hv : operand.value labels = .ok value)
      (hr : ¬ (0 ≤ value ∧ value ≤ 0xFFFF)) :
      Refused labels address (.absolute index operand) (.outOfRange "absolute address" value 0 0xFFFF)
  | relative {operand : Operand} {target : Int} (hv : operand.value labels = .ok target)
      (hr : ¬ (-126 ≤ target - address ∧ target - address ≤ 129)) :
      Refused labels address (.relative operand) (.branchOutOfRange address target.toNat)

/-- an instruction's operand resolves; labels and data have none -/
def Item.Resolves (labels : Labels) (address : Nat) : Item → Prop
  | .label _ => True
  | .data _ => True
  | .instruction _ _ form => form.Resolves labels address

/-- an instruction's operand is refused; labels and data have none -/
def Item.Refused (labels : Labels) (address : Nat) : Item → Fault → Prop
  | .label _, _ => False
  | .data _, _ => False
  | .instruction _ _ form, fault => form.Refused labels address fault

/-- each item resolves at the address at which it stands, the first item being at `address` -/
def AllResolve (labels : Labels) (address : Nat) (items : List Item) : Prop :=
  ∀ before item after, items = before ++ item :: after → item.Resolves labels (address + totalSize before)

namespace Operand

variable {labels : Labels} {operand : Operand} {least most : Int} {cause : Int → Fault}

theorem value_eq_error_iff {fault : Fault} :
    operand.value labels = .error fault ↔
      ∃ name, operand = .label name ∧ labels.get? name = none ∧ fault = .undefinedLabel name := by
  cases operand with
  | literal number => simp [value]
  | label name =>
    rw [value]
    cases hn : labels.get? name with
    | none => simp [hn, eq_comm]
    | some address => simp [hn]

/-- the three encodings of an operand differ in its bounds and in what is made of its value -/
theorem exists_within_iff {made : Int → List UInt8} :
    (∃ code, (operand.within labels least most cause >>= fun value => pure (made value)) = .ok code) ↔
      ∃ value, operand.value labels = .ok value ∧ least ≤ value ∧ value ≤ most := by
  constructor
  · rintro ⟨code, hc⟩
    obtain ⟨value, hv, _⟩ := bind_eq_ok_iff.1 hc
    exact ⟨value, within_eq_ok_iff.1 hv⟩
  · rintro ⟨value, hv⟩
    exact ⟨made value, bind_eq_ok_iff.2 ⟨value, within_eq_ok_iff.2 hv, rfl⟩⟩

theorem within_bind_eq_error_iff {made : Int → List UInt8} {fault : Fault} :
    (operand.within labels least most cause >>= fun value => pure (made value)) = .error fault ↔
      (∃ name, operand = .label name ∧ labels.get? name = none ∧ fault = .undefinedLabel name) ∨
        ∃ value, operand.value labels = .ok value ∧ ¬ (least ≤ value ∧ value ≤ most) ∧ fault = cause value := by
  rw [← value_eq_error_iff, ← within_eq_error_iff]
  constructor
  · intro hc
    rcases bind_eq_error_iff.1 hc with hv | ⟨_, _, hc⟩
    · exact hv
    · cases hc
  · intro hv
    exact bind_eq_error_iff.2 (.inl hv)

end Operand

theorem Form.exists_encode_iff {labels : Labels} {address : Nat} {opcode : UInt8} {form : Form} :
    (∃ code, form.encode labels address opcode = .ok code) ↔ form.Resolves labels address := by
  cases form with
  | zeroPage index operand => exact Operand.exists_within_iff
  | absolute index operand => exact Operand.exists_within_iff
  | relative operand =>
    refine Operand.exists_within_iff.trans (exists_congr fun target => and_congr_right fun _ => ?_)
    constructor <;> intro h <;> omega
  | _ => exact ⟨fun _ => trivial, fun _ => ⟨_, rfl⟩⟩

theorem Form.refused_of_encode {labels : Labels} {address : Nat} {opcode : UInt8} {form : Form} {fault : Fault}
    (h : form.encode labels address opcode = .error fault) : form.Refused labels address fault := by
  cases form with
  | zeroPage index operand =>
    rcases Operand.within_bind_eq_error_iff.1 h with ⟨name, rfl, hn, rfl⟩ | ⟨value, hv, hr, rfl⟩
    · exact .unbound rfl hn
    · exact .zeroPage hv hr
  | absolute index operand =>
    rcases Operand.within_bind_eq_error_iff.1 h with ⟨name, rfl, hn, rfl⟩ | ⟨value, hv, hr, rfl⟩
    · exact .unbound rfl hn
    · exact .absolute hv hr
  | relative operand =>
    rcases Operand.within_bind_eq_error_iff.1 h with ⟨name, rfl, hn, rfl⟩ | ⟨target, hv, hr, rfl⟩
    · exact .unbound rfl hn
    · exact .relative hv (by omega)
  | _ => cases h

theorem Form.encode_of_refused {labels : Labels} {address : Nat} {form : Form} {fault : Fault}
    (h : form.Refused labels address fault) (opcode : UInt8) : form.encode labels address opcode = .error fault := by
  cases h with
  | @unbound _ name hop hn =>
    cases form with
    | zeroPage index operand =>
      cases hop
      exact Operand.within_bind_eq_error_iff.2 (.inl ⟨name, rfl, hn, rfl⟩)
    | absolute index operand =>
      cases hop
      exact Operand.within_bind_eq_error_iff.2 (.inl ⟨name, rfl, hn, rfl⟩)
    | relative operand =>
      cases hop
      exact Operand.within_bind_eq_error_iff.2 (.inl ⟨name, rfl, hn, rfl⟩)
    | _ => cases hop
  | zeroPage hv hr => exact Operand.within_bind_eq_error_iff.2 (.inr ⟨_, hv, hr, rfl⟩)
  | absolute hv hr => exact Operand.within_bind_eq_error_iff.2 (.inr ⟨_, hv, hr, rfl⟩)
  | relative hv hr => exact Operand.within_bind_eq_error_iff.2 (.inr ⟨_, hv, by omega, rfl⟩)

theorem Form.encode_eq_error_iff {labels : Labels} {address : Nat} {opcode : UInt8} {form : Form} {fault : Fault} :
    form.encode labels address opcode = .error fault ↔ form.Refused labels address fault :=
  ⟨refused_of_encode, fun h => encode_of_refused h opcode⟩

theorem Item.exists_encode_iff {labels : Labels} {address : Nat} {item : Item} :
    (∃ code, item.encode labels address = .ok code) ↔ item.Resolves labels address := by
  cases item with
  | label name => exact ⟨fun _ => trivial, fun _ => ⟨[], rfl⟩⟩
  | data value => exact ⟨fun _ => trivial, fun _ => ⟨[value], rfl⟩⟩
  | instruction mnemonic opcode form => exact Form.exists_encode_iff

theorem Item.encode_eq_error_iff {labels : Labels} {address : Nat} {item : Item} {fault : Fault} :
    item.encode labels address = .error fault ↔ item.Refused labels address fault := by
  cases item with
  | label name => exact ⟨fun h => (by cases h), fun h => h.elim⟩
  | data value => exact ⟨fun h => (by cases h), fun h => h.elim⟩
  | instruction mnemonic opcode form => exact Form.encode_eq_error_iff

/-! ## Scans -/

theorem allResolve_cons {labels : Labels} {address : Nat} {item : Item} {items : List Item} :
    AllResolve labels address (item :: items) ↔
      item.Resolves labels address ∧ AllResolve labels (address + item.size) items := by
  constructor
  · intro h
    refine ⟨h [] item items rfl, ?_⟩
    rintro before other after rfl
    have := h (item :: before) other after rfl
    rwa [totalSize_cons, ← Nat.add_assoc] at this
  · rintro ⟨hown, hrest⟩ before other after hsplit
    rcases List.cons_eq_append_iff.1 hsplit with ⟨rfl, hcons⟩ | ⟨before, rfl, rfl⟩
    · cases hcons
      exact hown
    · rw [totalSize_cons, ← Nat.add_assoc]
      exact hrest before other after rfl

theorem exists_encodeFrom_iff {labels : Labels} {address : Nat} {items : List Item} :
    (∃ code, encodeFrom labels address items = .ok code) ↔ AllResolve labels address items := by
  induction items generalizing address with
  | nil =>
    refine ⟨fun _ before item after h => ?_, fun _ => ⟨[], rfl⟩⟩
    cases before <;> cases h
  | cons item items ih =>
    rw [allResolve_cons, ← ih, ← Item.exists_encode_iff]
    constructor
    · rintro ⟨code, hc⟩
      obtain ⟨own, rest, hown, hrest, _⟩ := encodeFrom_cons_eq_ok_iff.1 hc
      exact ⟨⟨own, hown⟩, rest, hrest⟩
    · rintro ⟨⟨own, hown⟩, rest, hrest⟩
      exact ⟨own ++ rest, encodeFrom_cons_eq_ok_iff.2 ⟨own, rest, hown, hrest, rfl⟩⟩

/-- the scan stops at the first item that is refused -/
theorem encodeFrom_refused_iff {labels : Labels} {address : Nat} {items : List Item} {fault : Fault} :
    encodeFrom labels address items = .error fault ↔
      ∃ before item after, items = before ++ item :: after ∧ AllResolve labels address before ∧
        item.Refused labels (address + totalSize before) fault := by
  rw [encodeFrom_eq_error_iff]
  constructor
  · rintro ⟨before, item, after, code, hi, hbefore, hitem⟩
    exact ⟨before, item, after, hi, exists_encodeFrom_iff.1 ⟨code, hbefore⟩, Item.encode_eq_error_iff.1 hitem⟩
  · rintro ⟨before, item, after, hi, hr, hitem⟩
    obtain ⟨code, hbefore⟩ := exists_encodeFrom_iff.2 hr
    exact ⟨before, item, after, code, hi, hbefore, Item.encode_eq_error_iff.2 hitem⟩

/-! ## Accepted and rejected programs -/

/-- the cartridge lies in the address space, on a bank boundary -/
structure Cartridge.Placed (cartridge : Cartridge) : Prop where
  capacity : 4 ≤ cartridge.capacity ∧ cartridge.capacity ≤ 0x10000
  bankSize : 1 ≤ cartridge.bankSize ∧ cartridge.bankSize ≤ 0x10000
  aligned : (0x10000 - cartridge.capacity) % cartridge.bankSize = 0

/-- the addresses that pass one gives to the labels -/
def passOne (items : List Item) (cartridge : Cartridge) : Labels :=
  ⟨labelsFrom (0x10000 - cartridge.capacity) items⟩

/-- the items can be compiled for the cartridge -/
structure Accepted (items : List Item) (cartridge : Cartridge) : Prop where
  placed : cartridge.Placed
  fits : totalSize items ≤ cartridge.capacity - 4
  distinct : (labelNames items).Nodup
  resolves : AllResolve (passOne items cartridge) (0x10000 - cartridge.capacity) items

/-- the items cannot be compiled for the cartridge, and the fault says why -/
inductive Rejected (items : List Item) (cartridge : Cartridge) : Fault → Prop where
  | capacity (h : ¬ (4 ≤ cartridge.capacity ∧ cartridge.capacity ≤ 0x10000)) :
      Rejected items cartridge (.outOfRange "image capacity" cartridge.capacity 4 0x10000)
  | bankSize (hc : 4 ≤ cartridge.capacity ∧ cartridge.capacity ≤ 0x10000)
      (h : ¬ (1 ≤ cartridge.bankSize ∧ cartridge.bankSize ≤ 0x10000)) :
      Rejected items cartridge (.outOfRange "bank size" cartridge.bankSize 1 0x10000)
  | aligned (hc : 4 ≤ cartridge.capacity ∧ cartridge.capacity ≤ 0x10000)
      (hb : 1 ≤ cartridge.bankSize ∧ cartridge.bankSize ≤ 0x10000)
      (h : (0x10000 - cartridge.capacity) % cartridge.bankSize ≠ 0) :
      Rejected items cartridge
        (.notEqual "origin alignment" 0 ((0x10000 - cartridge.capacity) % cartridge.bankSize : Nat))
  | fits (hp : cartridge.Placed) (h : cartridge.capacity - 4 < totalSize items) :
      Rejected items cartridge (.programTooLarge (totalSize items) (cartridge.capacity - 4))
  /-- the first label item whose name an earlier one has -/
  | distinct (hp : cartridge.Placed) (hf : totalSize items ≤ cartridge.capacity - 4) (before : List Item)
      (name : String) (after : List Item) (hi : items = before ++ .label name :: after)
      (hd : (labelNames before).Nodup) (h : name ∈ labelNames before) :
      Rejected items cartridge (.duplicateLabel name)
  /-- the first operand that cannot be encoded -/
  | resolves (hp : cartridge.Placed) (hf : totalSize items ≤ cartridge.capacity - 4) (hd : (labelNames items).Nodup)
      (before : List Item) (item : Item) (after : List Item) (hi : items = before ++ item :: after)
      (hr : AllResolve (passOne items cartridge) (0x10000 - cartridge.capacity) before) (fault : Fault)
      (h : item.Refused (passOne items cartridge) (0x10000 - cartridge.capacity + totalSize before) fault) :
      Rejected items cartridge fault

theorem Cartridge.Placed.origin_eq {cartridge : Cartridge} (h : cartridge.Placed) :
    cartridge.origin = .ok (0x10000 - cartridge.capacity) :=
  origin_eq_ok_iff.2 ⟨h.capacity, h.bankSize, h.aligned, rfl⟩

theorem accepted_or_rejected (items : List Item) (cartridge : Cartridge) :
    Accepted items cartridge ∨ ∃ fault, Rejected items cartridge fault := by
  by_cases hc : 4 ≤ cartridge.capacity ∧ cartridge.capacity ≤ 0x10000
  · by_cases hb : 1 ≤ cartridge.bankSize ∧ cartridge.bankSize ≤ 0x10000
    · by_cases ha : (0x10000 - cartridge.capacity) % cartridge.bankSize = 0
      · have hp : cartridge.Placed := ⟨hc, hb, ha⟩
        by_cases hf : totalSize items ≤ cartridge.capacity - 4
        · rcases nodup_or_repeated items with hd | ⟨before, name, after, hi, hd, hm⟩
          · cases hcode : encodeFrom (passOne items cartridge) (0x10000 - cartridge.capacity) items with
            | ok code => exact .inl ⟨hp, hf, hd, exists_encodeFrom_iff.1 ⟨code, hcode⟩⟩
            | error fault =>
              obtain ⟨before, item, after, hi, hr, h⟩ := encodeFrom_refused_iff.1 hcode
              exact .inr ⟨fault, .resolves hp hf hd before item after hi hr fault h⟩
          · exact .inr ⟨_, .distinct hp hf before name after hi hd hm⟩
        · exact .inr ⟨_, .fits hp (by omega)⟩
      · exact .inr ⟨_, .aligned hc hb ha⟩
    · exact .inr ⟨_, .bankSize hc hb⟩
  · exact .inr ⟨_, .capacity hc⟩

theorem compile_of_accepted {items : List Item} {cartridge : Cartridge} (h : Accepted items cartridge)
    (trace : List Event) :
    ∃ assembly after, (Program.ofItems items).compile cartridge trace = .ok assembly after := by
  obtain ⟨code, hcode⟩ := exists_encodeFrom_iff.2 h.resolves
  obtain ⟨_, _, _, hrun⟩ :=
    compile_ofItems h.placed.origin_eq (Cartridge.ensureFits_eq_ok_iff.2 h.fits) h.distinct hcode trace
  exact ⟨_, _, hrun⟩

/-- what a compilation that stops with the fault has reported until then -/
inductive Reported (items : List Item) (cartridge : Cartridge) : Fault → List Event → Prop where
  /-- a check before pass one fails -/
  | unstarted {fault : Fault} (h : ∀ name, fault ≠ .duplicateLabel name) : Reported items cartridge fault []
  /-- pass one has bound the labels before the repeated one -/
  | repeated {before after : List Item} {name : String} (hi : items = before ++ .label name :: after)
      (hd : (labelNames before).Nodup) (hm : name ∈ labelNames before) :
      Reported items cartridge (.duplicateLabel name)
        (layoutReports (0x10000 - cartridge.capacity) (Program.ofItems items).tree.count (totalSize items)
          (labelsFrom (0x10000 - cartridge.capacity) before))
  /-- pass one has bound all labels, and pass two has come by those before the refused operand -/
  | refused {before after : List Item} {item : Item} {fault : Fault} (hi : items = before ++ item :: after)
      (hr : AllResolve (passOne items cartridge) (0x10000 - cartridge.capacity) before)
      (h : item.Refused (passOne items cartridge) (0x10000 - cartridge.capacity + totalSize before) fault) :
      Reported items cartridge fault
        (layoutReports (0x10000 - cartridge.capacity) (Program.ofItems items).tree.count (totalSize items)
            (labelsFrom (0x10000 - cartridge.capacity) items) ++
          resolutionReports (labelsFrom (0x10000 - cartridge.capacity) items).length
            (labelsFrom (0x10000 - cartridge.capacity) before))

/-- a failed check before pass one leaves the reports as they were -/
theorem reported_of_unstarted {items : List Item} {cartridge : Cartridge} {fault : Fault} {trace : List Event}
    (h : (Program.ofItems items).compile cartridge trace = .error fault trace)
    (hne : ∀ name, fault ≠ .duplicateLabel name) :
    ∃ reports, (Program.ofItems items).compile cartridge trace = .error fault (trace ++ reports) ∧
      Reported items cartridge fault reports :=
  ⟨[], by rw [h, List.append_nil], .unstarted hne⟩

/-- a rejected program stops with the fault of its rule -/
theorem compile_of_rejected {items : List Item} {cartridge : Cartridge} {fault : Fault}
    (hlen : totalSize items < Check.wordLimit) (h : Rejected items cartridge fault) (trace : List Event) :
    ∃ reports, (Program.ofItems items).compile cartridge trace = .error fault (trace ++ reports) ∧
      Reported items cartridge fault reports := by
  cases h with
  | capacity h =>
    exact reported_of_unstarted (compile_of_origin_error trace (by rw [Cartridge.origin_eq, if_neg h])) nofun
  | bankSize hc h =>
    exact reported_of_unstarted
      (compile_of_origin_error trace (by rw [Cartridge.origin_eq, if_pos hc, if_neg h])) nofun
  | aligned hc hb h =>
    exact reported_of_unstarted
      (compile_of_origin_error trace (by rw [Cartridge.origin_eq, if_pos hc, if_pos hb, if_neg h])) nofun
  | fits hp h =>
    have hfits : cartridge.ensureFits (totalSize items) =
        .error (.programTooLarge (totalSize items) (cartridge.capacity - 4)) := if_neg (Nat.not_le.2 h)
    have hlength : (Program.ofItems items).length = .ok (totalSize items) := by rw [length_ofItems, if_pos hlen]
    exact reported_of_unstarted (compile_of_fits_error trace hp.origin_eq hlength hfits) nofun
  | distinct hp hf before name after hi hd hm =>
    subst hi
    have hrun := compile_duplicate hp.origin_eq (Cartridge.ensureFits_eq_ok_iff.2 hf) hd hm trace
    exact ⟨_, hrun, .repeated rfl hd hm⟩
  | resolves hp hf hd before item after hi hr fault hitem =>
    subst hi
    obtain ⟨code, hbefore⟩ := exists_encodeFrom_iff.2 hr
    have hrun := compile_unencodable hp.origin_eq (Cartridge.ensureFits_eq_ok_iff.2 hf) hd hbefore
      (Item.encode_eq_error_iff.2 hitem) trace
    exact ⟨_, hrun, .refused rfl hr hitem⟩

theorem accepted_of_compile {items : List Item} {cartridge : Cartridge} (hlen : totalSize items < Check.wordLimit)
    {assembly : Assembly} {trace after : List Event}
    (hrun : (Program.ofItems items).compile cartridge trace = .ok assembly after) : Accepted items cartridge := by
  rcases accepted_or_rejected items cartridge with h | ⟨fault, h⟩
  · exact h
  · obtain ⟨_, hstop, _⟩ := compile_of_rejected hlen h trace
    rw [hrun] at hstop
    cases hstop

theorem rejected_of_compile {items : List Item} {cartridge : Cartridge} (hlen : totalSize items < Check.wordLimit)
    {fault : Fault} {trace after : List Event}
    (hstop : (Program.ofItems items).compile cartridge trace = .error fault after) :
    Rejected items cartridge fault := by
  rcases accepted_or_rejected items cartridge with h | ⟨cause, h⟩
  · obtain ⟨_, _, hrun⟩ := compile_of_accepted h trace
    rw [hstop] at hrun
    cases hrun
  · obtain ⟨_, hcause, _⟩ := compile_of_rejected hlen h trace
    rw [hstop] at hcause
    cases hcause
    exact h

/-- `passOne` is what pass one binds, once the checks before it hold and the names differ -/
theorem layout_eq_passOne {items : List Item} {cartridge : Cartridge} (hp : cartridge.Placed)
    (hf : totalSize items ≤ cartridge.capacity - 4) (hd : (labelNames items).Nodup) (trace : List Event) :
    ∃ after, (Program.ofItems items).layout (0x10000 - cartridge.capacity) trace =
      .ok (passOne items cartridge) after :=
  ⟨_, layout_ofItems (fits_wordLimit hp.origin_eq (Cartridge.ensureFits_eq_ok_iff.2 hf)) hd trace⟩

namespace Console

/-- **When a compilation succeeds, and how it fails**, for every program of fewer than 2 ^ 32 bytes that steps can
build and every cartridge. The labels of `Accepted` and `Rejected` are those that pass one binds. -/
theorem compile_ok_iff_accepted (steps : List Step) (cartridge : Cartridge) (trace : List Event)
    (hlen : totalSize (itemsOf steps) < 0x100000000) :
    (build steps).length = .ok (totalSize (itemsOf steps)) ∧
    (cartridge.Placed → totalSize (itemsOf steps) ≤ cartridge.capacity - 4 → (labelNames (itemsOf steps)).Nodup →
      ∃ after, (build steps).layout (0x10000 - cartridge.capacity) trace =
        .ok (passOne (itemsOf steps) cartridge) after) ∧
    ((∃ assembly after, (build steps).compile cartridge trace = .ok assembly after) ↔
      Accepted (itemsOf steps) cartridge) ∧
    ∀ fault, (∃ after, (build steps).compile cartridge trace = .error fault after) ↔
      Rejected (itemsOf steps) cartridge fault := by
  have hword : totalSize (itemsOf steps) < Check.wordLimit := hlen
  rw [build_eq]
  refine ⟨by rw [length_ofItems, if_pos hword], fun hp hf hd => layout_eq_passOne hp hf hd trace, ⟨?_, ?_⟩,
    fun fault => ⟨?_, ?_⟩⟩
  · rintro ⟨assembly, after, hrun⟩
    exact accepted_of_compile hword hrun
  · intro h
    exact compile_of_accepted h trace
  · rintro ⟨after, hstop⟩
    exact rejected_of_compile hword hstop
  · intro h
    obtain ⟨_, hrun, _⟩ := compile_of_rejected hword h trace
    exact ⟨_, hrun⟩

/-- a jump to nowhere, and behind it a name that is bound twice -/
def clash : List Step :=
  [.call (Call.jmpAbsolute (.label "nowhere")), .call (.label "again"), .call Call.nop, .call (.label "again")]

/-- the repeated name wins, since names are bound before operands are looked at -/
theorem compile_clash :
    totalSize (itemsOf clash) < 0x100000000 ∧
    (¬ ∃ assembly after, (build clash).compile ⟨16, 16⟩ [] = .ok assembly after) ∧
    ∃ after, (build clash).compile ⟨16, 16⟩ [] = .error (.duplicateLabel "again") after := by
  have hlen : totalSize (itemsOf clash) < 0x100000000 := by decide
  obtain ⟨_, _, hok, herror⟩ := compile_ok_iff_accepted clash ⟨16, 16⟩ [] hlen
  refine ⟨hlen, ?_, ?_⟩
  · rw [hok]
    intro h
    exact absurd h.distinct (by decide)
  · rw [herror]
    exact .distinct ⟨by decide, by decide, rfl⟩ (by decide)
      [.instruction "JMP" 0x4C (.absolute .none (.label "nowhere")), .label "again", .instruction "NOP" 0xEA .implied]
      "again" [] rfl (by decide) (by decide)

end Console

end Asm6502
