/-
Pass two of a program that was built item by item.

The walk over the tree stores one byte for each node that has one. For a program of items these bytes are the encodings
of the items, one after the other and without a gap (`resolve_ofItems`); if an operand cannot be encoded, the pass stops
with the fault of the first such operand and has reported the labels before it (`resolve_ofItems_error`).

- `getElem?_store`, `mem_store`: what a memory holds after a run of bytes was stored.
- `encode_eq_partBytes`: the bytes of an item are the bytes of its nodes. The offset byte of a branch is computed at the
  address after the opcode, less one: the opcode's own address.
- `branchOffset_eq`: between 32-bit branch ends no distance overflows, and the two ends are reported as they are.
-/
import Asm6502.Proofs.Binding

namespace Asm6502

/-! ## Runs of bytes -/

namespace Memory

/-- the memory with the given bytes stored from `address` on -/
def store (bytes : Memory) : (address : Nat) → List UInt8 → Memory
  | _, [] => bytes
  | address, byte :: code => store (bytes.insert address byte) (address + 1) code

theorem store_append (bytes : Memory) (address : Nat) (code more : List UInt8) :
    bytes.store address (code ++ more) = (bytes.store address code).store (address + code.length) more := by
  induction code generalizing bytes address with
  | nil => rfl
  | cons byte code ih =>
    rw [List.cons_append, store, store, ih, List.length_cons]
    congr 1
    omega

theorem getElem?_store (bytes : Memory) (address : Nat) (code : List UInt8) (place : Nat) :
    (bytes.store address code)[place]? =
      if address ≤ place ∧ place < address + code.length then code[place - address]? else bytes[place]? := by
  induction code generalizing bytes address with
  | nil => rw [store, if_neg (by simp)]
  | cons byte code ih =>
    rw [store, ih, Std.TreeMap.getElem?_insert, List.length_cons]
    by_cases h : address = place
    · subst h
      rw [if_neg (by omega), if_pos Std.compare_self, if_pos (by omega), Nat.sub_self]
      rfl
    · have hcmp : ¬ compare address place = .eq := by simpa using h
      by_cases hlt : address + 1 ≤ place ∧ place < address + 1 + code.length
      · have hsub : place - address = (place - (address + 1)) + 1 := by omega
        rw [if_pos hlt, if_pos (by omega), hsub, List.getElem?_cons_succ]
      · rw [if_neg hlt, if_neg hcmp, if_neg (by omega)]

theorem getElem?_store_empty (address : Nat) (code : List UInt8) (k : Nat) :
    (store ∅ address code)[address + k]? = code[k]? := by
  rw [getElem?_store, Nat.add_sub_cancel_left]
  by_cases h : k < code.length
  · rw [if_pos (by omega)]
  · rw [if_neg (by omega), List.getElem?_eq_none (by omega)]
    exact Std.TreeMap.getElem?_emptyc

theorem mem_store (bytes : Memory) (address : Nat) (code : List UInt8) (place : Nat) :
    place ∈ bytes.store address code ↔ (address ≤ place ∧ place < address + code.length) ∨ place ∈ bytes := by
  rw [← Std.TreeMap.isSome_getElem?_iff_mem, ← Std.TreeMap.isSome_getElem?_iff_mem, getElem?_store]
  by_cases h : address ≤ place ∧ place < address + code.length
  · have hlt : place - address < code.length := by omega
    simp [h, hlt]
  · simp [h]

end Memory

/-! ## Operands -/

/-- every label is bound to a 32-bit address -/
def Labels.Bounded (labels : Labels) : Prop :=
  ∀ entry ∈ labels.entries, entry.2 < Check.wordLimit

theorem Labels.get?_lt {labels : Labels} (hb : labels.Bounded) {name : String} {address : Nat}
    (h : labels.get? name = some address) : address < Check.wordLimit := by
  obtain ⟨before, after, hsplit, _⟩ := List.lookup_eq_some_iff.1 h
  exact hb (name, address) (by rw [hsplit]; simp)

theorem Operand.value_bounds {labels : Labels} (hb : labels.Bounded) {operand : Operand} {value : Int}
    (h : operand.value labels = .ok value) : -0x80000000 ≤ value ∧ value < Check.wordLimit := by
  cases operand with
  | literal number =>
    cases h
    have h1 := Int32.le_toInt number
    have h2 := Int32.toInt_lt number
    simp only [Check.wordLimit]
    omega
  | label name =>
    rw [Operand.value] at h
    cases hg : labels.get? name with
    | none => rw [hg] at h; cases h
    | some address =>
      rw [hg] at h
      cases h
      have := Labels.get?_lt hb hg
      omega

theorem checkedValue_eq (what : String) (max : Int) (labels : Labels) (operand : Operand) :
    Kind.checkedValue what max labels operand =
      operand.within labels 0 max fun value => .outOfRange what value 0 max := by
  rw [Kind.checkedValue, Operand.within]
  cases operand.value labels with
  | error fault => rfl
  | ok value =>
    simp only [ok_bind, Check.inRange]
    split <;> rfl

theorem branchEnd_eq {address : Int} (h : address < Check.wordLimit) : branchEnd address = address.toNat := by
  have hlt : address.toNat < Check.wordLimit := by
    have := Check.wordLimit_pos
    omega
  exact Nat.mod_eq_of_lt hlt

theorem branchOffset_eq {address : Nat} {target : Int} (ha : address < Check.wordLimit) (hlow : -0x80000000 ≤ target)
    (ht : target < Check.wordLimit) :
    branchOffset address target =
      if (address : Int) - 126 ≤ target ∧ target ≤ address + 129 then .ok (UInt8.ofInt (target - (address + 2)))
      else .error (.branchOutOfRange address target.toNat) := by
  have hnear : ¬ 0x7FFFFFFFFFFFFFFF < (target - address).natAbs := by
    simp only [Check.wordLimit] at ha ht
    omega
  rw [branchOffset]
  simp only [hnear, if_false]
  rw [branchEnd_eq (by omega), branchEnd_eq ht, Int.toNat_natCast]
  by_cases h : (address : Int) - 126 ≤ target ∧ target ≤ address + 129
  · rw [if_pos h, if_pos (by omega), Int.sub_sub]
  · rw [if_neg h, if_neg (by omega)]

/-! ## Bytes of the nodes of an item -/

/-- the bytes of nodes of length one that stand one after the other -/
def partBytes (labels : Labels) : (address : Nat) → List Kind → Except Fault (List UInt8)
  | _, [] => .ok []
  | address, part :: parts => do
    let own ← part.byte labels address
    let rest ← partBytes labels (address + 1) parts
    pure (own.toList ++ rest)

theorem Form.encode_eq_partBytes {labels : Labels} (hb : labels.Bounded) {address : Nat}
    (ha : address < Check.wordLimit) (opcode : UInt8) (form : Form) :
    form.encode labels address opcode = (do
      let operandBytes ← partBytes labels (address + 1) form.parts
      pure (opcode :: operandBytes)) := by
  cases form with
  | implied => rfl
  | accumulator => rfl
  | immediate value => rfl
  | zeroPage index operand =>
    simp only [encode, parts, partBytes, Kind.byte, Kind.zeroPageValue, checkedValue_eq]
    cases operand.within labels _ _ _ <;> rfl
  | absolute index operand =>
    simp only [encode, parts, partBytes, Kind.byte, Kind.absoluteValue, checkedValue_eq]
    cases operand.within labels _ _ _ <;> rfl
  | relative operand =>
    -- the offset byte stands right after the opcode
    have hback : ((address + 1 : Nat) : Int) - 1 = address := by omega
    simp only [encode, parts, partBytes, Kind.byte, hback, Operand.within]
    cases hv : operand.value labels with
    | error fault => rfl
    | ok target =>
      obtain ⟨hlow, ht⟩ := Operand.value_bounds hb hv
      simp only [ok_bind, branchOffset_eq ha hlow ht]
      split <;> rfl

theorem Item.encode_eq_partBytes {labels : Labels} (hb : labels.Bounded) {address : Nat}
    (ha : address < Check.wordLimit) (item : Item) :
    item.encode labels address = (do
      let own ← item.kind.byte labels address
      let rest ← partBytes labels (address + item.ownLength) item.parts
      pure (own.toList ++ rest)) := by
  cases item with
  | label name => rfl
  | data value => rfl
  | instruction mnemonic opcode form => exact Form.encode_eq_partBytes hb ha opcode form

/-! ## One scan -/

/-- the node has a byte, or fails to have one -/
def Kind.Emits (kind : Kind) : Prop :=
  kind ≠ .root ∧ kind ≠ .label

theorem Kind.Emits.byte_ne_none {kind : Kind} (h : kind.Emits) (labels : Labels) (address : Nat) :
    kind.byte labels address ≠ .ok none := by
  obtain ⟨hroot, hlabel⟩ := h
  cases kind with
  | root => exact absurd rfl hroot
  | label => exact absurd rfl hlabel
  | instruction mnemonic mode opcode operand => simp [byte]
  | immediate value => simp [byte]
  | data value => simp [byte]
  | zeroPage operand =>
    rw [byte]
    cases zeroPageValue labels operand <;> simp [pure, Except.pure]
  | absoluteLow operand =>
    rw [byte]
    cases absoluteValue labels operand <;> simp [pure, Except.pure]
  | absoluteHigh operand =>
    rw [byte]
    cases absoluteValue labels operand <;> simp [pure, Except.pure]
  | branchOffset operand =>
    rw [byte]
    cases operand.value labels with
    | error fault => simp
    | ok target =>
      rw [ok_bind]
      cases Asm6502.branchOffset ((address : Int) - 1) target <;> simp [pure, Except.pure]

theorem Form.emits_of_mem_parts {form : Form} {part : Kind} (h : part ∈ form.parts) : part.Emits := by
  cases form <;> simp [parts] at h <;> rcases h with rfl | rfl <;> simp [Kind.Emits]

section Walk

variable {labels : Labels} {address : Nat} {stored : Resolution}

theorem Node.resolve_byte {node : Node} {byte : UInt8} (hk : node.kind.byte labels address = .ok (some byte))
    (h : address + node.length < Check.wordLimit) :
    node.resolve labels address stored =
      .ok (address + node.length) { stored with bytes := stored.bytes.insert address byte } := by
  simp only [resolve, hk, lift_ok, pure_bind, Check.add_eq_ok h]
  rfl

theorem Node.resolve_fault {node : Node} {fault : Fault} (hk : node.kind.byte labels address = .error fault) :
    node.resolve labels address stored = .error fault stored := by
  simp only [resolve, hk, lift_error, throw_bind]
  rfl

theorem Kind.Emits.byte_cases {kind : Kind} (h : kind.Emits) (labels : Labels) (address : Nat) :
    (∃ byte, kind.byte labels address = .ok (some byte)) ∨ ∃ fault, kind.byte labels address = .error fault := by
  cases hk : kind.byte labels address with
  | error fault => exact Or.inr ⟨fault, rfl⟩
  | ok own =>
    cases own with
    | none => exact absurd hk (h.byte_ne_none labels address)
    | some byte => exact Or.inl ⟨byte, rfl⟩

theorem resolve_leavesFrom {parent position : Nat} {parts : List Kind} {code : List UInt8}
    (hp : ∀ part ∈ parts, part.Emits) (h : address + parts.length < Check.wordLimit)
    (hc : partBytes labels address parts = .ok code) :
    (leavesFrom parent position parts).resolve labels address stored =
      .ok () { stored with bytes := stored.bytes.store address code } := by
  induction parts generalizing position address stored code with
  | nil => cases hc; rfl
  | cons part parts ih =>
    rw [List.length_cons] at h
    obtain ⟨own, hown, hc⟩ := bind_eq_ok_iff.1 hc
    obtain ⟨rest, hrest, hc⟩ := bind_eq_ok_iff.1 hc
    cases hc
    cases own with
    | none => exact absurd hown ((hp part List.mem_cons_self).byte_ne_none labels address)
    | some byte =>
      have hnext : address + 1 < Check.wordLimit := by omega
      have hnode : (partNode parent part).resolve labels address stored =
          .ok (address + 1) { stored with bytes := stored.bytes.insert address byte } := Node.resolve_byte hown hnext
      rw [leavesFrom, Forest.resolve, run_bind, hnode]
      simp only [Forest.resolve, pure_bind, lengthWith_partNode, lift_ok, Check.add_eq_ok hnext]
      exact ih (fun p hm => hp p (List.mem_cons_of_mem _ hm)) (by omega) hrest

theorem resolve_leavesFrom_error {parent position : Nat} {parts : List Kind} {fault : Fault}
    (hp : ∀ part ∈ parts, part.Emits) (h : address + parts.length < Check.wordLimit)
    (hc : partBytes labels address parts = .error fault) :
    ∃ bytes, (leavesFrom parent position parts).resolve labels address stored =
      .error fault ⟨bytes, stored.trace⟩ := by
  induction parts generalizing position address stored with
  | nil => cases hc
  | cons part parts ih =>
    rw [List.length_cons] at h
    rw [leavesFrom, Forest.resolve, run_bind]
    rcases (hp part List.mem_cons_self).byte_cases labels address with ⟨byte, hown⟩ | ⟨own, hown⟩
    · have hnext : address + 1 < Check.wordLimit := by omega
      have hnode : (partNode parent part).resolve labels address stored =
          .ok (address + 1) { stored with bytes := stored.bytes.insert address byte } := Node.resolve_byte hown hnext
      rw [hnode]
      simp only [Forest.resolve, pure_bind, lengthWith_partNode, lift_ok, Check.add_eq_ok hnext]
      apply ih (fun p hm => hp p (List.mem_cons_of_mem _ hm)) (by omega)
      rw [partBytes, hown, ok_bind] at hc
      rcases bind_eq_error_iff.1 hc with hrest | ⟨rest, _, hc⟩
      · exact hrest
      · cases hc
    · have hnode : (partNode parent part).resolve labels address stored = .error own stored := Node.resolve_fault hown
      rw [hnode]
      rw [partBytes, hown, error_bind] at hc
      cases hc
      exact ⟨stored.bytes, rfl⟩

def Item.resolve (labels : Labels) (item : Item) (position address : Nat) : EStateM Fault Resolution Unit := do
  let inside ← (item.node position).resolve labels address
  (leavesFrom position (position + 1) item.parts).resolve labels inside

theorem resolve_forestFrom_cons (position : Nat) (item : Item) (items : List Item)
    (h : address + item.size < Check.wordLimit) :
    (forestFrom position (item :: items)).resolve labels address = (do
      item.resolve labels position address
      (forestFrom (position + item.width) items).resolve labels (address + item.size)) := by
  simp only [forestFrom, Forest.resolve, Item.resolve, bind_assoc, item.lengthWith_node (show item.size < _ by omega),
    lift_ok, pure_bind, Check.add_eq_ok h]

def reachedEvents (entries : List (String × Nat)) : List Event :=
  entries.map fun entry => .reached entry.1 entry.2

theorem Item.emits_of_mem_parts {item : Item} {part : Kind} (h : part ∈ item.parts) : part.Emits := by
  cases item with
  | label name => cases h
  | data value => cases h
  | instruction mnemonic opcode form => exact Form.emits_of_mem_parts h

/-- an item is a label, or its own node has a byte -/
theorem Item.label_or_emits (item : Item) :
    (∃ name, item = .label name) ∨ (item.kind.Emits ∧ item.ownLength = 1 ∧ item.name? = none) := by
  cases item with
  | label name => exact Or.inl ⟨name, rfl⟩
  | data value => exact Or.inr ⟨by simp [kind, Kind.Emits], rfl, rfl⟩
  | instruction mnemonic opcode form => exact Or.inr ⟨by simp [kind, Kind.Emits], rfl, rfl⟩

theorem Item.resolve_eq (hb : labels.Bounded) {item : Item} {position : Nat}
    (h : address + item.size < Check.wordLimit) {code : List UInt8} (hc : item.encode labels address = .ok code) :
    item.resolve labels position address stored =
      .ok () ⟨stored.bytes.store address code, stored.trace ++ reachedEvents (labelsFrom address [item])⟩ := by
  have hsize := item.size_eq
  rcases item.label_or_emits with ⟨name, rfl⟩ | ⟨hemits, hlen, hname⟩
  · cases hc
    rfl
  · rw [item.encode_eq_partBytes hb (by omega)] at hc
    obtain ⟨own, hown, hc⟩ := bind_eq_ok_iff.1 hc
    obtain ⟨rest, hrest, hc⟩ := bind_eq_ok_iff.1 hc
    cases hc
    cases own with
    | none => exact absurd hown (hemits.byte_ne_none labels address)
    | some byte =>
      have hnode : (item.node position).resolve labels address stored =
          .ok (address + item.ownLength) { stored with bytes := stored.bytes.insert address byte } :=
        Node.resolve_byte hown (show address + item.ownLength < _ by omega)
      rw [Item.resolve, run_bind, hnode]
      simp only
      rw [resolve_leavesFrom (fun part hm => emits_of_mem_parts hm) (by omega) hrest, hlen]
      simp [labelsFrom, hname, reachedEvents, Memory.store]

/-- nothing is reported: only labels are, and a label has no operand -/
theorem Item.resolve_error (hb : labels.Bounded) {item : Item} (position : Nat) (stored : Resolution)
    (h : address + item.size < Check.wordLimit) {fault : Fault} (hc : item.encode labels address = .error fault) :
    ∃ bytes, item.resolve labels position address stored = .error fault ⟨bytes, stored.trace⟩ := by
  have hsize := item.size_eq
  rcases item.label_or_emits with ⟨name, rfl⟩ | ⟨hemits, hlen, _⟩
  · cases hc
  · rw [item.encode_eq_partBytes hb (by omega)] at hc
    rw [Item.resolve, run_bind]
    rcases hemits.byte_cases labels address with ⟨byte, hown⟩ | ⟨cause, hown⟩
    · have hnode : (item.node position).resolve labels address stored =
          .ok (address + item.ownLength) { stored with bytes := stored.bytes.insert address byte } :=
        Node.resolve_byte hown (show address + item.ownLength < _ by omega)
      rw [hnode]
      apply resolve_leavesFrom_error (fun part hm => emits_of_mem_parts hm) (by omega)
      rw [hown, ok_bind] at hc
      rcases bind_eq_error_iff.1 hc with hrest | ⟨rest, _, hc⟩
      · exact hrest
      · cases hc
    · have hnode : (item.node position).resolve labels address stored = .error cause stored := Node.resolve_fault hown
      rw [hown, error_bind] at hc
      cases hc
      rw [hnode]
      exact ⟨stored.bytes, rfl⟩

/-- **Pass two is one scan** that stores the encoding of each item behind the one before. -/
theorem resolve_forestFrom (hb : labels.Bounded) {position : Nat} {items : List Item} {code : List UInt8}
    (h : address + totalSize items < Check.wordLimit) (hc : encodeFrom labels address items = .ok code) :
    (forestFrom position items).resolve labels address stored =
      .ok () ⟨stored.bytes.store address code, stored.trace ++ reachedEvents (labelsFrom address items)⟩ := by
  induction items generalizing position address stored code with
  | nil =>
    cases hc
    simp [forestFrom, Forest.resolve, labelsFrom, reachedEvents, Memory.store, pure, EStateM.pure]
  | cons item items ih =>
    rw [totalSize_cons] at h
    obtain ⟨own, rest, hown, hrest, rfl⟩ := encodeFrom_cons_eq_ok_iff.1 hc
    rw [resolve_forestFrom_cons position item items (by omega), run_bind, Item.resolve_eq hb (by omega) hown]
    simp only
    rw [ih (by omega) hrest, Memory.store_append, Item.encode_length hown]
    simp [labelsFrom, reachedEvents]

/-- **Pass two stops at the first item without an encoding**, and has come by the labels before it. -/
theorem resolve_forestFrom_error (hb : labels.Bounded) {before after : List Item} {item : Item} {code : List UInt8}
    {fault : Fault} (position : Nat) (stored : Resolution)
    (h : address + totalSize (before ++ item :: after) < Check.wordLimit)
    (hbefore : encodeFrom labels address before = .ok code)
    (hitem : item.encode labels (address + totalSize before) = .error fault) :
    ∃ bytes, (forestFrom position (before ++ item :: after)).resolve labels address stored =
      .error fault ⟨bytes, stored.trace ++ reachedEvents (labelsFrom address before)⟩ := by
  induction before generalizing position address stored code with
  | nil =>
    rw [List.nil_append, totalSize_cons] at h
    rw [totalSize_nil, Nat.add_zero] at hitem
    obtain ⟨bytes, hrun⟩ := Item.resolve_error hb position stored (by omega) hitem
    refine ⟨bytes, ?_⟩
    rw [List.nil_append, resolve_forestFrom_cons position item after (by omega), run_bind, hrun]
    simp [labelsFrom, reachedEvents]
  | cons first before ih =>
    rw [List.cons_append, totalSize_cons] at h
    obtain ⟨own, rest, hown, hrest, _⟩ := encodeFrom_cons_eq_ok_iff.1 hbefore
    rw [totalSize_cons, ← Nat.add_assoc] at hitem
    rw [List.cons_append, resolve_forestFrom_cons position first _ (by omega), run_bind,
      Item.resolve_eq hb (by omega) hown]
    obtain ⟨bytes, hrun⟩ := ih (position + first.width)
      ⟨stored.bytes.store address own, stored.trace ++ reachedEvents (labelsFrom address [first])⟩ (by omega) hrest
      hitem
    refine ⟨bytes, hrun.trans ?_⟩
    simp [labelsFrom, reachedEvents]

end Walk

/-! ## Pass two of a program -/

section Program

variable {labels : Labels} {items : List Item} {origin : Nat}

theorem resolve_root_ofItems (labels : Labels) (items : List Item) (origin : Nat) :
    (Program.ofItems items).tree.resolve labels (Program.ofItems items).tree.root origin =
      (forestFrom 1 items).resolve labels origin := by
  have hroot : (Program.rootNode items).resolve labels origin = pure origin := rfl
  rw [Tree.resolve, node_root_ofItems, under_ofItems, hroot, pure_bind]

theorem resolve_ofItems (hb : labels.Bounded) (h : origin + totalSize items < Check.wordLimit) {code : List UInt8}
    (hc : encodeFrom labels origin items = .ok code) (trace : List Event) :
    (Program.ofItems items).resolve labels origin trace =
      .ok (Memory.store ∅ origin code) (trace ++ reachedEvents (labelsFrom origin items)) := by
  rw [Program.resolve, resolve_root_ofItems, resolve_forestFrom hb h hc]

theorem resolve_ofItems_error (hb : labels.Bounded) {before after : List Item} {item : Item} {code : List UInt8}
    {fault : Fault} (h : origin + totalSize (before ++ item :: after) < Check.wordLimit)
    (hbefore : encodeFrom labels origin before = .ok code)
    (hitem : item.encode labels (origin + totalSize before) = .error fault) (trace : List Event) :
    (Program.ofItems (before ++ item :: after)).resolve labels origin trace =
      .error fault (trace ++ reachedEvents (labelsFrom origin before)) := by
  obtain ⟨bytes, hrun⟩ := resolve_forestFrom_error hb 1 ⟨∅, trace⟩ h hbefore hitem
  rw [Program.resolve, resolve_root_ofItems, hrun]

end Program

end Asm6502
