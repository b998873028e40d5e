/-
No operation of a compilation goes out of bounds.

Each strict stage is shown to be the stage itself, in front of any state and for any tree whose addresses stay below
the vectors; what one stage can return bounds what the next one does (`reported_bind`, `reportedBy_bind`). A compilation
reaches its passes only after it has checked the cartridge and the room, and these checks give the bound.

- `layoutForest_eq`, `resolveForest_eq`, `renderForest_eq`: the three walks, by induction over the forest.
- `origin_eq`, `pack_eq`: the cartridge, whatever its two numbers are.
- `Strict.compile_eq`: all stages in sequence.
- `compile_never_traps`: what follows for a program that steps have built, with the checks that can no longer fail.
-/
import Asm6502.Proofs.Acceptance
import Asm6502.Proofs.Strict

namespace Asm6502.Strict

/-! ## Reports -/

section Reports

variable {σ α β : Type}

@[simp] theorem strict_lift_ok (a : α) : (liftM (Except.ok a : Except Stop α) : EStateM Stop σ α) = pure a := rfl

theorem lift_reported (x : Except Fault α) :
    (liftM (reported x) : EStateM Stop σ α) = reportedBy (liftM x : EStateM Fault σ α) := by
  cases x <;> rfl

theorem lift_eq_ok {x : Except Fault α} {s after : σ} {a : α}
    (h : (liftM x : EStateM Fault σ α) s = .ok a after) : x = .ok a := by
  cases x with
  | ok b => cases h; rfl
  | error fault => cases h

/-- two sequences of checks agree if what follows agrees for every result that the first check can have -/
theorem reported_bind {x : Except Fault α} {f : α → Except Fault β} {g : α → Except Stop β}
    (h : ∀ a, x = .ok a → g a = reported (f a)) : (reported x >>= g) = reported (x >>= f) := by
  cases x with
  | ok a => exact h a rfl
  | error fault => rfl

/-- two passes agree if what follows agrees for every result that the first part can have -/
theorem reportedBy_bind {x : EStateM Fault σ α} {f : α → EStateM Fault σ β} {g : α → EStateM Stop σ β}
    (h : ∀ s a after, x s = .ok a after → g a = reportedBy (f a)) : (reportedBy x >>= g) = reportedBy (x >>= f) := by
  funext s
  rw [run_bind, reportedBy, reportedBy, run_bind]
  cases hx : x s with
  | ok a after =>
    simp only
    rw [h s a after hx, reportedBy]
  | error fault after => rfl

end Reports

/-! ## Operations in bounds -/

theorem add_eq_ok {most a b : Nat} (h : a + b ≤ most) : add most a b = .ok (a + b) := if_pos h

theorem subtract_eq_ok {a b : Nat} (h : b ≤ a) : subtract a b = .ok (a - b) := if_pos h

theorem difference_eq_ok {a b : Int} (h : -0x8000000000000000 ≤ a - b ∧ a - b ≤ 0x7FFFFFFFFFFFFFFF) :
    difference a b = .ok (a - b) := if_pos h

theorem difference_eq_trap {a b : Int} (h : ¬ (-0x8000000000000000 ≤ a - b ∧ a - b ≤ 0x7FFFFFFFFFFFFFFF)) :
    difference a b = .error (.trap .difference) := if_neg h

theorem remainder_eq_ok {a b : Nat} (h : b ≠ 0) : remainder a b = .ok (a % b) := if_neg h

theorem store_eq_ok {image : Array UInt8} {place : Nat} (h : place < image.size) (byte : UInt8) :
    store image place byte = .ok (image.setIfInBounds place byte) := if_pos h

/-! ## Lengths and addresses -/

theorem lt_wordLimit {address : Nat} (h : address ≤ top) : address < Check.wordLimit :=
  Nat.lt_of_le_of_lt h (by decide)

theorem add_reported {a b : Nat} (h : a + b ≤ top) : add top a b = reported (Check.add a b) := by
  rw [add_eq_ok h, Check.add_eq_ok (lt_wordLimit h)]
  rfl

theorem total_eq {forest : Forest} {sum : Nat} (h : sum + forest.span ≤ wordMost) :
    total forest sum = .ok (sum + forest.span) := by
  induction forest generalizing sum with
  | nil => rfl
  | cons id node children rest ihc ihr =>
    rw [Forest.span_cons] at h ⊢
    rw [total, ihc (by omega), ok_bind, Nat.zero_add, add_eq_ok (by omega), ok_bind, add_eq_ok (by omega), ok_bind,
      ihr (by omega)]
    simp only [Nat.add_assoc]

theorem lengthWith_reported {node : Node} {children : Forest} (h : node.length + children.span ≤ wordMost) :
    lengthWith node children = reported (node.lengthWith children) := by
  have hword : node.length + children.span < Check.wordLimit := Nat.lt_succ_of_le h
  rw [lengthWith, total_eq (by omega), ok_bind, Nat.zero_add, add_eq_ok h, Node.lengthWith_eq_ok hword]
  rfl

/-- the address behind a tree, as all three walks form it -/
theorem behind_eq_ok {node : Node} {children : Forest} {address : Nat}
    (h : address + (node.length + children.span) ≤ top) :
    node.lengthWith children = .ok (node.length + children.span) ∧
      lengthWith node children = .ok (node.length + children.span) ∧
      Check.add address (node.length + children.span) = .ok (address + (node.length + children.span)) ∧
      add top address (node.length + children.span) = .ok (address + (node.length + children.span)) := by
  have hword : node.length + children.span < Check.wordLimit := lt_wordLimit (by omega)
  have hlength := Node.lengthWith_eq_ok hword
  refine ⟨hlength, ?_, Check.add_eq_ok (lt_wordLimit h), add_eq_ok h⟩
  rw [lengthWith_reported (Nat.le_of_lt_succ hword), hlength]
  rfl

/-! ## Pass one -/

theorem layoutNode_eq {node : Node} {address : Nat} (h : address + node.length ≤ top) :
    layoutNode node address = reportedBy (node.layout address) := by
  rw [layoutNode, Node.layout, add_reported h, lift_reported]
  cases node.label with
  | none => rfl
  | some name => exact reportedBy_bind fun _ _ _ _ => rfl

theorem layoutNode_result {node : Node} {address inside : Nat} {found after : Bindings}
    (h : node.layout address found = .ok inside after) : inside = address + node.length := by
  rw [Node.layout] at h
  have hadd : ∀ {found : Bindings}, (liftM (Check.add address node.length) : EStateM Fault Bindings Nat) found =
      .ok inside after → inside = address + node.length := fun h =>
    ((Check.add_eq_ok_iff _ _ _).1 (lift_eq_ok h)).2.symm
  cases hlabel : node.label with
  | none =>
    rw [hlabel] at h
    exact hadd h
  | some name =>
    rw [hlabel] at h
    simp only [run_bind] at h
    cases hbind : bindLabel name address found with
    | ok _ bound =>
      rw [hbind] at h
      exact hadd h
    | error fault bound =>
      rw [hbind] at h
      cases h

/-- pass one forms no address beyond `top` -/
theorem layoutForest_eq {forest : Forest} {address : Nat} (h : address + forest.span ≤ top) :
    layoutForest forest address = reportedBy (forest.layout address) := by
  induction forest generalizing address with
  | nil => rfl
  | cons id node children rest ihc ihr =>
    rw [Forest.span_cons] at h
    rw [layoutForest, Forest.layout, layoutNode_eq (by omega)]
    apply reportedBy_bind
    intro found inside after hinside
    rw [layoutNode_result hinside, ihc (by omega)]
    apply reportedBy_bind
    intro _ _ _ _
    obtain ⟨hlength, hstrict, hnext, hsum⟩ := behind_eq_ok (show address + (node.length + children.span) ≤ top by omega)
    simp only [hlength, hstrict, hnext, hsum, lift_ok, strict_lift_ok, pure_bind]
    exact ihr (by omega)

/-! ## Pass two -/

/-- what a strict stage makes of a result: a difference that does not fit is a trap, every other fault is reported -/
def trapped {α : Type} : Except Fault α → Except Stop α
  | .ok a => .ok a
  | .error .differenceOverflow => .error (.trap .difference)
  | .error fault => .error (.fault fault)

/-- **Of the differences that a branch takes, only the first can leave 64 bits**, and it does so just if the distance
between the two ends does. -/
theorem branchOffset_eq_trapped (source target : Int) :
    branchOffset source target = trapped (Asm6502.branchOffset source target) := by
  rw [branchOffset, Asm6502.branchOffset]
  by_cases hfar : 0x7FFFFFFFFFFFFFFF < (target - source).natAbs
  · simp only [if_pos hfar]
    by_cases hle : target ≤ source
    · rw [if_pos hle, difference_eq_trap (by omega)]
      rfl
    · rw [if_neg hle, difference_eq_trap (by omega)]
      rfl
  · have hback := difference_eq_ok (a := source) (b := target)
    have hahead := difference_eq_ok (a := target) (b := source) (by omega)
    have hoffset := difference_eq_ok (a := target - source) (b := 2)
    simp only [if_neg hfar]
    by_cases hle : target ≤ source
    · simp only [if_pos hle, hback (by omega), ok_bind]
      by_cases hr : source - target ≤ 126
      · rw [if_pos hr, if_pos (by omega), hahead, ok_bind, hoffset (by omega)]
        rfl
      · rw [if_neg hr, if_neg (by omega)]
        rfl
    · simp only [if_neg hle, hahead, ok_bind]
      by_cases hr : target - source ≤ 129
      · rw [if_pos hr, if_pos (by omega), hoffset (by omega)]
        rfl
      · rw [if_neg hr, if_neg (by omega)]
        rfl

/-- between a 32-bit address and a 32-bit target no difference leaves 64 bits -/
theorem branchOffset_eq {source target : Int} (hs : -1 ≤ source ∧ source < Check.wordLimit)
    (ht : -0x80000000 ≤ target ∧ target < Check.wordLimit) :
    branchOffset source target = reported (Asm6502.branchOffset source target) := by
  simp only [Check.wordLimit] at hs ht
  have hnear : ¬ 0x7FFFFFFFFFFFFFFF < (target - source).natAbs := by omega
  rw [branchOffset_eq_trapped, Asm6502.branchOffset]
  simp only [if_neg hnear]
  split <;> rfl

theorem byte_eq {labels : Labels} (hb : labels.Bounded) {address : Nat} (h : address ≤ top) (kind : Kind) :
    byte labels address kind = reported (kind.byte labels address) := by
  cases kind with
  | branchOffset operand =>
    rw [byte, Kind.byte]
    apply reported_bind
    intro target ht
    have htarget := Operand.value_bounds hb ht
    simp only [top] at h
    have hword : (address : Int) - 1 < Check.wordLimit := by
      simp only [Check.wordLimit]
      omega
    rw [difference_eq_ok (by omega), ok_bind, branchOffset_eq ⟨by omega, hword⟩ htarget]
    exact reported_bind fun _ _ => rfl
  | _ => rfl

theorem resolveNode_eq {labels : Labels} (hb : labels.Bounded) {node : Node} {address : Nat}
    (h : address + node.length ≤ top) : resolveNode labels node address = reportedBy (node.resolve labels address) := by
  rw [resolveNode, Node.resolve, byte_eq hb (by omega), lift_reported, add_reported h, lift_reported]
  apply reportedBy_bind
  intro _ own _ _
  cases own with
  | some byte => exact reportedBy_bind (x := modify _) fun _ _ _ _ => rfl
  | none => cases node.label <;> rfl

theorem resolveNode_result {labels : Labels} {node : Node} {address inside : Nat} {stored after : Resolution}
    (h : node.resolve labels address stored = .ok inside after) : inside ≤ address + node.length := by
  rw [Node.resolve, run_bind] at h
  cases hbyte : node.kind.byte labels address with
  | error fault =>
    rw [hbyte] at h
    cases h
  | ok own =>
    rw [hbyte] at h
    cases own with
    | some byte =>
      have hadd := (Check.add_eq_ok_iff _ _ _).1 (lift_eq_ok h)
      exact Nat.le_of_eq hadd.2.symm
    | none =>
      cases hlabel : node.label <;> rw [hlabel] at h <;> cases h <;> exact Nat.le_add_right _ _

/-- pass two forms no address beyond `top` -/
theorem resolveForest_eq {labels : Labels} (hb : labels.Bounded) {forest : Forest} {address : Nat}
    (h : address + forest.span ≤ top) :
    resolveForest labels forest address = reportedBy (forest.resolve labels address) := by
  induction forest generalizing address with
  | nil => rfl
  | cons id node children rest ihc ihr =>
    rw [Forest.span_cons] at h
    rw [resolveForest, Forest.resolve, resolveNode_eq hb (by omega)]
    apply reportedBy_bind
    intro stored inside after hinside
    have hle := resolveNode_result hinside
    rw [ihc (by omega)]
    apply reportedBy_bind
    intro _ _ _ _
    obtain ⟨hlength, hstrict, hnext, hsum⟩ := behind_eq_ok (show address + (node.length + children.span) ≤ top by omega)
    simp only [hlength, hstrict, hnext, hsum, lift_ok, strict_lift_ok, pure_bind]
    exact ihr (by omega)

/-! ## Listing -/

theorem line_eq (bytes : Memory) {node : Node} {children : Forest} {address : Nat}
    (h : address + (node.length + children.span) ≤ top) :
    line bytes node children address = reported (node.listing bytes children address) := by
  obtain ⟨hlength, hstrict, hnext, hsum⟩ := behind_eq_ok h
  rw [line, Node.listing]
  cases node.kind with
  | instruction mnemonic mode opcode operand =>
    simp only [hlength, hstrict, hnext, hsum, ok_bind]
    rfl
  | _ => rfl

/-- the listing forms no address beyond `top` -/
theorem renderForest_eq (bytes : Memory) {forest : Forest} {address : Nat} (out : String)
    (h : address + forest.span ≤ top) :
    renderForest bytes forest address out = reported (forest.render bytes address out) := by
  induction forest generalizing address out with
  | nil => rfl
  | cons id node children rest ihc ihr =>
    rw [Forest.span_cons] at h
    have hbehind : address + (node.length + children.span) ≤ top := by omega
    rw [renderForest, Forest.render, line_eq bytes hbehind]
    apply reported_bind
    intro own _
    rw [add_reported (by omega)]
    apply reported_bind
    intro inside hinside
    obtain ⟨_, rfl⟩ := (Check.add_eq_ok_iff _ _ _).1 hinside
    rw [ihc _ (by omega)]
    apply reported_bind
    intro text _
    obtain ⟨hlength, hstrict, hnext, hsum⟩ := behind_eq_ok hbehind
    simp only [hlength, hstrict, hnext, hsum, ok_bind]
    exact ihr text (by omega)

/-! ## Cartridges -/

theorem origin_eq (cartridge : Cartridge) : origin cartridge = reported cartridge.origin := by
  rw [origin, Cartridge.origin]
  apply reported_bind
  intro _ hcapacity
  apply reported_bind
  intro _ hbank
  -- the two checks are what makes the difference and the remainder safe
  have hc := (Check.inRange_eq_ok_iff _ _ _ _).1 hcapacity
  have hb := (Check.inRange_eq_ok_iff _ _ _ _).1 hbank
  rw [subtract_eq_ok (by omega), ok_bind, remainder_eq_ok (by omega), ok_bind]
  exact reported_bind fun _ _ => rfl

theorem place_eq {cartridge : Cartridge} {origin : Nat} {image : Array UInt8} {entry : Nat × UInt8}
    (ho : origin ≤ 0x10000) (hc : cartridge.capacity ≤ 0x10000) (hs : image.size = cartridge.capacity)
    (h : entry.1 < Check.wordLimit) :
    place cartridge origin image entry = reported (cartridge.place origin image entry) := by
  simp only [Check.wordLimit] at h
  rw [place, Cartridge.place, difference_eq_ok (by omega), ok_bind, difference_eq_ok (by omega), ok_bind]
  apply reported_bind
  intro _ hinside
  have hrange := (Check.inRange_eq_ok_iff _ _ _ _).1 hinside
  have hoffset : ((entry.1 : Int) - origin).toNat = entry.1 - origin := by omega
  rw [hoffset, store_eq_ok (by omega)]
  rfl

theorem foldlM_place_eq {cartridge : Cartridge} {origin : Nat} {entries : List (Nat × UInt8)} {image : Array UInt8}
    (ho : origin ≤ 0x10000) (hc : cartridge.capacity ≤ 0x10000) (hs : image.size = cartridge.capacity)
    (h : ∀ entry ∈ entries, entry.1 < Check.wordLimit) :
    entries.foldlM (place cartridge origin) image =
      reported (entries.foldlM (cartridge.place origin) image) := by
  induction entries generalizing image with
  | nil => rfl
  | cons entry entries ih =>
    rw [List.foldlM_cons, List.foldlM_cons, place_eq ho hc hs (h entry List.mem_cons_self)]
    apply reported_bind
    intro next hnext
    obtain ⟨_, _, hnext⟩ := bind_eq_ok_iff.1 hnext
    cases hnext
    exact ih (by rw [Array.size_setIfInBounds]; exact hs) fun e he => h e (List.mem_cons_of_mem _ he)

theorem copy_pair {image : Array UInt8} {first last : Nat} (low high : UInt8) (hl : last = first + 2)
    (h : last ≤ image.size) :
    copy image first last [low, high] = .ok ((image.setIfInBounds first low).setIfInBounds (first + 1) high) := by
  have hsize : first + 1 < (image.setIfInBounds first low).size := by
    rw [Array.size_setIfInBounds]
    omega
  have hpair : [low, high].length = last - first := by
    simp only [List.length_cons, List.length_nil]
    omega
  rw [copy, if_pos ⟨by omega, h, hpair⟩, copy.go, store_eq_ok (by omega), ok_bind, copy.go, store_eq_ok hsize]
  rfl

theorem writeVectors_eq {cartridge : Cartridge} {origin : Nat} {image : Array UInt8}
    (hc : 4 ≤ cartridge.capacity ∧ cartridge.capacity ≤ 0x10000) (hs : image.size = cartridge.capacity) :
    writeVectors origin image = .ok (cartridge.writeVectors origin image) := by
  have htail : image.size - 4 + 2 ≤ wordMost := by
    simp only [wordMost]
    omega
  simp only [writeVectors, Cartridge.vectorBytes]
  rw [subtract_eq_ok (by omega), ok_bind, add_eq_ok htail, ok_bind, copy_pair _ _ rfl (by omega), ok_bind,
    copy_pair _ _ (by simp only [Array.size_setIfInBounds]; omega) (Nat.le_refl _), hs]
  rfl

/-- packing stays inside the image and inside the bounds of its differences, whatever 32-bit addresses are stored -/
theorem pack_eq (cartridge : Cartridge) (length : Nat) {bytes : Memory}
    (h : ∀ address ∈ bytes, address < Check.wordLimit) :
    pack cartridge length bytes = reported (cartridge.pack length bytes) := by
  rw [pack, Cartridge.pack, origin_eq]
  apply reported_bind
  intro origin ho
  obtain ⟨hc, _, _, horigin⟩ := Cartridge.origin_eq_ok_iff.1 ho
  apply reported_bind
  intro _ _
  rw [foldlM_place_eq (by omega) hc.2 (by simp) fun entry he => h entry.1 (Cartridge.mem_of_mem_toList he)]
  apply reported_bind
  intro image himage
  have hsize := Cartridge.size_of_foldlM_place himage
  rw [Array.size_replicate] at hsize
  rw [writeVectors_eq hc hsize]
  rfl

/-! ## Programs -/

section Programs

variable {program : Program} {origin : Nat}

theorem layout_eq
    (h : origin + ((program.tree.node program.tree.root).length + (program.tree.under program.tree.root).span) ≤ top) :
    layout program origin = reportedBy (program.layout origin) := by
  have hwalk : (do
      let inside ← layoutNode (program.tree.node program.tree.root) origin
      layoutForest (program.tree.under program.tree.root) inside) =
        reportedBy (program.tree.layout program.tree.root origin) := by
    rw [layoutNode_eq (by omega)]
    apply reportedBy_bind
    intro found inside after hinside
    rw [layoutNode_result hinside]
    exact layoutForest_eq (by omega)
  funext trace
  simp only [layout, hwalk, reportedBy, Program.layout]
  cases program.tree.layout program.tree.root origin ⟨.empty, trace⟩ <;> rfl

theorem resolve_eq {labels : Labels} (hb : labels.Bounded)
    (h : origin + ((program.tree.node program.tree.root).length + (program.tree.under program.tree.root).span) ≤ top) :
    resolve program labels origin = reportedBy (program.resolve labels origin) := by
  have hwalk : (do
      let inside ← resolveNode labels (program.tree.node program.tree.root) origin
      resolveForest labels (program.tree.under program.tree.root) inside) =
        reportedBy (program.tree.resolve labels program.tree.root origin) := by
    rw [resolveNode_eq hb (by omega)]
    apply reportedBy_bind
    intro stored inside after hinside
    have hle := resolveNode_result hinside
    exact resolveForest_eq hb (by omega)
  funext trace
  simp only [resolve, hwalk, reportedBy, Program.resolve]
  cases program.tree.resolve labels program.tree.root origin ⟨∅, trace⟩ <;> rfl

theorem render_eq (bytes : Memory)
    (h : origin + ((program.tree.node program.tree.root).length + (program.tree.under program.tree.root).span) ≤ top) :
    render program bytes origin = reported (program.render bytes origin) := by
  rw [render, Program.render, Tree.render]
  simp only [line_eq bytes h]
  apply reported_bind
  intro own _
  rw [add_reported (by omega)]
  apply reported_bind
  intro inside hinside
  obtain ⟨_, rfl⟩ := (Check.add_eq_ok_iff _ _ _).1 hinside
  exact renderForest_eq bytes _ (by omega)

end Programs

/-! ## Compilation -/

theorem length_eq {items : List Item} (h : totalSize items < Check.wordLimit) :
    length (Program.ofItems items) = reported (Program.ofItems items).length := by
  apply lengthWith_reported
  rw [node_root_ofItems, under_ofItems, span_forestFrom]
  exact Nat.le_of_lt_succ (show 0 + totalSize items < Check.wordLimit by omega)

/-- a strict compilation is a compilation -/
theorem compile_eq {items : List Item} (h : totalSize items < Check.wordLimit) (cartridge : Cartridge) :
    compile (Program.ofItems items) cartridge = reportedBy ((Program.ofItems items).compile cartridge) := by
  rw [compile, Program.compile, origin_eq, lift_reported]
  apply reportedBy_bind
  intro _ origin _ ho
  have ho := lift_eq_ok ho
  rw [length_eq h, lift_reported]
  apply reportedBy_bind
  intro _ length _ hl
  have hl := lift_eq_ok hl
  rw [length_ofItems, if_pos h] at hl
  cases hl
  rw [lift_reported]
  apply reportedBy_bind
  intro _ _ _ hf
  have hf := lift_eq_ok hf
  -- from here on every address lies between the origin and the vectors
  have htop : origin + ((Program.ofItems items).tree.node (Program.ofItems items).tree.root).length +
      ((Program.ofItems items).tree.under (Program.ofItems items).tree.root).span ≤ top := by
    rw [node_root_ofItems, under_ofItems, span_forestFrom]
    exact fits_below_vectors ho hf
  rw [Nat.add_assoc] at htop
  have hword := fits_wordLimit ho hf
  rw [subtract_eq_ok (Program.ofItems items).tree.nonempty, strict_lift_ok, pure_bind]
  apply reportedBy_bind
  intro _ _ _ _
  rw [layout_eq htop]
  apply reportedBy_bind
  intro _ labels _ hlayout
  obtain ⟨_, rfl⟩ := layout_inv hword hlayout
  have hbounded := bounded_labelsFrom hword
  apply reportedBy_bind
  intro _ _ _ _
  rw [resolve_eq hbounded htop]
  apply reportedBy_bind
  intro _ bytes _ hresolve
  obtain ⟨code, hcode, rfl⟩ := resolve_inv hbounded hword hresolve
  have hstored : ∀ address ∈ Memory.store ∅ origin code, address < Check.wordLimit := by
    intro address hm
    obtain ⟨⟨_, hcapacity⟩, _, _, horigin⟩ := Cartridge.origin_eq_ok_iff.1 ho
    have hinside := mem_store_code hf hcode hm
    simp only [Check.wordLimit]
    omega
  rw [pack_eq _ _ hstored, lift_reported]
  apply reportedBy_bind
  intro _ _ _ _
  rw [render_eq _ htop, lift_reported]
  apply reportedBy_bind
  intro _ _ _ _
  exact reportedBy_bind fun _ _ _ _ => rfl

theorem reportedBy_ne_trap {σ α : Type} (pass : EStateM Fault σ α) (s after : σ) (trap : Trap) :
    reportedBy pass s ≠ .error (.trap trap) after := by
  rw [reportedBy]
  cases pass s <;> simp

end Asm6502.Strict

namespace Asm6502

/-! ## Late checks -/

theorem Rejected.ne_overflow {items : List Item} {cartridge : Cartridge} {fault : Fault}
    (h : Rejected items cartridge fault) : fault ≠ .sumOverflow ∧ fault ≠ .differenceOverflow := by
  cases h with
  | resolves hp hf hd before item after hi hr fault hitem =>
    cases item with
    | label name => exact hitem.elim
    | data value => exact hitem.elim
    | instruction mnemonic opcode form => cases hitem <;> simp
  | _ => simp

theorem absoluteValue_of_bound {items : List Item} {origin : Nat} (h : origin + totalSize items ≤ 0xFFFC)
    {name : String} {address : Nat} (hn : (Labels.mk (labelsFrom origin items)).get? name = some address) :
    Kind.absoluteValue ⟨labelsFrom origin items⟩ (.label name) = .ok (address : Int) := by
  obtain ⟨before, after, hsplit, _⟩ := List.lookup_eq_some_iff.1 hn
  have hmem : (name, address) ∈ labelsFrom origin items := by
    rw [show labelsFrom origin items = before ++ (name, address) :: after from hsplit]
    simp
  have hbound := (mem_labelsFrom hmem).2
  rw [Kind.absoluteValue, checkedValue_eq, Operand.within_eq_ok_iff]
  refine ⟨by rw [Operand.value, hn], by omega, ?_⟩
  have : address ≤ 0xFFFC := Nat.le_trans hbound h
  omega

namespace Console

/-- **A compilation never traps**, for every program of fewer than 2 ^ 32 bytes that steps can build and every
cartridge: the strict machine, which stops at any overflow, any remainder by zero, any index outside the image and any
address beyond the vectors, does exactly what a compilation does. Once the origin and the room are checked, packing
never fails, and no label is too far for an absolute operand. -/
theorem compile_never_traps (steps : List Step) (cartridge : Cartridge) (trace : List Event)
    (hlen : totalSize (itemsOf steps) < 0x100000000) :
    Strict.compile (build steps) cartridge trace = Strict.reportedBy ((build steps).compile cartridge) trace ∧
    (∀ trap after, Strict.compile (build steps) cartridge trace ≠ .error (.trap trap) after) ∧
    (∀ fault after, (build steps).compile cartridge trace = .error fault after →
      fault ≠ .sumOverflow ∧ fault ≠ .differenceOverflow) ∧
    ∀ origin length, cartridge.origin = .ok origin → (build steps).length = .ok length →
      cartridge.ensureFits length = .ok () → origin + length ≤ 0xFFFC ∧
      ∀ labels before bound, (build steps).layout origin before = .ok labels bound →
        (∀ name address, labels.get? name = some address →
          Kind.absoluteValue labels (.label name) = .ok (address : Int)) ∧
        ∀ before bytes stored, (build steps).resolve labels origin before = .ok bytes stored →
          ∃ image, cartridge.pack length bytes = .ok image := by
  have hword : totalSize (itemsOf steps) < Check.wordLimit := hlen
  rw [build_eq]
  have hstrict := congrFun (Strict.compile_eq hword cartridge) trace
  refine ⟨hstrict, ?_, ?_, ?_⟩
  · intro trap after
    rw [hstrict]
    exact Strict.reportedBy_ne_trap _ _ _ _
  · intro fault after hstop
    exact (rejected_of_compile hword hstop).ne_overflow
  · intro origin length ho hl hf
    rw [length_ofItems, if_pos hword] at hl
    cases hl
    have htop := fits_below_vectors ho hf
    refine ⟨htop, ?_⟩
    intro labels before bound hlayout
    obtain ⟨_, rfl⟩ := layout_inv (fits_wordLimit ho hf) hlayout
    refine ⟨fun name address hn => absoluteValue_of_bound htop hn, ?_⟩
    intro _ bytes stored hresolve
    obtain ⟨code, hcode, rfl⟩ :=
      resolve_inv (bounded_labelsFrom (fits_wordLimit ho hf)) (fits_wordLimit ho hf) hresolve
    obtain ⟨image, hpack, _⟩ := Cartridge.pack_eq_ok ho hf fun address hm => mem_store_code hf hcode hm
    exact ⟨image, hpack⟩

/-- a jump to itself -/
def spin : List Step :=
  [.call (.label "here"), .call (Call.jmpAbsolute (.label "here"))]

theorem compile_spin :
    totalSize (itemsOf spin) < 0x100000000 ∧
    (∀ trap after, Strict.compile (build spin) ⟨8, 8⟩ [] ≠ .error (.trap trap) after) ∧
    ∃ labels bound bytes stored, (build spin).layout 0xFFF8 [] = .ok labels bound ∧
      (build spin).resolve labels 0xFFF8 bound = .ok bytes stored ∧
      Kind.absoluteValue labels (.label "here") = .ok 0xFFF8 ∧
      ∃ image, Cartridge.pack ⟨8, 8⟩ 3 bytes = .ok image := by
  have hlen : totalSize (itemsOf spin) < 0x100000000 := by decide
  obtain ⟨_, htrap, _, hlate⟩ := compile_never_traps spin ⟨8, 8⟩ [] hlen
  obtain ⟨_, hlate⟩ := hlate 0xFFF8 3 rfl (by rw [build_eq, length_ofItems]; rfl) rfl
  have hword : 0xFFF8 + totalSize (itemsOf spin) < Check.wordLimit := by decide
  have hlayout := layout_ofItems hword (by decide) []
  obtain ⟨hlabel, hpack⟩ := hlate _ [] _ (by rw [build_eq]; exact hlayout)
  have hcode : encodeFrom ⟨labelsFrom 0xFFF8 (itemsOf spin)⟩ 0xFFF8 (itemsOf spin) = .ok [0x4C, 0xF8, 0xFF] := rfl
  have hresolve := resolve_ofItems (bounded_labelsFrom hword) hword hcode
  exact ⟨hlen, htrap, _, _, _, _, by rw [build_eq]; exact hlayout, by rw [build_eq]; exact hresolve _,
    hlabel "here" 0xFFF8 rfl, hpack _ _ _ (by rw [build_eq]; exact hresolve [])⟩

end Console

end Asm6502
