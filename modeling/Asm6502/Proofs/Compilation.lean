/-
Compilation of a program that was built item by item.

Each stage of a compilation has its own theorem elsewhere; here they are put in sequence. Once the cartridge has an
origin and the items fit below its vectors, only two things can still go wrong: a repeated label name in pass one, and
an operand without an encoding in pass two. Packing and listing always succeed after that.

- `compile_ofItems`: distinct names and an encoding for every item give an assembly.
- `compile_duplicate`, `compile_unencodable`: the two ways to fail. All three say what has been reported until then: the
  labels that pass one has bound (`layoutReports`) and those that pass two has come by (`resolutionReports`).
- `compile_inv`: what a successful compilation says about the items, the cartridge and the assembly.
-/
import Asm6502.Assembly
import Asm6502.Proofs.Image
import Asm6502.Proofs.Storing

namespace Asm6502

/-! ## Listing -/

theorem Node.listing_ok {node : Node} {children : Forest} {address : Nat} (bytes : Memory)
    (h : address + (node.length + children.span) < Check.wordLimit) :
    ∃ text, node.listing bytes children address = .ok text := by
  rw [listing]
  cases node.kind with
  | instruction mnemonic mode opcode operand =>
    simp only
    rw [lengthWith_eq_ok (by omega), ok_bind, Check.add_eq_ok h, ok_bind]
    exact ⟨_, rfl⟩
  | _ => exact ⟨_, rfl⟩

theorem Forest.render_ok {forest : Forest} {address : Nat} (bytes : Memory) (out : String)
    (h : address + forest.span < Check.wordLimit) : ∃ text, forest.render bytes address out = .ok text := by
  induction forest generalizing address out with
  | nil => exact ⟨out, rfl⟩
  | cons id node children rest ihc ihr =>
    rw [span_cons] at h
    have hlist : address + (node.length + children.span) < Check.wordLimit := by omega
    have hinside : address + node.length + children.span < Check.wordLimit := by omega
    obtain ⟨own, hown⟩ := Node.listing_ok bytes hlist
    obtain ⟨inner, hinner⟩ := ihc (out ++ own) hinside
    rw [render, hown, ok_bind, Check.add_eq_ok (by omega), ok_bind, hinner, ok_bind,
      Node.lengthWith_eq_ok (by omega), ok_bind, Check.add_eq_ok (by omega), ok_bind]
    exact ihr inner (by omega)

theorem render_ofItems {items : List Item} {origin : Nat} (bytes : Memory)
    (h : origin + totalSize items < Check.wordLimit) :
    ∃ text, (Program.ofItems items).render bytes origin = .ok text := by
  have hnext : origin + (Program.rootNode items).length < Check.wordLimit := show origin + 0 < _ by omega
  rw [Program.render, Tree.render]
  simp only [node_root_ofItems, under_ofItems]
  rw [Check.add_eq_ok hnext]
  exact Forest.render_ok bytes _ (by rw [span_forestFrom]; exact h)

/-! ## Reports -/

def boundEvents (entries : List (String × Nat)) : List Event :=
  entries.map fun entry => .bound entry.1 entry.2

/-- pass one: its start, and the labels that it has bound -/
def layoutReports (origin nodes length : Nat) (entries : List (String × Nat)) : List Event :=
  .layoutStarted origin nodes length :: boundEvents entries

/-- pass two: its start, and the labels that it has come by -/
def resolutionReports (count : Nat) (entries : List (String × Nat)) : List Event :=
  .resolutionStarted count :: reachedEvents entries

/-! ## All stages -/

section Checks

variable {program : Program} {cartridge : Cartridge} {fault : Fault} (trace : List Event)

theorem compile_of_origin_error (h : cartridge.origin = .error fault) :
    program.compile cartridge trace = .error fault trace := by
  simp only [Program.compile, h, lift_error, throw_bind]
  rfl

theorem compile_of_length_error {origin : Nat} (ho : cartridge.origin = .ok origin)
    (h : program.length = .error fault) : program.compile cartridge trace = .error fault trace := by
  simp only [Program.compile, ho, h, lift_ok, pure_bind, lift_error, throw_bind]
  rfl

theorem compile_of_fits_error {origin length : Nat} (ho : cartridge.origin = .ok origin)
    (hl : program.length = .ok length) (h : cartridge.ensureFits length = .error fault) :
    program.compile cartridge trace = .error fault trace := by
  simp only [Program.compile, ho, hl, h, lift_ok, pure_bind, lift_error, throw_bind]
  rfl

end Checks

/-- after the first checks: both passes, then image and listing -/
theorem compile_stages {program : Program} {cartridge : Cartridge} {origin length : Nat}
    (ho : cartridge.origin = .ok origin) (hl : program.length = .ok length)
    (hf : cartridge.ensureFits length = .ok ()) (trace : List Event) :
    program.compile cartridge trace =
      match program.layout origin (trace ++ [.layoutStarted origin program.tree.count length]) with
      | .error fault after => .error fault after
      | .ok labels bound =>
        match program.resolve labels origin (bound ++ [.resolutionStarted labels.size]) with
        | .error fault after => .error fault after
        | .ok bytes stored =>
          match cartridge.pack length bytes, program.render bytes origin with
          | .error fault, _ => .error fault stored
          | .ok _, .error fault => .error fault stored
          | .ok image, .ok listing =>
            .ok { origin, labels, bytes, image, listing } (stored ++ [.compiled bytes.size]) := by
  have hreport : ∀ (event : Event) (trace : List Event), report event trace = .ok () (trace ++ [event]) :=
    fun _ _ => rfl
  simp only [Program.compile, ho, hl, hf, lift_ok, pure_bind]
  simp only [run_bind, hreport]
  cases program.layout origin (trace ++ [.layoutStarted origin program.tree.count length]) with
  | error fault after => rfl
  | ok labels bound =>
    simp only
    cases program.resolve labels origin (bound ++ [.resolutionStarted labels.size]) with
    | error fault after => rfl
    | ok bytes stored =>
      simp only
      cases cartridge.pack length bytes with
      | error fault => rfl
      | ok image => cases program.render bytes origin <;> rfl

theorem bounded_labelsFrom {items : List Item} {origin : Nat} (h : origin + totalSize items < Check.wordLimit) :
    (Labels.mk (labelsFrom origin items)).Bounded := by
  intro entry he
  have := mem_labelsFrom he
  omega

theorem Memory.size_store {bytes : Memory} {address : Nat} {code : List UInt8}
    (h : ∀ place ∈ bytes, place < address) : (bytes.store address code).size = bytes.size + code.length := by
  induction code generalizing bytes address with
  | nil => rfl
  | cons byte code ih =>
    have hnew : bytes.contains address = false := by
      rw [Bool.eq_false_iff]
      intro hc
      exact absurd (h address (Std.TreeMap.mem_iff_contains.2 hc)) (Nat.lt_irrefl _)
    have hbelow : ∀ place ∈ bytes.insert address byte, place < address + 1 := by
      intro place hp
      rcases Std.TreeMap.mem_insert.1 hp with heq | hp
      · have := Nat.compare_eq_eq.1 heq
        omega
      · have := h place hp
        omega
    rw [store, ih hbelow, Std.TreeMap.size_insert, hnew, List.length_cons]
    simp only [Bool.false_eq_true, if_false]
    omega

theorem size_store_code {labels : Labels} {items : List Item} {origin : Nat} {code : List UInt8}
    (h : encodeFrom labels origin items = .ok code) : (Memory.store ∅ origin code).size = totalSize items := by
  rw [Memory.size_store (by simp), encodeFrom_length h]
  simp

section Stages

variable {items : List Item} {cartridge : Cartridge} {origin : Nat}

/-- the addresses of a program that fits its cartridge stay below the vectors -/
theorem fits_below_vectors (ho : cartridge.origin = .ok origin)
    (hf : cartridge.ensureFits (totalSize items) = .ok ()) : origin + totalSize items ≤ 0xFFFC := by
  obtain ⟨hc, _, _, rfl⟩ := Cartridge.origin_eq_ok_iff.1 ho
  have := Cartridge.ensureFits_eq_ok_iff.1 hf
  omega

theorem fits_wordLimit (ho : cartridge.origin = .ok origin)
    (hf : cartridge.ensureFits (totalSize items) = .ok ()) : origin + totalSize items < Check.wordLimit := by
  have := fits_below_vectors ho hf
  simp only [Check.wordLimit]
  omega

theorem length_of_fits (ho : cartridge.origin = .ok origin) (hf : cartridge.ensureFits (totalSize items) = .ok ()) :
    (Program.ofItems items).length = .ok (totalSize items) := by
  have := fits_wordLimit ho hf
  rw [length_ofItems, if_pos (by omega)]

/-- the code of a program that fits its cartridge is stored inside the cartridge -/
theorem mem_store_code (hf : cartridge.ensureFits (totalSize items) = .ok ()) {labels : Labels} {code : List UInt8}
    (hc : encodeFrom labels origin items = .ok code) {address : Nat} (hm : address ∈ Memory.store ∅ origin code) :
    origin ≤ address ∧ address < origin + cartridge.capacity := by
  have hlen := encodeFrom_length hc
  have hroom := Cartridge.ensureFits_eq_ok_iff.1 hf
  rcases (Memory.mem_store _ _ _ _).1 hm with hin | hin
  · omega
  · simp at hin

theorem compile_ofItems (ho : cartridge.origin = .ok origin) (hf : cartridge.ensureFits (totalSize items) = .ok ())
    (hd : (labelNames items).Nodup) {code : List UInt8}
    (hc : encodeFrom ⟨labelsFrom origin items⟩ origin items = .ok code) (trace : List Event) :
    ∃ image listing, cartridge.pack (totalSize items) (Memory.store ∅ origin code) = .ok image ∧
      (Program.ofItems items).compile cartridge trace =
        .ok ⟨origin, ⟨labelsFrom origin items⟩, Memory.store ∅ origin code, image, listing⟩ (trace ++
          (layoutReports origin (Program.ofItems items).tree.count (totalSize items) (labelsFrom origin items) ++
            resolutionReports (labelsFrom origin items).length (labelsFrom origin items) ++
            [.compiled (totalSize items)])) := by
  have hbound := fits_wordLimit ho hf
  obtain ⟨image, hpack, _⟩ := Cartridge.pack_eq_ok ho hf fun address hm => mem_store_code hf hc hm
  obtain ⟨listing, hrender⟩ := render_ofItems (Memory.store ∅ origin code) hbound
  rw [compile_stages ho (length_of_fits ho hf) hf, layout_ofItems hbound hd]
  simp only [resolve_ofItems (bounded_labelsFrom hbound) hbound hc, hpack, hrender, size_store_code hc]
  exact ⟨image, listing, rfl, by simp [layoutReports, resolutionReports, boundEvents, Labels.size]⟩

theorem compile_duplicate {before after : List Item} {name : String} (ho : cartridge.origin = .ok origin)
    (hf : cartridge.ensureFits (totalSize (before ++ .label name :: after)) = .ok ())
    (hd : (labelNames before).Nodup) (hm : name ∈ labelNames before) (trace : List Event) :
    (Program.ofItems (before ++ .label name :: after)).compile cartridge trace =
      .error (.duplicateLabel name) (trace ++
        layoutReports origin (Program.ofItems (before ++ .label name :: after)).tree.count
          (totalSize (before ++ .label name :: after)) (labelsFrom origin before)) := by
  rw [compile_stages ho (length_of_fits ho hf) hf, layout_ofItems_duplicate (fits_wordLimit ho hf) hd hm]
  simp [layoutReports, boundEvents]

theorem compile_unencodable {before after : List Item} {item : Item} {fault : Fault}
    (ho : cartridge.origin = .ok origin) (hf : cartridge.ensureFits (totalSize (before ++ item :: after)) = .ok ())
    (hd : (labelNames (before ++ item :: after)).Nodup) {code : List UInt8}
    (hbefore : encodeFrom ⟨labelsFrom origin (before ++ item :: after)⟩ origin before = .ok code)
    (hitem : item.encode ⟨labelsFrom origin (before ++ item :: after)⟩ (origin + totalSize before) = .error fault)
    (trace : List Event) :
    (Program.ofItems (before ++ item :: after)).compile cartridge trace =
      .error fault (trace ++
        (layoutReports origin (Program.ofItems (before ++ item :: after)).tree.count
            (totalSize (before ++ item :: after)) (labelsFrom origin (before ++ item :: after)) ++
          resolutionReports (labelsFrom origin (before ++ item :: after)).length (labelsFrom origin before))) := by
  have hbound := fits_wordLimit ho hf
  rw [compile_stages ho (length_of_fits ho hf) hf, layout_ofItems hbound hd]
  simp only [resolve_ofItems_error (bounded_labelsFrom hbound) hbound hbefore hitem]
  simp [layoutReports, resolutionReports, boundEvents, Labels.size]

/-- pass one binds the labels of the scan, or fails -/
theorem layout_inv {labels : Labels} {trace after : List Event} (h : origin + totalSize items < Check.wordLimit)
    (hrun : (Program.ofItems items).layout origin trace = .ok labels after) :
    (labelNames items).Nodup ∧ labels = ⟨labelsFrom origin items⟩ := by
  rcases nodup_or_repeated items with hd | ⟨before, name, rest, rfl, hd, hm⟩
  · rw [layout_ofItems h hd] at hrun
    cases hrun
    exact ⟨hd, rfl⟩
  · rw [layout_ofItems_duplicate h hd hm] at hrun
    cases hrun

/-- pass two stores the code of the scan, or fails -/
theorem resolve_inv {labels : Labels} {bytes : Memory} {trace after : List Event} (hb : labels.Bounded)
    (h : origin + totalSize items < Check.wordLimit)
    (hrun : (Program.ofItems items).resolve labels origin trace = .ok bytes after) :
    ∃ code, encodeFrom labels origin items = .ok code ∧ bytes = Memory.store ∅ origin code := by
  cases hc : encodeFrom labels origin items with
  | ok code =>
    rw [resolve_ofItems hb h hc] at hrun
    cases hrun
    exact ⟨code, rfl, rfl⟩
  | error fault =>
    obtain ⟨before, item, rest, code, rfl, hbefore, hitem⟩ := encodeFrom_eq_error_iff.1 hc
    rw [resolve_ofItems_error hb h hbefore hitem] at hrun
    cases hrun

/-- what a successful compilation says about its first checks -/
theorem compile_checks {trace after : List Event} {assembly : Assembly}
    (h : (Program.ofItems items).compile cartridge trace = .ok assembly after) :
    ∃ origin, cartridge.origin = .ok origin ∧ cartridge.ensureFits (totalSize items) = .ok () := by
  cases ho : cartridge.origin with
  | error fault => rw [compile_of_origin_error trace ho] at h; cases h
  | ok origin =>
    refine ⟨origin, rfl, ?_⟩
    cases hl : (Program.ofItems items).length with
    | error fault => rw [compile_of_length_error trace ho hl] at h; cases h
    | ok length =>
      have hsize : length = totalSize items := by
        rw [length_ofItems] at hl
        split at hl
        · cases hl; rfl
        · cases hl
      subst hsize
      cases hf : cartridge.ensureFits (totalSize items) with
      | error fault => rw [compile_of_fits_error trace ho hl hf] at h; cases h
      | ok _ => rfl

/-- **What a successful compilation says** about the items, the cartridge and the assembly. -/
theorem compile_inv {trace after : List Event} {assembly : Assembly}
    (h : (Program.ofItems items).compile cartridge trace = .ok assembly after) :
    ∃ code, cartridge.origin = .ok assembly.origin ∧ cartridge.ensureFits (totalSize items) = .ok () ∧
      (labelNames items).Nodup ∧ assembly.labels = ⟨labelsFrom assembly.origin items⟩ ∧
      encodeFrom assembly.labels assembly.origin items = .ok code ∧
      assembly.bytes = Memory.store ∅ assembly.origin code ∧
      cartridge.pack (totalSize items) assembly.bytes = .ok assembly.image := by
  obtain ⟨origin, ho, hf⟩ := compile_checks h
  rcases nodup_or_repeated items with hd | ⟨before, name, rest, rfl, hd, hm⟩
  · cases hc : encodeFrom ⟨labelsFrom origin items⟩ origin items with
    | error fault =>
      obtain ⟨before, item, rest, code, rfl, hbefore, hitem⟩ := encodeFrom_eq_error_iff.1 hc
      rw [compile_unencodable ho hf hd hbefore hitem] at h
      cases h
    | ok code =>
      obtain ⟨image, listing, hpack, hrun⟩ := compile_ofItems ho hf hd hc trace
      rw [hrun] at h
      cases h
      exact ⟨code, ho, hf, hd, rfl, hc, rfl, hpack⟩
  · rw [compile_duplicate ho hf hd hm] at h
    cases h

end Stages

end Asm6502
