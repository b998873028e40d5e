/-
What a compilation reports, up to its end or to the point where it stops.

Pass one reports every label that it binds, pass two every label that it comes by. The two reports are made by two
walks: the first names a node for its label, the second only a node that has no byte. For a program made of items both
walks are scans over the items, so both report the labels of `labelsFrom`, and a pass that stops has reported just the
labels of the items before the one at which it stopped.

- `boundIn`, `reachedIn`: the labels in the reports of either pass.
- `reports_of_compile`, `reported_of_compile`: all that was reported, when a compilation succeeds and when it fails.
- `reports_agree`: what follows for a program that steps have built.
-/
import Asm6502.Proofs.Acceptance
import Asm6502.Proofs.Outcome

namespace Asm6502

/-! ## Reports of labels -/

namespace Event

/-- the label that pass one reports as bound -/
def bound? : Event → Option (String × Nat)
  | .bound label address => some (label, address)
  | _ => none

/-- the label that pass two reports when it comes by -/
def reached? : Event → Option (String × Nat)
  | .reached label address => some (label, address)
  | _ => none

end Event

/-- the labels that pass one reports, with their addresses and in the order of the reports -/
def boundIn (reports : List Event) : List (String × Nat) :=
  reports.filterMap Event.bound?

def reachedIn (reports : List Event) : List (String × Nat) :=
  reports.filterMap Event.reached?

def ResolutionStarted (reports : List Event) : Prop :=
  ∃ count, .resolutionStarted count ∈ reports

section Labels

variable (origin nodes length count : Nat) (entries : List (String × Nat))

@[simp] theorem boundIn_append (reports more : List Event) :
    boundIn (reports ++ more) = boundIn reports ++ boundIn more := by
  simp [boundIn]

@[simp] theorem reachedIn_append (reports more : List Event) :
    reachedIn (reports ++ more) = reachedIn reports ++ reachedIn more := by
  simp [reachedIn]

@[simp] theorem boundIn_layoutReports : boundIn (layoutReports origin nodes length entries) = entries := by
  simp [boundIn, layoutReports, boundEvents, Event.bound?, List.filterMap_cons, List.filterMap_map, Function.comp_def]

@[simp] theorem reachedIn_layoutReports : reachedIn (layoutReports origin nodes length entries) = [] := by
  rw [reachedIn, List.filterMap_eq_nil_iff]
  intro event h
  rcases List.mem_cons.1 h with rfl | h
  · rfl
  · obtain ⟨entry, _, rfl⟩ := List.mem_map.1 h
    rfl

@[simp] theorem boundIn_resolutionReports : boundIn (resolutionReports count entries) = [] := by
  rw [boundIn, List.filterMap_eq_nil_iff]
  intro event h
  rcases List.mem_cons.1 h with rfl | h
  · rfl
  · obtain ⟨entry, _, rfl⟩ := List.mem_map.1 h
    rfl

@[simp] theorem reachedIn_resolutionReports : reachedIn (resolutionReports count entries) = entries := by
  simp [reachedIn, resolutionReports, reachedEvents, Event.reached?, List.filterMap_cons, List.filterMap_map,
    Function.comp_def]

theorem not_resolutionStarted_layoutReports : ¬ ResolutionStarted (layoutReports origin nodes length entries) := by
  simp [ResolutionStarted, layoutReports, boundEvents]

end Labels

/-! ## All endings of a compilation -/

section Endings

variable {items : List Item} {cartridge : Cartridge} {trace after : List Event}

/-- a compilation that succeeds has reported every label twice, once in each pass -/
theorem reports_of_compile {assembly : Assembly}
    (h : (Program.ofItems items).compile cartridge trace = .ok assembly after) :
    (Program.ofItems items).length = .ok (totalSize items) ∧ assembly.bytes.size = totalSize items ∧
      after = trace ++
        (layoutReports assembly.origin (Program.ofItems items).tree.count (totalSize items) assembly.labels.entries ++
          resolutionReports assembly.labels.entries.length assembly.labels.entries ++
          [.compiled (totalSize items)]) := by
  obtain ⟨code, ho, hf, hd, hlabels, hcode, hbytes, _⟩ := compile_inv h
  rw [hlabels] at hcode ⊢
  obtain ⟨_, _, _, hrun⟩ := compile_ofItems ho hf hd hcode trace
  rw [h] at hrun
  injection hrun with _ hafter
  exact ⟨length_of_fits ho hf, by rw [hbytes, size_store_code hcode], hafter⟩

/-- a program of too many bytes is refused before pass one -/
theorem compile_of_overflow (h : ¬ totalSize items < Check.wordLimit) (cartridge : Cartridge) (trace : List Event) :
    ∃ fault, (Program.ofItems items).compile cartridge trace = .error fault trace ∧
      ∀ name, fault ≠ .duplicateLabel name := by
  cases ho : cartridge.origin with
  | ok origin =>
    exact ⟨_, compile_of_length_error trace ho (by rw [length_ofItems, if_neg h]), fun name => by simp⟩
  | error fault =>
    refine ⟨fault, compile_of_origin_error trace ho, fun name => ?_⟩
    rintro rfl
    rw [Cartridge.origin_eq] at ho
    split_ifs at ho <;> cases ho

/-- a compilation that fails has reported what it came to -/
theorem reported_of_compile {fault : Fault}
    (h : (Program.ofItems items).compile cartridge trace = .error fault after) :
    ∃ reports, after = trace ++ reports ∧ Reported items cartridge fault reports := by
  by_cases hlen : totalSize items < Check.wordLimit
  · obtain ⟨reports, hrun, hreported⟩ := compile_of_rejected hlen (rejected_of_compile hlen h) trace
    rw [h] at hrun
    cases hrun
    exact ⟨reports, rfl, hreported⟩
  · obtain ⟨cause, hrun, hne⟩ := compile_of_overflow hlen cartridge trace
    rw [h] at hrun
    cases hrun
    exact ⟨[], (List.append_nil _).symm, .unstarted hne⟩

theorem Item.Refused.ne_duplicate {labels : Labels} {address : Nat} {item : Item} {fault : Fault}
    (h : item.Refused labels address fault) (name : String) : fault ≠ .duplicateLabel name := by
  cases item with
  | label name => exact h.elim
  | data value => exact h.elim
  | instruction mnemonic opcode form => cases h <;> simp

end Endings

/-! ## Built programs -/

/-- both passes are reached, and pass two fails on the labels that pass one has bound -/
def Program.StopsInResolution (program : Program) (cartridge : Cartridge) (fault : Fault) : Prop :=
  ∃ origin length labels bound stored, cartridge.origin = .ok origin ∧ program.length = .ok length ∧
    cartridge.ensureFits length = .ok () ∧ program.layout origin [] = .ok labels bound ∧
    program.resolve labels origin [] = .error fault stored

/-- a failure in pass two has a first refused operand, and the compilation ends with it -/
theorem compile_of_stopsInResolution {items : List Item} {cartridge : Cartridge} {fault : Fault}
    (h : (Program.ofItems items).StopsInResolution cartridge fault) (trace : List Event) :
    ∃ before item after, items = before ++ item :: after ∧
      AllResolve (passOne items cartridge) (0x10000 - cartridge.capacity) before ∧
      item.Refused (passOne items cartridge) (0x10000 - cartridge.capacity + totalSize before) fault ∧
      (Program.ofItems items).compile cartridge trace = .error fault (trace ++
        (layoutReports (0x10000 - cartridge.capacity) (Program.ofItems items).tree.count (totalSize items)
            (labelsFrom (0x10000 - cartridge.capacity) items) ++
          resolutionReports (labelsFrom (0x10000 - cartridge.capacity) items).length
            (labelsFrom (0x10000 - cartridge.capacity) before))) := by
  obtain ⟨origin, length, labels, bound, stored, ho, hl, hf, hlayout, hresolve⟩ := h
  obtain ⟨_, rfl⟩ := length_eq_ok_iff.1 hl
  obtain ⟨_, _, _, rfl⟩ := Cartridge.origin_eq_ok_iff.1 ho
  have hbound := fits_wordLimit ho hf
  obtain ⟨hd, rfl⟩ := layout_inv hbound hlayout
  have hcode : encodeFrom ⟨labelsFrom (0x10000 - cartridge.capacity) items⟩ (0x10000 - cartridge.capacity) items =
      .error fault := (resolve_eq_error_iff (bounded_labelsFrom hbound) hbound []).1 (by rw [hresolve]; rfl)
  obtain ⟨before, item, after, rfl, hr, hitem⟩ := encodeFrom_refused_iff.1 hcode
  obtain ⟨code, hbefore⟩ := exists_encodeFrom_iff.2 hr
  exact ⟨before, item, after, rfl, hr, hitem,
    compile_unencodable ho hf hd hbefore (Item.encode_eq_error_iff.2 hitem) trace⟩

/-- the reports of a compilation that gave an assembly, beside the labels of the assembly -/
structure Agreement (program : Program) (assembly : Assembly) (reports : List Event) : Prop where
  /-- what is reported, in full: nodes and bytes at the start, every label twice, the bytes at the end -/
  reports_eq : ∃ length, program.length = .ok length ∧ assembly.bytes.size = length ∧
    reports = layoutReports assembly.origin program.tree.count length assembly.labels.entries ++
      resolutionReports assembly.labels.entries.length assembly.labels.entries ++ [.compiled length]
  /-- pass one reports the labels of the map, in the order of the map -/
  bound_eq : boundIn reports = assembly.labels.entries
  /-- and so does pass two -/
  reached_eq : reachedIn reports = assembly.labels.entries
  /-- the start of pass two parts the reports of the two passes -/
  parted : ∃ first second, reports = first ++ .resolutionStarted assembly.labels.entries.length :: second ∧
    reachedIn first = [] ∧ boundIn second = []

theorem agreement_of_eq {program : Program} {assembly : Assembly} {reports : List Event} {length : Nat}
    (hl : program.length = .ok length) (hsize : assembly.bytes.size = length)
    (h : reports = layoutReports assembly.origin program.tree.count length assembly.labels.entries ++
      resolutionReports assembly.labels.entries.length assembly.labels.entries ++ [.compiled length]) :
    Agreement program assembly reports := by
  have hlast : boundIn [.compiled length] = [] ∧ reachedIn [.compiled length] = [] := ⟨rfl, rfl⟩
  refine ⟨⟨length, hl, hsize, h⟩, ?_, ?_, ?_⟩
  · simp [h, hlast]
  · simp [h, hlast]
  · have hstart := boundIn_resolutionReports assembly.labels.entries.length assembly.labels.entries
    refine ⟨layoutReports assembly.origin program.tree.count length assembly.labels.entries,
      reachedEvents assembly.labels.entries ++ [.compiled length], ?_, reachedIn_layoutReports _ _ _ _, ?_⟩
    · rw [h, List.append_assoc]
      rfl
    · rw [boundIn_append, hlast.1, List.append_nil]
      exact hstart

namespace Console

/-- **The reports of the two passes agree**, for every program that steps can build and every cartridge. A pass that
stops has reported the labels before the point where it stopped. -/
theorem reports_agree (steps : List Step) (cartridge : Cartridge) (trace : List Event) :
    (∀ assembly after, (build steps).compile cartridge trace = .ok assembly after →
      ∃ reports, after = trace ++ reports ∧ Agreement (build steps) assembly reports) ∧
    (∀ name after, (build steps).compile cartridge trace = .error (.duplicateLabel name) after →
      ∃ reports before rest, after = trace ++ reports ∧ itemsOf steps = before ++ .label name :: rest ∧
        (labelNames before).Nodup ∧ name ∈ labelNames before ∧
        boundIn reports = labelsFrom (0x10000 - cartridge.capacity) before ∧ reachedIn reports = [] ∧
        ¬ ResolutionStarted reports) ∧
    ∀ fault, (build steps).StopsInResolution cartridge fault →
      ∃ reports before item rest, (build steps).compile cartridge trace = .error fault (trace ++ reports) ∧
        itemsOf steps = before ++ item :: rest ∧
        AllResolve (passOne (itemsOf steps) cartridge) (0x10000 - cartridge.capacity) before ∧
        item.Refused (passOne (itemsOf steps) cartridge) (0x10000 - cartridge.capacity + totalSize before) fault ∧
        boundIn reports = labelsFrom (0x10000 - cartridge.capacity) (itemsOf steps) ∧ ResolutionStarted reports ∧
        reachedIn reports = labelsFrom (0x10000 - cartridge.capacity) before := by
  rw [build_eq]
  refine ⟨?_, ?_, ?_⟩
  · intro assembly after h
    obtain ⟨hl, hsize, hafter⟩ := reports_of_compile h
    exact ⟨_, hafter, agreement_of_eq hl hsize rfl⟩
  · intro name after h
    obtain ⟨reports, rfl, hreported⟩ := reported_of_compile h
    cases hreported with
    | unstarted hne => exact absurd rfl (hne name)
    | @repeated before rest _ hi hd hm =>
      exact ⟨_, before, rest, rfl, hi, hd, hm, boundIn_layoutReports _ _ _ _, reachedIn_layoutReports _ _ _ _,
        not_resolutionStarted_layoutReports _ _ _ _⟩
    | refused hi hr hitem => exact absurd rfl (hitem.ne_duplicate name)
  · intro fault h
    obtain ⟨before, item, rest, hi, hr, hitem, hrun⟩ := compile_of_stopsInResolution h trace
    refine ⟨_, before, item, rest, hrun, hi, hr, hitem, ?_, ?_, ?_⟩
    · rw [boundIn_append, boundIn_layoutReports, boundIn_resolutionReports, List.append_nil]
    · exact ⟨_, List.mem_append_right _ List.mem_cons_self⟩
    · rw [reachedIn_append, reachedIn_layoutReports, reachedIn_resolutionReports, List.nil_append]

/-- a branch ahead over one instruction -/
def hop : List Step :=
  [.call (.label "start"), .call (Call.bne (.label "end")), .call Call.nop, .call (.label "end")]

/-- a jump to a name that no label has, between two labels -/
def dangling : List Step :=
  [.call (.label "start"), .call (Call.jmpAbsolute (.label "nowhere")), .call (.label "end")]

theorem stopsInResolution_dangling : (build dangling).StopsInResolution ⟨16, 16⟩ (.undefinedLabel "nowhere") := by
  have hd : (labelNames (itemsOf dangling)).Nodup := by decide
  have hbound : 0xFFF0 + totalSize (itemsOf dangling) < Check.wordLimit := by decide
  have hlength : (Program.ofItems (itemsOf dangling)).length = .ok 3 := by
    rw [length_ofItems]
    rfl
  have hcode : encodeFrom ⟨labelsFrom 0xFFF0 (itemsOf dangling)⟩ 0xFFF0 (itemsOf dangling) =
      .error (.undefinedLabel "nowhere") := rfl
  obtain ⟨before, item, after, code, hi, hbefore, hitem⟩ := encodeFrom_eq_error_iff.1 hcode
  have hresolve := resolve_ofItems_error (bounded_labelsFrom hbound) (hi ▸ hbound) hbefore hitem []
  rw [← hi] at hresolve
  rw [build_eq]
  exact ⟨0xFFF0, 3, _, _, _, rfl, hlength, rfl, layout_ofItems hbound hd [], hresolve⟩

/-- one compilation that succeeds, and one that stops in pass two between the two labels -/
theorem reports_agree_hop :
    (∃ assembly reports, (build hop).compile ⟨16, 16⟩ [] = .ok assembly reports ∧
      Agreement (build hop) assembly reports ∧ boundIn reports = [("start", 0xFFF0), ("end", 0xFFF3)]) ∧
    ∃ reports, (build dangling).compile ⟨16, 16⟩ [] = .error (.undefinedLabel "nowhere") reports ∧
      boundIn reports = [("start", 0xFFF0), ("end", 0xFFF3)] ∧ reachedIn reports = [("start", 0xFFF0)] := by
  constructor
  · have ho : Cartridge.origin ⟨16, 16⟩ = .ok 0xFFF0 := rfl
    have hd : (labelNames (itemsOf hop)).Nodup := by decide
    have hc : encodeFrom ⟨labelsFrom 0xFFF0 (itemsOf hop)⟩ 0xFFF0 (itemsOf hop) = .ok [0xD0, 1, 0xEA] := rfl
    obtain ⟨image, listing, _, hrun⟩ := compile_ofItems ho rfl hd hc []
    rw [← build_eq] at hrun
    obtain ⟨reports, hreports, hagree⟩ := (reports_agree hop ⟨16, 16⟩ []).1 _ _ hrun
    rw [List.nil_append] at hreports
    subst hreports
    exact ⟨_, _, hrun, hagree, hagree.bound_eq⟩
  · obtain ⟨reports, before, item, rest, hrun, hi, _, hitem, hbound, _, hreached⟩ :=
      (reports_agree dangling ⟨16, 16⟩ []).2.2 _ stopsInResolution_dangling
    have hbefore : before = [.label "start"] := by
      have hitems : itemsOf dangling = [.label "start", .instruction "JMP" 0x4C (.absolute .none (.label "nowhere")),
        .label "end"] := rfl
      rw [hitems] at hi
      rcases before with _ | ⟨first, _ | ⟨second, _ | ⟨third, more⟩⟩⟩
      · cases hi
        exact hitem.elim
      · cases hi
        rfl
      · cases hi
        exact hitem.elim
      · simp at hi
    subst hbefore
    exact ⟨reports, hrun, hbound, hreached⟩

end Console

end Asm6502
