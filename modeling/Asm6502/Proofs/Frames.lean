/-
The frame routines compose.

A routine is the same bytes wherever it stands: its operands are register addresses, but for the branch of a loop, and
a branch stores the distance to its label, which lies inside the same routine. What joins the routines of a program is
the label names alone. A loop label is a fixed text with the caller's suffix behind it, so two waits clash if their
suffixes are the same, as do two overscans, and a wait never clashes with an overscan.

- `Routine.code`: the bytes of a routine. `Routine.loop?`: its loop label, and where in those bytes the loop begins.
- `encodeFrom_added`: one routine, with its loop label bound to where its loop stands, is encoded as its code.
  `encodeFrom_routines` carries this along a list of routines.
- `nodup_loopLabels_iff`: the loop labels are distinct just if the suffixes of either sort are.
- `routines_compose`: no routine fails; a list of routines compiles just if the suffixes of either sort are distinct;
  the code is that of the routines in a row, and each loop branches back to its own label.
-/
import Asm6502.Proofs.Destinations

namespace Asm6502.Console

/-! ## Code and loops -/

namespace Routine

def code : Routine → List UInt8
  | .lineSync => [0x85, 0x02]
  | .applyMotion => [0x85, 0x2A]
  | .cleanStart => [0x78, 0xD8, 0xA2, 0xFF, 0x9A]
  | .startOfVerticalBlank =>
    [0xA9, 0x02, 0x85, 0x00, 0x85, 0x02, 0x85, 0x02, 0x85, 0x02,
      0xA9, 0x2B, 0x8D, 0x96, 0x02, 0xA9, 0x00, 0x85, 0x00]
  | .waitForEndOfVerticalBlank _ => [0xAD, 0x84, 0x02, 0xD0, 0xFB, 0x85, 0x02, 0x85, 0x01]
  | .overscan _ => [0xA9, 0x02, 0x85, 0x02, 0x85, 0x01, 0xA2, 0x1E, 0x85, 0x02, 0xCA, 0xD0, 0xFB]

/-- the loop label of a routine and the number of bytes before its loop -/
def loop? : Routine → Option (String × Nat)
  | .waitForEndOfVerticalBlank suffix => some (blankLabel suffix, 0)
  | .overscan suffix => some (overscanLabel suffix, 8)
  | _ => none

def loopLabel? (routine : Routine) : Option String :=
  routine.loop?.map Prod.fst

def waitSuffix? : Routine → Option String
  | .waitForEndOfVerticalBlank suffix => some suffix
  | _ => none

def overscanSuffix? : Routine → Option String
  | .overscan suffix => some suffix
  | _ => none

end Routine

def codeOf (routines : List Routine) : List UInt8 :=
  routines.flatMap Routine.code

def loopLabels (routines : List Routine) : List String :=
  routines.filterMap Routine.loopLabel?

/-- the program that routines in a row build -/
def frame (routines : List Routine) : Program :=
  build (routines.map .routine)

def frameItems (routines : List Routine) : List Item :=
  itemsOf (routines.map .routine)

theorem frame_eq (routines : List Routine) : frame routines = Program.ofItems (frameItems routines) :=
  build_eq _

@[simp] theorem frameItems_nil : frameItems [] = [] := rfl

@[simp] theorem frameItems_cons (routine : Routine) (routines : List Routine) :
    frameItems (routine :: routines) = routine.added ++ frameItems routines := rfl

theorem frameItems_append (before after : List Routine) :
    frameItems (before ++ after) = frameItems before ++ frameItems after := by
  simp [frameItems, itemsOf]

@[simp] theorem codeOf_cons (routine : Routine) (routines : List Routine) :
    codeOf (routine :: routines) = routine.code ++ codeOf routines := rfl

theorem opcodes_build (steps : List Step) : (build steps).opcodes = .mos6502 := by
  rw [build_eq]
  exact Program.opcodes_appendAll _ _

/-! ## Loop labels -/

theorem blankLabel_inj {suffix other : String} : blankLabel suffix = blankLabel other ↔ suffix = other :=
  String.append_right_inj _

theorem overscanLabel_inj {suffix other : String} : overscanLabel suffix = overscanLabel other ↔ suffix = other :=
  String.append_right_inj _

/-- the two texts before the suffix differ in their first character -/
theorem blankLabel_ne_overscanLabel (suffix other : String) : blankLabel suffix ≠ overscanLabel other := by
  intro h
  have hchars : "WaitForVblankEnd-".toList ++ suffix.toList = "overScanWaitLoop-".toList ++ other.toList := by
    rw [← String.toList_append, ← String.toList_append]
    exact congrArg String.toList h
  have hblank : "WaitForVblankEnd-".toList.head? = some 'W' := by decide +kernel
  have hoverscan : "overScanWaitLoop-".toList.head? = some 'o' := by decide +kernel
  have hhead := congrArg List.head? hchars
  rw [List.head?_append, List.head?_append, hblank, hoverscan] at hhead
  cases hhead

theorem labelsFrom_added (address : Nat) (routine : Routine) :
    labelsFrom address routine.added =
      (routine.loop?.map fun loop => (loop.1, address + loop.2)).toList := by
  cases routine <;> rfl

theorem totalSize_added (routine : Routine) : totalSize routine.added = routine.code.length := by
  cases routine <;> rfl

theorem totalSize_frameItems (routines : List Routine) :
    totalSize (frameItems routines) = (codeOf routines).length := by
  induction routines with
  | nil => rfl
  | cons routine routines ih => simp [totalSize_added, ih]

theorem labelNames_added (routine : Routine) : labelNames routine.added = routine.loopLabel?.toList := by
  cases routine <;> rfl

theorem labelNames_frameItems (routines : List Routine) : labelNames (frameItems routines) = loopLabels routines := by
  induction routines with
  | nil => rfl
  | cons routine routines ih =>
    rw [frameItems_cons, labelNames_append, labelNames_added, ih, loopLabels, loopLabels, List.filterMap_cons]
    cases routine.loopLabel? <;> rfl

theorem mem_loopLabels_blank {suffix : String} {routines : List Routine} :
    blankLabel suffix ∈ loopLabels routines ↔ suffix ∈ routines.filterMap Routine.waitSuffix? := by
  simp only [loopLabels, List.mem_filterMap]
  refine exists_congr fun routine => and_congr_right fun _ => ?_
  cases routine <;>
    simp [Routine.loopLabel?, Routine.loop?, Routine.waitSuffix?, blankLabel_inj,
      (blankLabel_ne_overscanLabel _ _).symm]

theorem mem_loopLabels_overscan {suffix : String} {routines : List Routine} :
    overscanLabel suffix ∈ loopLabels routines ↔ suffix ∈ routines.filterMap Routine.overscanSuffix? := by
  simp only [loopLabels, List.mem_filterMap]
  refine exists_congr fun routine => and_congr_right fun _ => ?_
  cases routine <;>
    simp [Routine.loopLabel?, Routine.loop?, Routine.overscanSuffix?, overscanLabel_inj, blankLabel_ne_overscanLabel]

/-- the loop labels are distinct just if the suffixes of either sort are -/
theorem nodup_loopLabels_iff (routines : List Routine) :
    (loopLabels routines).Nodup ↔
      (routines.filterMap Routine.waitSuffix?).Nodup ∧ (routines.filterMap Routine.overscanSuffix?).Nodup := by
  induction routines with
  | nil => simp [loopLabels]
  | cons routine routines ih =>
    cases routine with
    | waitForEndOfVerticalBlank suffix =>
      show (blankLabel suffix :: loopLabels routines).Nodup ↔
        (suffix :: routines.filterMap Routine.waitSuffix?).Nodup ∧ (routines.filterMap Routine.overscanSuffix?).Nodup
      rw [List.nodup_cons, List.nodup_cons, mem_loopLabels_blank, ih, and_assoc]
    | overscan suffix =>
      show (overscanLabel suffix :: loopLabels routines).Nodup ↔
        (routines.filterMap Routine.waitSuffix?).Nodup ∧ (suffix :: routines.filterMap Routine.overscanSuffix?).Nodup
      rw [List.nodup_cons, List.nodup_cons, mem_loopLabels_overscan, ih, and_left_comm]
    | _ => exact ih

/-! ## Where the loops stand -/

namespace Routine

variable {routine : Routine} {name : String} {ahead : Nat}

/-- the items of a routine with a loop: what stands before the loop has no label -/
theorem added_of_loop (h : routine.loop? = some (name, ahead)) :
    ∃ lead tail, routine.added = lead ++ .label name :: tail ∧ totalSize lead = ahead ∧ labelNames lead = [] := by
  cases routine with
  | waitForEndOfVerticalBlank suffix =>
    cases h
    exact ⟨[], _, rfl, rfl, rfl⟩
  | overscan suffix =>
    cases h
    exact ⟨(Routine.overscan suffix).added.take 4, _, rfl, rfl, rfl⟩
  | _ => cases h

/-- the five bytes of a loop: three before the branch, then the branch back over itself and them -/
theorem code_of_loop (h : routine.loop? = some (name, ahead)) :
    ∃ lead body tail, routine.code = lead ++ (body ++ 0xD0 :: 0xFB :: tail) ∧ lead.length = ahead ∧
      body.length = 3 := by
  cases routine with
  | waitForEndOfVerticalBlank suffix =>
    cases h
    exact ⟨[], [0xAD, 0x84, 0x02], _, rfl, rfl, rfl⟩
  | overscan suffix =>
    cases h
    exact ⟨[0xA9, 0x02, 0x85, 0x02, 0x85, 0x01, 0xA2, 0x1E], [0x85, 0x02, 0xCA], [], rfl, rfl, rfl⟩
  | _ => cases h

theorem loop_lt_length (h : routine.loop? = some (name, ahead)) : ahead < routine.code.length := by
  obtain ⟨lead, body, tail, hcode, rfl, _⟩ := code_of_loop h
  rw [hcode, List.length_append, List.length_append, List.length_cons]
  omega

end Routine

/-- the branch of a loop among the bytes of routines in a row -/
theorem codeOf_split (before after : List Routine) {routine : Routine} {name : String} {ahead : Nat}
    (h : routine.loop? = some (name, ahead)) :
    ∃ lead tail, codeOf (before ++ routine :: after) = lead ++ 0xD0 :: 0xFB :: tail ∧
      lead.length = (codeOf before).length + ahead + 3 := by
  obtain ⟨lead, body, tail, hcode, rfl, hbody⟩ := Routine.code_of_loop h
  refine ⟨codeOf before ++ lead ++ body, tail ++ codeOf after, ?_, ?_⟩
  · simp [codeOf, hcode]
  · rw [List.length_append, List.length_append, hbody]

/-- every loop label is bound to the address at which its loop begins, the first routine being at `address` -/
def LoopsBound (labels : Labels) (address : Nat) (routines : List Routine) : Prop :=
  ∀ before routine after name ahead, routines = before ++ routine :: after → routine.loop? = some (name, ahead) →
    labels.get? name = some (address + (codeOf before).length + ahead)

theorem frameItems_split (before after : List Routine) {routine : Routine} {name : String} {ahead : Nat}
    (h : routine.loop? = some (name, ahead)) :
    ∃ lead tail, frameItems (before ++ routine :: after) = lead ++ .label name :: tail ∧
      totalSize lead = (codeOf before).length + ahead ∧ labelNames lead = loopLabels before := by
  obtain ⟨lead, tail, hadded, hsize, hnames⟩ := Routine.added_of_loop h
  refine ⟨frameItems before ++ lead, tail ++ frameItems after, ?_, ?_, ?_⟩
  · rw [frameItems_append, frameItems_cons, hadded]
    simp
  · rw [totalSize_append, totalSize_frameItems, hsize]
  · rw [labelNames_append, labelNames_frameItems, hnames, List.append_nil]

theorem loopsBound_labelsFrom (origin : Nat) {routines : List Routine} (hd : (loopLabels routines).Nodup) :
    LoopsBound ⟨labelsFrom origin (frameItems routines)⟩ origin routines := by
  rintro before routine after name ahead rfl hloop
  obtain ⟨lead, tail, hsplit, hsize, _⟩ := frameItems_split before after hloop
  rw [← labelNames_frameItems, hsplit] at hd
  rw [hsplit, get?_labelsFrom hd, hsize, Nat.add_assoc]

/-- the loops stand one behind the other -/
theorem ascending_labelsFrom (address : Nat) (routines : List Routine) :
    (labelsFrom address (frameItems routines)).Pairwise fun first second => first.2 < second.2 := by
  induction routines generalizing address with
  | nil => exact .nil
  | cons routine routines ih =>
    rw [frameItems_cons, labelsFrom_append, labelsFrom_added, totalSize_added]
    refine List.pairwise_append.2 ⟨?_, ih _, ?_⟩
    · cases routine.loop? <;> simp
    · intro first hfirst second hsecond
      obtain ⟨loop, hloop, rfl⟩ := Option.map_eq_some_iff.1 (Option.mem_toList.1 hfirst)
      have hinside := Routine.loop_lt_length hloop
      have hbehind := mem_labelsFrom hsecond
      omega

theorem name_eq_of_get? {address top : Nat} {routines : List Routine} {name other : String}
    (h : (Labels.mk (labelsFrom address (frameItems routines))).get? name = some top)
    (ho : (Labels.mk (labelsFrom address (frameItems routines))).get? other = some top) : other = name := by
  have hnodup : ((labelsFrom address (frameItems routines)).map Prod.snd).Nodup :=
    List.pairwise_map.2 ((ascending_labelsFrom address routines).imp fun hlt => Nat.ne_of_lt hlt)
  have hmem := InstructionSet.mem_of_lookup h
  have hother := InstructionSet.mem_of_lookup ho
  exact congrArg Prod.fst (List.inj_on_of_nodup_map hnodup hother hmem rfl)

/-! ## Encoding -/

/-- a branch three bytes behind its target goes back by five, its own two bytes included -/
theorem encode_back {labels : Labels} {name : String} {top : Nat} (h : labels.get? name = some top) (opcode : UInt8) :
    (Form.relative (.label name)).encode labels (top + 3) opcode = .ok [opcode, 0xFB] := by
  have hvalue : Operand.value labels (.label name) = .ok (top : Int) := by rw [Operand.value, h]
  have hdistance : (top : Int) - ((top + 3 : Nat) + 2) = -5 := by omega
  refine bind_eq_ok_iff.2 ⟨top, Operand.within_eq_ok_iff.2 ⟨hvalue, by omega, by omega⟩, ?_⟩
  rw [hdistance]
  rfl

/-- one routine is encoded as its code if its loop label is bound to where its loop stands -/
theorem encodeFrom_added {labels : Labels} {address : Nat} {routine : Routine}
    (h : ∀ name ahead, routine.loop? = some (name, ahead) → labels.get? name = some (address + ahead)) :
    encodeFrom labels address routine.added = .ok routine.code := by
  cases routine with
  | waitForEndOfVerticalBlank suffix =>
    have hbranch := encode_back (h _ _ rfl) 0xD0
    -- the loop label and the load come before the branch
    rw [← List.take_append_drop 2 (Routine.added _), encodeFrom_append_eq_ok_iff]
    exact ⟨[0xAD, 0x84, 0x02], _, rfl, encodeFrom_cons_eq_ok_iff.2 ⟨_, _, hbranch, rfl, rfl⟩, rfl⟩
  | overscan suffix =>
    have hbranch := encode_back (h _ _ rfl) 0xD0
    -- the branch is the last item; its target is the label three bytes before it
    rw [← List.take_append_drop 7 (Routine.added _), encodeFrom_append_eq_ok_iff]
    exact ⟨[0xA9, 0x02, 0x85, 0x02, 0x85, 0x01, 0xA2, 0x1E, 0x85, 0x02, 0xCA], _, rfl,
      encodeFrom_cons_eq_ok_iff.2 ⟨_, _, hbranch, rfl, rfl⟩, rfl⟩
  | _ => rfl

theorem encodeFrom_routines {labels : Labels} {address : Nat} {routines : List Routine}
    (h : LoopsBound labels address routines) :
    encodeFrom labels address (frameItems routines) = .ok (codeOf routines) := by
  induction routines generalizing address with
  | nil => rfl
  | cons routine routines ih =>
    have hown : encodeFrom labels address routine.added = .ok routine.code :=
      encodeFrom_added fun name ahead hloop => h [] routine routines name ahead rfl hloop
    have hrest : LoopsBound labels (address + routine.code.length) routines := by
      rintro before other after name ahead rfl hloop
      have := h (routine :: before) other after name ahead rfl hloop
      rwa [codeOf_cons, List.length_append, ← Nat.add_assoc address] at this
    rw [frameItems_cons, encodeFrom_append_eq_ok_iff, totalSize_added]
    exact ⟨routine.code, codeOf routines, hown, ih hrest, rfl⟩

/-! ## Compiling -/

/-- one routine after the other, from any program for the 6502 -/
theorem forM_run {program : Program} (h : program.opcodes = .mos6502) (routines : List Routine) :
    routines.forM Routine.run program = .ok () (program.appendAll (frameItems routines)) := by
  induction routines generalizing program with
  | nil => rfl
  | cons routine routines ih =>
    have hnext := ih ((Program.opcodes_appendAll program routine.added).trans h)
    show (routine.run >>= fun _ => routines.forM Routine.run) program = _
    rw [run_bind, routine.run_eq program h, frameItems_cons, Program.appendAll_append]
    exact hnext

/-- `name` is the first loop label that an earlier routine has as well -/
def FirstRepeated (routines : List Routine) (name : String) : Prop :=
  ∃ before routine after, routines = before ++ routine :: after ∧ routine.loopLabel? = some name ∧
    (loopLabels before).Nodup ∧ name ∈ loopLabels before

/-- a loop that begins at `top`: its label stands there and no other does, and the branch behind its three bytes leads
back there -/
structure Loops (assembly : Assembly) (name : String) (top : Nat) : Prop where
  bound : assembly.labels.get? name = some top
  alone : ∀ other, assembly.labels.get? other = some top → other = name
  opcode : assembly.bytes[top + 3]? = some 0xD0
  taken : ∃ offset, assembly.bytes[top + 4]? = some offset ∧ (branchTaken (UInt16.ofNat (top + 3)) offset).toNat = top

/-- the assembly of routines in a row -/
structure Composed (routines : List Routine) (origin : Nat) (assembly : Assembly) : Prop where
  origin_eq : assembly.origin = origin
  bytes_eq : assembly.bytes = Memory.store ∅ origin (codeOf routines)
  image_eq : assembly.image.toList.take (codeOf routines).length = codeOf routines
  loops : ∀ before routine after name ahead, routines = before ++ routine :: after →
    routine.loop? = some (name, ahead) → Loops assembly name (origin + (codeOf before).length + ahead)

section Compile

variable {routines : List Routine} {cartridge : Cartridge} {origin : Nat}

theorem fits_frameItems (hroom : (codeOf routines).length ≤ cartridge.room) :
    cartridge.ensureFits (totalSize (frameItems routines)) = .ok () := by
  rw [totalSize_frameItems, Cartridge.ensureFits_eq_ok_iff]
  exact hroom

theorem compile_of_nodup (ho : cartridge.origin = .ok origin) (hroom : (codeOf routines).length ≤ cartridge.room)
    (hd : (loopLabels routines).Nodup) (trace : List Event) :
    ∃ assembly after, (frame routines).compile cartridge trace = .ok assembly after := by
  have hcode := encodeFrom_routines (loopsBound_labelsFrom origin hd)
  rw [← labelNames_frameItems] at hd
  obtain ⟨image, listing, _, hrun⟩ := compile_ofItems ho (fits_frameItems hroom) hd hcode trace
  rw [frame_eq]
  exact ⟨_, _, hrun⟩

theorem compile_of_firstRepeated (ho : cartridge.origin = .ok origin)
    (hroom : (codeOf routines).length ≤ cartridge.room) {name : String} (h : FirstRepeated routines name)
    (trace : List Event) :
    ∃ after, (frame routines).compile cartridge trace = .error (.duplicateLabel name) after := by
  obtain ⟨before, routine, after, rfl, hname, hd, hm⟩ := h
  obtain ⟨⟨_, ahead⟩, hloop, rfl⟩ := Option.map_eq_some_iff.1 hname
  obtain ⟨lead, tail, hsplit, _, hnames⟩ := frameItems_split before after hloop
  have hf := fits_frameItems hroom
  rw [hsplit] at hf
  rw [← hnames] at hd hm
  rw [frame_eq, hsplit]
  exact ⟨_, compile_duplicate ho hf hd hm trace⟩

theorem nodup_or_firstRepeated (routines : List Routine) :
    (loopLabels routines).Nodup ∨ ∃ name, FirstRepeated routines name := by
  rcases nodup_filterMap_or_repeated Routine.loopLabel? routines with
    hd | ⟨before, routine, name, after, hsplit, hname, hd, hm⟩
  · exact Or.inl hd
  · exact Or.inr ⟨name, before, routine, after, hsplit, hname, hd, hm⟩

theorem compile_frame_ok_iff (ho : cartridge.origin = .ok origin)
    (hroom : (codeOf routines).length ≤ cartridge.room) (trace : List Event) :
    (∃ assembly after, (frame routines).compile cartridge trace = .ok assembly after) ↔
      (loopLabels routines).Nodup := by
  constructor
  · rintro ⟨assembly, after, hrun⟩
    rw [frame_eq] at hrun
    obtain ⟨_, _, _, hd, _⟩ := compile_inv hrun
    rwa [labelNames_frameItems] at hd
  · intro hd
    exact compile_of_nodup ho hroom hd trace

theorem compile_frame_error_iff (ho : cartridge.origin = .ok origin)
    (hroom : (codeOf routines).length ≤ cartridge.room) (trace : List Event) (fault : Fault) :
    (∃ after, (frame routines).compile cartridge trace = .error fault after) ↔
      ∃ name, FirstRepeated routines name ∧ fault = .duplicateLabel name := by
  constructor
  · rintro ⟨after, hstop⟩
    rcases nodup_or_firstRepeated routines with hd | ⟨name, hfirst⟩
    · obtain ⟨_, _, hrun⟩ := compile_of_nodup ho hroom hd trace
      rw [hstop] at hrun
      cases hrun
    · obtain ⟨_, hcause⟩ := compile_of_firstRepeated ho hroom hfirst trace
      rw [hstop] at hcause
      cases hcause
      exact ⟨name, hfirst, rfl⟩
  · rintro ⟨name, hfirst, rfl⟩
    exact compile_of_firstRepeated ho hroom hfirst trace

/-- a branch with the offset 0xFB leads back by five, from the byte behind it -/
theorem branchTaken_back {top : Nat} (h : top < 0x10000) :
    (branchTaken (UInt16.ofNat (top + 3)) 0xFB).toNat = top := by
  have htaken := toNat_branchTaken (top + 3) 0xFB
  have hoffset : signedOffset 0xFB = -5 := rfl
  omega

theorem composed_of_compile {assembly : Assembly} {trace after : List Event} (ho : cartridge.origin = .ok origin)
    (h : (frame routines).compile cartridge trace = .ok assembly after) : Composed routines origin assembly := by
  rw [frame_eq] at h
  obtain ⟨code, hoa, hf, hd, hlabels, hc, hbytes, hp⟩ := compile_inv h
  obtain rfl : origin = assembly.origin := Except.ok.inj (ho.symm.trans hoa)
  rw [labelNames_frameItems] at hd
  have hbound := loopsBound_labelsFrom assembly.origin hd
  rw [← hlabels] at hbound
  obtain rfl : codeOf routines = code := Except.ok.inj ((encodeFrom_routines hbound).symm.trans hc)
  rw [hbytes] at hp
  obtain ⟨_, himage⟩ := take_image ho hf hc hp
  have hbelow := fits_below_vectors ho hf
  rw [totalSize_frameItems] at himage hbelow
  refine ⟨rfl, hbytes, himage, ?_⟩
  rintro before routine rest name ahead rfl hloop
  have hown := hbound before routine rest name ahead rfl hloop
  obtain ⟨lead, tail, hcode, hlength⟩ := codeOf_split before rest hloop
  have htop : assembly.origin + (codeOf before).length + ahead + 3 = assembly.origin + lead.length := by omega
  refine ⟨hown, ?_, ?_, 0xFB, ?_, ?_⟩
  · intro other hother
    rw [hlabels] at hown hother
    exact name_eq_of_get? hown hother
  · rw [hbytes, hcode, htop, Memory.getElem?_store_empty]
    simp
  · rw [hbytes, hcode, ← Nat.add_assoc _ 3 1, htop, Nat.add_assoc, Memory.getElem?_store_empty]
    simp
  · rw [hcode, List.length_append] at hbelow
    exact branchTaken_back (by omega)

end Compile

/-- **The frame routines compose anywhere.** A routine succeeds in every program for the 6502, and every program that
steps build is one. In a cartridge with room for their code, routines in a row compile just if the waits have distinct
suffixes and so do the overscans; otherwise the fault names the first loop label that comes again. The code is that of
the routines in a row, and every loop goes back to its own label. -/
theorem routines_compose (routines : List Routine) (cartridge : Cartridge) (origin : Nat)
    (ho : cartridge.origin = .ok origin) (hroom : (codeOf routines).length ≤ cartridge.room) (trace : List Event) :
    (∀ program : Program, program.opcodes = .mos6502 → ∀ routine : Routine,
      ∃ after, routine.run program = .ok () after ∧ after.opcodes = .mos6502) ∧
    (∀ steps, (build steps).opcodes = .mos6502) ∧
    routines.forM Routine.run Program.new = .ok () (frame routines) ∧
    (frame routines).length = .ok (codeOf routines).length ∧
    ((∃ assembly after, (frame routines).compile cartridge trace = .ok assembly after) ↔
      (routines.filterMap Routine.waitSuffix?).Nodup ∧ (routines.filterMap Routine.overscanSuffix?).Nodup) ∧
    (∀ fault, (∃ after, (frame routines).compile cartridge trace = .error fault after) ↔
      ∃ name, FirstRepeated routines name ∧ fault = .duplicateLabel name) ∧
    (∀ assembly after, (frame routines).compile cartridge trace = .ok assembly after →
      Composed routines origin assembly) ∧
    (∀ suffix, [0xAD, 0x84, 0x02, 0xD0, 0xFB] <+: (Routine.waitForEndOfVerticalBlank suffix).code) ∧
    ∀ suffix, [0x85, 0x02, 0xCA, 0xD0, 0xFB] <:+ (Routine.overscan suffix).code := by
  refine ⟨?_, opcodes_build, ?_, ?_, ?_, compile_frame_error_iff ho hroom trace, ?_, ?_, ?_⟩
  · intro program hp routine
    exact ⟨_, routine.run_eq program hp, (Program.opcodes_appendAll program routine.added).trans hp⟩
  · rw [frame_eq]
    exact forM_run rfl routines
  · rw [frame_eq, length_of_fits ho (fits_frameItems hroom), totalSize_frameItems]
  · rw [compile_frame_ok_iff ho hroom, nodup_loopLabels_iff]
  · intro assembly after hrun
    exact composed_of_compile ho hrun
  · intro suffix
    exact ⟨[0x85, 0x02, 0x85, 0x01], rfl⟩
  · intro suffix
    exact ⟨[0xA9, 0x02, 0x85, 0x02, 0x85, 0x01, 0xA2, 0x1E], rfl⟩

/-- two waits around an overscan that has the suffix of the first, behind a clean start -/
def twoWaits (second : String) : List Routine :=
  [.cleanStart, .waitForEndOfVerticalBlank "main", .overscan "main", .waitForEndOfVerticalBlank second]

/-- an overscan may share a wait's suffix, another wait may not -/
theorem routines_compose_twoWaits :
    Cartridge.origin ⟨64, 64⟩ = .ok 0xFFC0 ∧ (codeOf (twoWaits "again")).length ≤ Cartridge.room ⟨64, 64⟩ ∧
    (∃ assembly after, (frame (twoWaits "again")).compile ⟨64, 64⟩ [] = .ok assembly after ∧
      assembly.labels.get? "WaitForVblankEnd-again" = some 0xFFDB ∧
      assembly.image.toList.take 36 =
        [0x78, 0xD8, 0xA2, 0xFF, 0x9A, 0xAD, 0x84, 0x02, 0xD0, 0xFB, 0x85, 0x02, 0x85, 0x01,
          0xA9, 0x02, 0x85, 0x02, 0x85, 0x01, 0xA2, 0x1E, 0x85, 0x02, 0xCA, 0xD0, 0xFB,
          0xAD, 0x84, 0x02, 0xD0, 0xFB, 0x85, 0x02, 0x85, 0x01]) ∧
    ∃ after, (frame (twoWaits "main")).compile ⟨64, 64⟩ [] =
      .error (.duplicateLabel "WaitForVblankEnd-main") after := by
  have ho : Cartridge.origin ⟨64, 64⟩ = .ok 0xFFC0 := rfl
  have hroom : (codeOf (twoWaits "again")).length ≤ Cartridge.room ⟨64, 64⟩ := by decide
  obtain ⟨_, _, _, _, hok, _, hcomposed, _⟩ := routines_compose (twoWaits "again") ⟨64, 64⟩ 0xFFC0 ho hroom []
  obtain ⟨_, _, _, _, _, herror, _⟩ := routines_compose (twoWaits "main") ⟨64, 64⟩ 0xFFC0 ho (by decide) []
  refine ⟨ho, hroom, ?_, ?_⟩
  · obtain ⟨assembly, after, hrun⟩ := hok.2 (by decide)
    have h := hcomposed assembly after hrun
    have hlast := h.loops [.cleanStart, .waitForEndOfVerticalBlank "main", .overscan "main"] _ [] _ _ rfl rfl
    exact ⟨assembly, after, hrun, hlast.bound, h.image_eq⟩
  · rw [herror]
    have hfirst : FirstRepeated (twoWaits "main") (blankLabel "main") :=
      ⟨[.cleanStart, .waitForEndOfVerticalBlank "main", .overscan "main"], _, [], rfl, rfl, by decide, by decide⟩
    exact ⟨_, hfirst, rfl⟩

end Asm6502.Console
