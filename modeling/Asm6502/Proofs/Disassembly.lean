/-
Disassembling undoes assembling.

`disassemble` reads code from its first byte on: an opcode, the one instruction that the opcode names, as many operand
bytes as the instruction's mode has, and so on to the last byte. It knows the instruction set and the address of the
first byte, and nothing else; it gives up on an opcode that names no instruction or more than one, and on an operand
that the end of the code cuts off.

- `Console.emissions`: what was emitted while a program was built, successful calls only, in order.
- `encode_reading`: the operand bytes of one instruction read back as the operand's value.
- `disassemble_encodeFrom`: the code of legible items reads back as their instructions. The induction keeps the
  decoder at the first byte of an item.
- `disassemble_image`: the image of a program without data or raw opcodes reads back as what was emitted.
-/
import Asm6502.Proofs.Building
import Asm6502.Proofs.Compilation
import Asm6502.Proofs.Opcodes

namespace Asm6502

/-! ## The disassembler -/

def Mode.operandBytes : Mode → Nat
  | .implied => 0
  | .accumulator => 0
  | .immediate => 1
  | .zeroPage _ => 1
  | .absolute _ => 2
  | .relative => 1

/-- the value of the bytes that follow an opcode at `address`; a branch gives its target -/
def Mode.operandValue (address : Nat) : Mode → List UInt8 → Option Int
  | .immediate, [byte] => some byte.toNat
  | .zeroPage _, [byte] => some byte.toNat
  | .absolute _, [low, high] => some (low.toNat + 256 * high.toNat : Nat)
  | .relative, [offset] => some (address + 2 + signedOffset offset)
  | _, _ => none

/-- an instruction with the value of its operand, if it has one -/
structure Reading where
  mnemonic : String
  mode : Mode
  value : Option Int
  deriving DecidableEq, Repr

/-- why code cannot be read -/
inductive Illegible where
  | unknown (opcode : UInt8)
  | ambiguous (opcode : UInt8)
  | truncated (opcode : UInt8)
  deriving DecidableEq, Repr

/-- the instructions in code whose first byte is at `address` -/
def disassemble (set : InstructionSet) (address : Nat) : List UInt8 → Except Illegible (List Reading)
  | [] => .ok []
  | opcode :: code =>
    match set.named opcode with
    | [] => .error (.unknown opcode)
    | [(mnemonic, mode)] =>
      if code.length < mode.operandBytes then
        .error (.truncated opcode)
      else
        (disassemble set (address + 1 + mode.operandBytes) (code.drop mode.operandBytes)).map
          (⟨mnemonic, mode, mode.operandValue address (code.take mode.operandBytes)⟩ :: ·)
    | _ => .error (.ambiguous opcode)
  termination_by code => code.length
  decreasing_by
    rw [List.length_drop, List.length_cons]
    omega

theorem disassemble_cons {set : InstructionSet} {opcode : UInt8} {mnemonic : String} {mode : Mode}
    (hn : set.named opcode = [(mnemonic, mode)]) {operand : List UInt8} (hl : operand.length = mode.operandBytes)
    (address : Nat) (code : List UInt8) :
    disassemble set address (opcode :: (operand ++ code)) =
      (disassemble set (address + 1 + mode.operandBytes) code).map
        (⟨mnemonic, mode, mode.operandValue address operand⟩ :: ·) := by
  have hlong : ¬ (operand ++ code).length < mode.operandBytes := by
    rw [List.length_append]
    omega
  rw [disassemble, hn]
  simp only [if_neg hlong]
  rw [List.drop_left' hl, List.take_left' hl]

/-! ## What was emitted -/

/-- an instruction as it was asked for -/
structure Emission where
  mnemonic : String
  mode : Mode
  operand : Option Operand
  deriving DecidableEq, Repr

/-- what a reader should see of an emission: the literal, or the address of the label -/
def Emission.reading (labels : Labels) (emission : Emission) : Except Fault Reading :=
  match emission.operand with
  | none => .ok ⟨emission.mnemonic, emission.mode, none⟩
  | some operand => do
    let value ← operand.value labels
    pure ⟨emission.mnemonic, emission.mode, some value⟩

namespace Call

/-- what a call asks for, if it is an emit -/
def emission? : Call → Option Emission
  | .emit mnemonic mode operand => some ⟨mnemonic, mode, operand⟩
  | _ => none

/-- the emissions of calls that are carried out one after the other, up to the first that fails -/
def emissions : List Call → Program → List Emission
  | [], _ => []
  | call :: calls, program =>
    match call.run program with
    | .ok _ next => call.emission?.toList ++ emissions calls next
    | .error _ _ => []

/-- the call is a label or an emit: neither data nor an opcode of the caller's choice -/
def isSymbolic : Call → Bool
  | .label _ => true
  | .emit _ _ _ => true
  | _ => false

end Call

namespace Console

def Step.emissions (program : Program) : Step → List Emission
  | .call single => Call.emissions [single] program
  | .routine piece => Call.emissions piece.calls program

/-- the emissions of steps that go on from `program` -/
def emissionsFrom : (program : Program) → List Step → List Emission
  | _, [] => []
  | program, step :: steps => step.emissions program ++ emissionsFrom (step.advance program) steps

/-- everything that is emitted when a program is built by the given steps, in order -/
def emissions (steps : List Step) : List Emission :=
  emissionsFrom Program.new steps

/-- the step is a label, an emit or a routine -/
def Step.isSymbolic : Step → Bool
  | .call single => single.isSymbolic
  | .routine _ => true

end Console

/-! ## Bytes read back -/

theorem toNat_ofInt {value : Int} (hlow : 0 ≤ value) (hhigh : value ≤ 0xFF) :
    ((UInt8.ofInt value).toNat : Int) = value := by
  rw [UInt8.ofInt, UInt8.toNat_ofNat']
  omega

theorem signedOffset_bounds (offset : UInt8) : -128 ≤ signedOffset offset ∧ signedOffset offset ≤ 127 :=
  ⟨Int8.le_toInt _, Int8.toInt_le _⟩

theorem signedOffset_ofInt {distance : Int} (hlow : -128 ≤ distance) (hhigh : distance ≤ 127) :
    signedOffset (UInt8.ofInt distance) = distance := by
  rw [signedOffset, UInt8.ofInt, UInt8.toInt8_ofNat', Int8.toInt_ofNat', Int.toNat_of_nonneg (by omega)]
  exact (Int.emod_bmod distance 256).trans (Int.bmod_eq_of_le (by omega) (by omega))

/-- the emission that an instruction of the given form comes from -/
def Form.emission (mnemonic : String) (form : Form) : Emission :=
  ⟨mnemonic, form.mode, form.operand⟩

theorem Form.size_eq_operandBytes (form : Form) : form.size = 1 + form.mode.operandBytes := by
  cases form <;> rfl

theorem Form.reading_eq {labels : Labels} {address : Nat} {form : Form} {operand : Operand} {value : Int}
    {bytes : List UInt8} (ho : form.operand = some operand) (hv : operand.value labels = .ok value)
    (hb : form.mode.operandValue address bytes = some value) (mnemonic : String) :
    (form.emission mnemonic).reading labels = .ok ⟨mnemonic, form.mode, form.mode.operandValue address bytes⟩ := by
  simp only [emission, Emission.reading, ho, hv, hb, ok_bind]
  rfl

/-- the operand bytes of one instruction read back as the value of its operand -/
theorem Form.encode_reading {labels : Labels} {address : Nat} {opcode : UInt8} {form : Form} {code : List UInt8}
    (h : form.encode labels address opcode = .ok code) (mnemonic : String) :
    ∃ bytes, code = opcode :: bytes ∧ bytes.length = form.mode.operandBytes ∧
      (form.emission mnemonic).reading labels =
        .ok ⟨mnemonic, form.mode, form.mode.operandValue address bytes⟩ := by
  cases form with
  | implied =>
    cases h
    exact ⟨[], rfl, rfl, rfl⟩
  | accumulator =>
    cases h
    exact ⟨[], rfl, rfl, rfl⟩
  | immediate byte =>
    cases h
    have hbyte : (Int32.ofNat byte.toNat).toInt = byte.toNat :=
      Int32.toInt_ofNat_of_lt (Nat.lt_trans byte.toNat_lt (by decide))
    have hread : Mode.operandValue address .immediate [byte] = some (Int32.ofNat byte.toNat).toInt :=
      congrArg some hbyte.symm
    exact ⟨[byte], rfl, rfl, reading_eq rfl rfl hread mnemonic⟩
  | zeroPage index operand =>
    obtain ⟨value, hv, h⟩ := bind_eq_ok_iff.1 h
    cases h
    obtain ⟨hv, hlow, hhigh⟩ := Operand.within_eq_ok_iff.1 hv
    have hread : Mode.operandValue address (.zeroPage index) [UInt8.ofInt value] = some value :=
      congrArg some (toNat_ofInt hlow hhigh)
    exact ⟨_, rfl, rfl, reading_eq rfl hv hread mnemonic⟩
  | absolute index operand =>
    obtain ⟨value, hv, h⟩ := bind_eq_ok_iff.1 h
    cases h
    obtain ⟨hv, hlow, hhigh⟩ := Operand.within_eq_ok_iff.1 hv
    have hread : Mode.operandValue address (.absolute index)
        [UInt8.ofInt (value % 256), UInt8.ofInt (value / 256)] = some value := by
      rw [Mode.operandValue, Int.natCast_add, Int.natCast_mul, toNat_ofInt (by omega) (by omega),
        toNat_ofInt (by omega) (by omega)]
      exact congrArg some (Int.emod_add_mul_ediv value 256)
    exact ⟨_, rfl, rfl, reading_eq rfl hv hread mnemonic⟩
  | relative operand =>
    obtain ⟨target, ht, h⟩ := bind_eq_ok_iff.1 h
    cases h
    obtain ⟨hv, hlow, hhigh⟩ := Operand.within_eq_ok_iff.1 ht
    have hread : Mode.operandValue address .relative [UInt8.ofInt (target - (address + 2))] = some target := by
      rw [Mode.operandValue, signedOffset_ofInt (by omega) (by omega)]
      exact congrArg some (by omega)
    exact ⟨_, rfl, rfl, reading_eq rfl hv hread mnemonic⟩

/-! ## Legible items -/

def Item.emission? : Item → Option Emission
  | .instruction mnemonic _ form => some (form.emission mnemonic)
  | _ => none

/-- an item that a reader can recognise: a label, or an instruction with the opcode of its mnemonic and mode -/
def Item.Legible : Item → Prop
  | .label _ => True
  | .data _ => False
  | .instruction mnemonic opcode form => InstructionSet.mos6502.lookup mnemonic form.mode = some opcode

/-- **The code of legible items reads back** as the instructions among them. -/
theorem disassemble_encodeFrom {labels : Labels} {address : Nat} {items : List Item} {code : List UInt8}
    (hl : ∀ item ∈ items, item.Legible) (hc : encodeFrom labels address items = .ok code) :
    ∃ readings, (items.filterMap Item.emission?).mapM (Emission.reading labels) = .ok readings ∧
      disassemble .mos6502 address code = .ok readings := by
  induction items generalizing address code with
  | nil =>
    cases hc
    exact ⟨[], rfl, by rw [disassemble]⟩
  | cons item items ih =>
    obtain ⟨own, rest, hown, hrest, rfl⟩ := encodeFrom_cons_eq_ok_iff.1 hc
    obtain ⟨readings, hread, hdis⟩ := ih (fun other ho => hl other (List.mem_cons_of_mem _ ho)) hrest
    have hitem := hl item List.mem_cons_self
    cases item with
    | label name =>
      cases hown
      exact ⟨readings, hread, hdis⟩
    | data value => exact hitem.elim
    | instruction mnemonic opcode form =>
      obtain ⟨operand, rfl, hlen, hfirst⟩ := Form.encode_reading hown mnemonic
      have hnext : address + 1 + form.mode.operandBytes = address + form.size := by
        rw [Form.size_eq_operandBytes, Nat.add_assoc]
      have hemission : (Item.instruction mnemonic opcode form).emission? = some (form.emission mnemonic) := rfl
      refine ⟨⟨mnemonic, form.mode, form.mode.operandValue address operand⟩ :: readings, ?_, ?_⟩
      · rw [List.filterMap_cons_some hemission, List.mapM_cons, hfirst, ok_bind, hread, ok_bind]
        rfl
      · have hdis : disassemble .mos6502 (address + form.size) rest = .ok readings := hdis
        rw [List.cons_append, disassemble_cons (InstructionSet.named_eq hitem) hlen, hnext, hdis]
        rfl

/-! ## Steps and their emissions -/

theorem Form.ofImmediate_eq_ok {value : Int32} {form : Form} (h : ofImmediate value = .ok form) :
    form.mode = .immediate ∧ form.operand = some (.literal value) := by
  obtain ⟨_, hrange, h⟩ := bind_eq_ok_iff.1 h
  cases h
  obtain ⟨hlow, hhigh⟩ := (Check.inRange_eq_ok_iff _ _ _ _).1 hrange
  have hbyte : ((UInt8.ofInt value.toInt).toNat : Int) = value.toInt := toNat_ofInt hlow hhigh
  have hvalue : Int32.ofNat (UInt8.ofInt value.toInt).toNat = value := by
    apply Int32.toInt_inj.1
    rw [Int32.toInt_ofNat_of_lt (by omega)]
    exact hbyte
  exact ⟨rfl, congrArg (fun v => some (Operand.literal v)) hvalue⟩

theorem Form.ofOperand_eq_ok {mnemonic : String} {mode : Mode} {operand : Option Operand} {form : Form}
    (h : ofOperand mnemonic mode operand = .ok form) : form.mode = mode ∧ form.operand = operand := by
  unfold ofOperand at h
  split at h
  case h_3 value => exact ofImmediate_eq_ok h
  all_goals
    cases h
    try exact ⟨rfl, rfl⟩

namespace Call

/-- the items of a label or an emit are legible, and tell what was emitted -/
theorem items_of_isSymbolic {call : Call} {items : List Item} (hs : call.isSymbolic)
    (h : call.items .mos6502 = .ok items) :
    (∀ item ∈ items, item.Legible) ∧ items.filterMap Item.emission? = call.emission?.toList := by
  cases call with
  | label name =>
    cases h
    exact ⟨fun item hm => by cases List.mem_singleton.1 hm; trivial, rfl⟩
  | emit mnemonic mode operand =>
    rw [Call.items] at h
    cases hlookup : InstructionSet.mos6502.lookup mnemonic mode with
    | none => rw [hlookup] at h; cases h
    | some opcode =>
      rw [hlookup] at h
      obtain ⟨form, hform, h⟩ := bind_eq_ok_iff.1 h
      cases h
      obtain ⟨rfl, rfl⟩ := Form.ofOperand_eq_ok hform
      exact ⟨fun item hm => by cases List.mem_singleton.1 hm; exact hlookup, rfl⟩
  | _ => cases hs

theorem legible_added {call : Call} (hs : call.isSymbolic) : ∀ item ∈ call.added, item.Legible := by
  cases hi : call.items .mos6502 with
  | ok items =>
    rw [added_eq hi]
    exact (items_of_isSymbolic hs hi).1
  | error fault =>
    intro item hm
    rw [added, hi] at hm
    cases hm

theorem emissions_singleton {call : Call} {program : Program} (hs : call.isSymbolic)
    (ho : program.opcodes = .mos6502) : emissions [call] program = call.added.filterMap Item.emission? := by
  rw [emissions, run_eq, ho]
  cases hi : call.items .mos6502 with
  | ok items =>
    rw [added_eq hi, (items_of_isSymbolic hs hi).2]
    exact List.append_nil _
  | error fault =>
    rw [added, hi]
    rfl

theorem emissions_eq {calls : List Call} {program : Program} (ho : program.opcodes = .mos6502)
    (hs : ∀ call ∈ calls, call.isSymbolic) (h : ∀ call ∈ calls, ∃ items, call.items .mos6502 = .ok items) :
    emissions calls program = (calls.flatMap added).filterMap Item.emission? := by
  induction calls generalizing program with
  | nil => rfl
  | cons call calls ih =>
    obtain ⟨items, hi⟩ := h call List.mem_cons_self
    have hrest := ih ((Program.opcodes_appendAll program items).trans ho)
      (fun c hc => hs c (List.mem_cons_of_mem _ hc)) fun c hc => h c (List.mem_cons_of_mem _ hc)
    rw [emissions, run_eq, ho, hi]
    simp only
    rw [hrest, List.flatMap_cons, List.filterMap_append, added_eq hi,
      (items_of_isSymbolic (hs call List.mem_cons_self) hi).2]

end Call

namespace Console

theorem Routine.isSymbolic_of_mem {routine : Routine} {call : Call} (h : call ∈ routine.calls) :
    call.isSymbolic := by
  have hall : routine.calls.all Call.isSymbolic = true := by cases routine <;> rfl
  exact List.all_eq_true.1 hall call h

theorem Step.legible_added {step : Step} (hs : step.isSymbolic) : ∀ item ∈ step.added, item.Legible := by
  cases step with
  | call single => exact Call.legible_added hs
  | routine piece =>
    intro item hm
    obtain ⟨call, hcall, hm⟩ := List.mem_flatMap.1 hm
    exact Call.legible_added (Routine.isSymbolic_of_mem hcall) item hm

theorem Step.emissions_eq {step : Step} {program : Program} (hs : step.isSymbolic) (ho : program.opcodes = .mos6502) :
    step.emissions program = step.added.filterMap Item.emission? := by
  cases step with
  | call single => exact Call.emissions_singleton hs ho
  | routine piece => exact Call.emissions_eq ho (fun _ hc => Routine.isSymbolic_of_mem hc) piece.calls_succeed

theorem emissionsFrom_eq {steps : List Step} {program : Program} (hs : ∀ step ∈ steps, step.isSymbolic)
    (ho : program.opcodes = .mos6502) :
    emissionsFrom program steps = (itemsOf steps).filterMap Item.emission? := by
  induction steps generalizing program with
  | nil => rfl
  | cons step steps ih =>
    have hnext : (step.advance program).opcodes = .mos6502 := by
      rw [step.advance_eq program ho]
      exact (Program.opcodes_appendAll program step.added).trans ho
    rw [emissionsFrom, Step.emissions_eq (hs step List.mem_cons_self) ho,
      ih (fun s hm => hs s (List.mem_cons_of_mem _ hm)) hnext, ← List.filterMap_append]
    rfl

theorem legible_itemsOf {steps : List Step} (hs : ∀ step ∈ steps, step.isSymbolic) :
    ∀ item ∈ itemsOf steps, item.Legible := by
  intro item hm
  obtain ⟨step, hstep, hm⟩ := List.mem_flatMap.1 hm
  exact Step.legible_added (hs step hstep) item hm

end Console

/-! ## Images -/

/-- the image of a compiled program begins with the code of its items -/
theorem take_image {items : List Item} {cartridge : Cartridge} {origin : Nat} {labels : Labels} {code : List UInt8}
    {image : Array UInt8} (ho : cartridge.origin = .ok origin)
    (hf : cartridge.ensureFits (totalSize items) = .ok ()) (hc : encodeFrom labels origin items = .ok code)
    (hp : cartridge.pack (totalSize items) (Memory.store ∅ origin code) = .ok image) :
    totalSize items ≤ image.size ∧ image.toList.take (totalSize items) = code := by
  obtain ⟨packed, hpacked, hsize, hbytes⟩ := Cartridge.pack_eq_ok ho hf fun address hm => mem_store_code hf hc hm
  rw [hp] at hpacked
  cases hpacked
  have hroom : totalSize items ≤ cartridge.room := Cartridge.ensureFits_eq_ok_iff.1 hf
  have hcap : cartridge.room ≤ cartridge.capacity := Nat.sub_le _ _
  have hlen := encodeFrom_length hc
  refine ⟨by omega, List.ext_getElem? fun k => ?_⟩
  rw [List.getElem?_take]
  by_cases hk : k < totalSize items
  · rw [if_pos hk, Array.getElem?_toList, hbytes k (by omega), Memory.getElem?_store_empty,
      List.getElem?_eq_getElem (by omega)]
    rfl
  · rw [if_neg hk, List.getElem?_eq_none (by omega)]

namespace Console

/-- **Disassembling undoes assembling.** If a program is built by labels, emits and routines, then the first bytes of
its image, as many as the program is long, read back as everything that was emitted, operands with their values. -/
theorem disassemble_image (steps : List Step) (hs : ∀ step ∈ steps, step.isSymbolic) (cartridge : Cartridge)
    (trace after : List Event) (assembly : Assembly)
    (h : (build steps).compile cartridge trace = .ok assembly after) :
    ∃ length readings, (build steps).length = .ok length ∧ length ≤ assembly.image.size ∧
      (emissions steps).mapM (Emission.reading assembly.labels) = .ok readings ∧
      disassemble .mos6502 assembly.origin (assembly.image.toList.take length) = .ok readings := by
  rw [build_eq] at h ⊢
  obtain ⟨code, ho, hf, _, _, hc, hbytes, hp⟩ := compile_inv h
  rw [hbytes] at hp
  obtain ⟨hsize, htake⟩ := take_image ho hf hc hp
  obtain ⟨readings, hread, hdis⟩ := disassemble_encodeFrom (legible_itemsOf hs) hc
  refine ⟨totalSize (itemsOf steps), readings, length_of_fits ho hf, hsize, ?_, ?_⟩
  · rw [emissions, emissionsFrom_eq hs rfl]
    exact hread
  · rw [htake]
    exact hdis

/-- a countdown with a routine inside, a failing call, a branch back and a jump ahead -/
def countdown : List Step :=
  [.call (Call.ldxImmediate 5), .call (.label "loop"), .routine .lineSync, .call Call.dex,
    .call (.emit "DEX" .immediate none), .call (Call.bne (.label "loop")), .call (Call.jmpAbsolute (.label "end")),
    .call (.label "end")]

theorem disassemble_countdown :
    (∀ step ∈ countdown, step.isSymbolic) ∧
    ∃ assembly after, (build countdown).compile ⟨32, 32⟩ [] = .ok assembly after ∧
      ∃ length, (build countdown).length = .ok length ∧
        disassemble .mos6502 assembly.origin (assembly.image.toList.take length) =
          .ok [⟨"LDX", .immediate, some 5⟩, ⟨"STA", .zeroPage .none, some 2⟩, ⟨"DEX", .implied, none⟩,
            ⟨"BNE", .relative, some 0xFFE2⟩, ⟨"JMP", .absolute .none, some 0xFFEA⟩] := by
  have hs : ∀ step ∈ countdown, step.isSymbolic := by decide
  have ho : Cartridge.origin ⟨32, 32⟩ = .ok 0xFFE0 := rfl
  have hd : (labelNames (itemsOf countdown)).Nodup := by decide
  have hc : encodeFrom ⟨labelsFrom 0xFFE0 (itemsOf countdown)⟩ 0xFFE0 (itemsOf countdown) =
      .ok [0xA2, 5, 0x85, 2, 0xCA, 0xD0, 0xFB, 0x4C, 0xEA, 0xFF] := rfl
  obtain ⟨image, listing, _, h⟩ := compile_ofItems ho rfl hd hc []
  rw [← build_eq] at h
  obtain ⟨length, readings, hlength, _, hread, hdis⟩ := disassemble_image countdown hs _ _ _ _ h
  have hvalues : (emissions countdown).mapM (Emission.reading ⟨labelsFrom 0xFFE0 (itemsOf countdown)⟩) =
      .ok [⟨"LDX", .immediate, some 5⟩, ⟨"STA", .zeroPage .none, some 2⟩, ⟨"DEX", .implied, none⟩,
        ⟨"BNE", .relative, some 0xFFE2⟩, ⟨"JMP", .absolute .none, some 0xFFEA⟩] := rfl
  cases hread.symm.trans hvalues
  exact ⟨hs, _, _, h, length, hlength, hdis⟩

end Console

end Asm6502
