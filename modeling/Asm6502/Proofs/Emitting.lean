/-
Looked-up instructions: exact, and all or nothing.

`emit` takes the opcode from the program's instruction set and then does what the direct call of the mode does with that
opcode. Three things can be wrong, in this order: there is no opcode, the operand is not of the sort that the mode
takes, or a literal byte does not fit a byte. Then nothing is appended. What the look-up gives in a program for the 6502
is said with the rows of the tables in `InstructionSet.lookup_eq_some_iff` and `lookup_eq_none_iff`.

- `Mode.Misfits`: the sorts of operand that a mode refuses.
- `Call.Direct`: the call that appends an instruction of a mode with a given opcode.
- `run_emit_of_direct`: with the looked-up opcode, `emit` is the direct call, whether that succeeds or fails.
- `toList_append_instruction`: the array after an instruction was appended. The root gets one child, and no other node
  changes.
- `Emitted`: every way in which `emit` can end, with the program that it leaves; `run_emit_iff`: it ends in just these.
-/
import Asm6502.Proofs.Disassembly
import Asm6502.Proofs.Representation

namespace Asm6502

/-! ## Operands and modes -/

/-- the operand is not of the sort that the mode takes: one where there must be none, none where there must be one, or a
label where a literal byte is written -/
def Mode.Misfits (mode : Mode) (operand : Option Operand) : Prop :=
  ((mode = .implied ∨ mode = .accumulator) ∧ operand ≠ none) ∨
    (mode ≠ .implied ∧ mode ≠ .accumulator ∧ operand = none) ∨
    (mode = .immediate ∧ ∃ name, operand = some (.label name))

/-- the call that appends an instruction of the mode with a given opcode -/
inductive Call.Direct (mnemonic : String) (opcode : UInt8) : Mode → Option Operand → Call → Prop where
  | implied : Direct mnemonic opcode .implied none (.implied mnemonic opcode)
  | accumulator : Direct mnemonic opcode .accumulator none (.accumulator mnemonic opcode)
  | immediate (value : Int32) :
      Direct mnemonic opcode .immediate (some (.literal value)) (.immediate mnemonic opcode value)
  | zeroPage (index : Index) (operand : Operand) :
      Direct mnemonic opcode (.zeroPage index) (some operand) (.zeroPage index mnemonic opcode operand)
  | absolute (index : Index) (operand : Operand) :
      Direct mnemonic opcode (.absolute index) (some operand) (.absolute index mnemonic opcode operand)
  | relative (operand : Operand) :
      Direct mnemonic opcode .relative (some operand) (.relative mnemonic opcode operand)

/-- a mode refuses an operand for its sort or, being a literal byte, for its value, or takes it -/
theorem Mode.misfits_or_takes (mode : Mode) (operand : Option Operand) :
    mode.Misfits operand ∨
      (∃ value : Int32, mode = .immediate ∧ operand = some (.literal value) ∧
        ¬ (0 ≤ value.toInt ∧ value.toInt ≤ 0xFF)) ∨
      ∃ parts, mode.Takes operand parts := by
  cases operand with
  | none =>
    cases mode with
    | implied => exact .inr (.inr ⟨_, .implied⟩)
    | accumulator => exact .inr (.inr ⟨_, .accumulator⟩)
    | _ => exact .inl (.inr (.inl ⟨nofun, nofun, rfl⟩))
  | some written =>
    cases mode with
    | implied => exact .inl (.inl ⟨.inl rfl, nofun⟩)
    | accumulator => exact .inl (.inl ⟨.inr rfl, nofun⟩)
    | immediate =>
      cases written with
      | literal value =>
        by_cases hrange : 0 ≤ value.toInt ∧ value.toInt ≤ 0xFF
        · exact .inr (.inr ⟨_, .immediate value hrange⟩)
        · exact .inr (.inl ⟨value, rfl, rfl, hrange⟩)
      | label name => exact .inl (.inr (.inr ⟨rfl, name, rfl⟩))
    | zeroPage index => exact .inr (.inr ⟨_, .zeroPage index written⟩)
    | absolute index => exact .inr (.inr ⟨_, .absolute index written⟩)
    | relative => exact .inr (.inr ⟨_, .relative written⟩)

theorem Mode.Takes.direct {mode : Mode} {operand : Option Operand} {parts : List Kind} (h : mode.Takes operand parts)
    (mnemonic : String) (opcode : UInt8) : ∃ call, Call.Direct mnemonic opcode mode operand call := by
  cases h with
  | implied => exact ⟨_, .implied⟩
  | accumulator => exact ⟨_, .accumulator⟩
  | immediate value _ => exact ⟨_, .immediate value⟩
  | zeroPage index operand => exact ⟨_, .zeroPage index operand⟩
  | absolute index operand => exact ⟨_, .absolute index operand⟩
  | relative operand => exact ⟨_, .relative operand⟩

/-- the form of an operand that the mode takes -/
theorem Mode.Takes.form {mode : Mode} {operand : Option Operand} {parts : List Kind} (h : mode.Takes operand parts)
    (mnemonic : String) :
    ∃ form, Form.ofOperand mnemonic mode operand = .ok form ∧ form.mode = mode ∧ form.operand = operand ∧
      form.parts = parts := by
  cases h with
  | implied => exact ⟨.implied, rfl, rfl, rfl, rfl⟩
  | accumulator => exact ⟨.accumulator, rfl, rfl, rfl, rfl⟩
  | immediate value hrange =>
    have hform : Form.ofImmediate value = .ok (.immediate (UInt8.ofInt value.toInt)) := by
      rw [Form.ofImmediate, Check.inRange_eq_ok hrange]
      rfl
    exact ⟨_, hform, rfl, (Form.ofImmediate_eq_ok hform).2, rfl⟩
  | zeroPage index operand => exact ⟨.zeroPage index operand, rfl, rfl, rfl, rfl⟩
  | absolute index operand => exact ⟨.absolute index operand, rfl, rfl, rfl, rfl⟩
  | relative operand => exact ⟨.relative operand, rfl, rfl, rfl, rfl⟩

theorem Form.ofOperand_of_misfits {mode : Mode} {operand : Option Operand} (h : mode.Misfits operand)
    (mnemonic : String) : ofOperand mnemonic mode operand = .error (.invalidOperand mnemonic mode) := by
  rcases h with ⟨rfl | rfl, hsome⟩ | ⟨himplied, haccumulator, rfl⟩ | ⟨rfl, name, rfl⟩
  · cases operand with
    | none => exact absurd rfl hsome
    | some written => rfl
  · cases operand with
    | none => exact absurd rfl hsome
    | some written => rfl
  · cases mode with
    | implied => exact absurd rfl himplied
    | accumulator => exact absurd rfl haccumulator
    | _ => rfl
  · rfl

/-! ## The three faults -/

section Faults

variable {program : Program} {mnemonic : String} {mode : Mode} {operand : Option Operand}

theorem run_emit_unknown (h : program.opcodes.lookup mnemonic mode = none) :
    (Call.emit mnemonic mode operand).run program = .error (.unknownOpcode mnemonic mode) program := by
  simp only [Call.run_eq, Call.items, h]

theorem run_emit_misfit {opcode : UInt8} (ho : program.opcodes.lookup mnemonic mode = some opcode)
    (h : mode.Misfits operand) :
    (Call.emit mnemonic mode operand).run program = .error (.invalidOperand mnemonic mode) program := by
  simp only [Call.run_eq, Call.items, ho, Form.ofOperand_of_misfits h, error_bind]

/-- with the opcode looked up, the instruction is appended by the direct call of its mode -/
theorem run_emit_of_direct {opcode : UInt8} {call : Call} (ho : program.opcodes.lookup mnemonic mode = some opcode)
    (hd : Call.Direct mnemonic opcode mode operand call) :
    (Call.emit mnemonic mode operand).run program = call.run program := by
  simp only [Call.run_eq, Call.items, ho]
  cases hd <;> rfl

theorem run_immediate_outOfRange {opcode : UInt8} {value : Int32} (h : ¬ (0 ≤ value.toInt ∧ value.toInt ≤ 0xFF)) :
    (Call.immediate mnemonic opcode value).run program =
      .error (.outOfRange "immediate value" value.toInt 0 0xFF) program := by
  simp only [Call.run_eq, Call.items, Form.ofImmediate, Check.inRange_eq_error h, error_bind]

end Faults

/-! ## What is appended -/

/-- the nodes of an instruction whose own node is at `position` -/
def instructionNodes (position : Nat) (mnemonic : String) (mode : Mode) (opcode : UInt8) (operand : Option Operand)
    (parts : List Kind) : List Node :=
  ⟨some 0, none, 1, .instruction mnemonic mode opcode operand, (List.range' (position + 1) parts.length).toArray⟩ ::
    parts.map (partNode position)

theorem toList_append_instruction (program : Program) (mnemonic : String) (opcode : UInt8) (form : Form) :
    (program.append (.instruction mnemonic opcode form)).tree.nodes.toList =
      program.tree.nodes.toList.modify 0 (·.withChildren [program.tree.size]) ++
        instructionNodes program.tree.size mnemonic form.mode opcode form.operand form.parts := by
  let node : Node := ⟨some 0, none, 1, .instruction mnemonic form.mode opcode form.operand, #[]⟩
  let old := program.tree.nodes.toList.modify 0 (·.withChildren [program.tree.size])
  have hlen : old.length = program.tree.size := by simp [old]
  have hpush : (program.tree.push program.tree.root none 1 node.kind).nodes.toList = old ++ [node] :=
    Tree.toList_push program.tree program.tree.root none 1 node.kind
  have hlast := modify_last (·.withChildren (List.range' (program.tree.size + 1) form.parts.length)) old node
  rw [hlen] at hlast
  -- the operand bytes go below the node that was pushed last
  rw [Program.tree_append, Tree.toList_pushParts]
  simp only [Item.name?, Item.ownLength, Item.kind, Item.parts, Tree.size_push]
  rw [hpush, hlast, List.append_assoc]
  simp [instructionNodes, node, old, Node.withChildren]

/-! ## All endings -/

section Endings

variable (program : Program) (mnemonic : String) (mode : Mode) (operand : Option Operand)

theorem run_emit_takes {opcode : UInt8} {parts : List Kind} (ho : program.opcodes.lookup mnemonic mode = some opcode)
    (ht : mode.Takes operand parts) :
    ∃ after, (Call.emit mnemonic mode operand).run program = .ok program.tree.size after ∧
      after.opcodes = program.opcodes ∧
      after.tree.nodes.toList = program.tree.nodes.toList.modify 0 (·.withChildren [program.tree.size]) ++
        instructionNodes program.tree.size mnemonic mode opcode operand parts := by
  obtain ⟨form, hform, rfl, rfl, rfl⟩ := ht.form mnemonic
  refine ⟨program.append (.instruction mnemonic opcode form), ?_, Program.opcodes_append _ _,
    toList_append_instruction program mnemonic opcode form⟩
  simp only [Call.run_eq, Call.items, ho, hform, ok_bind]
  rfl

/-- how `emit` ends; the faults leave the program as it was -/
inductive Emitted : EStateM.Result Fault Program Nat → Prop where
  | unknown (h : program.opcodes.lookup mnemonic mode = none) :
      Emitted (.error (.unknownOpcode mnemonic mode) program)
  | misfit {opcode : UInt8} (ho : program.opcodes.lookup mnemonic mode = some opcode) (h : mode.Misfits operand) :
      Emitted (.error (.invalidOperand mnemonic mode) program)
  | outOfRange {opcode : UInt8} {value : Int32} (ho : program.opcodes.lookup mnemonic mode = some opcode)
      (hm : mode = .immediate) (hv : operand = some (.literal value))
      (h : ¬ (0 ≤ value.toInt ∧ value.toInt ≤ 0xFF)) :
      Emitted (.error (.outOfRange "immediate value" value.toInt 0 0xFF) program)
  /-- what is appended is what the direct call appends, and the root is the only old node that changes -/
  | appended {opcode : UInt8} {call : Call} {parts : List Kind} {after : Program}
      (ho : program.opcodes.lookup mnemonic mode = some opcode)
      (hd : Call.Direct mnemonic opcode mode operand call) (ht : mode.Takes operand parts)
      (hrun : call.run program = .ok program.tree.size after) (hopcodes : after.opcodes = program.opcodes)
      (hnodes : after.tree.nodes.toList = program.tree.nodes.toList.modify 0 (·.withChildren [program.tree.size]) ++
        instructionNodes program.tree.size mnemonic mode opcode operand parts) :
      Emitted (.ok program.tree.size after)

/-- **`emit` is exact, and all or nothing**, for every program, mnemonic, mode and operand: it ends as one rule of
`Emitted` says, and as no other. -/
theorem run_emit_iff (result : EStateM.Result Fault Program Nat) :
    (Call.emit mnemonic mode operand).run program = result ↔ Emitted program mnemonic mode operand result := by
  constructor
  · rintro rfl
    cases ho : program.opcodes.lookup mnemonic mode with
    | none =>
      rw [run_emit_unknown ho]
      exact .unknown ho
    | some opcode =>
      rcases mode.misfits_or_takes operand with h | ⟨value, rfl, rfl, h⟩ | ⟨parts, ht⟩
      · rw [run_emit_misfit ho h]
        exact .misfit ho h
      · rw [run_emit_of_direct ho (.immediate value), run_immediate_outOfRange h]
        exact .outOfRange ho rfl rfl h
      · obtain ⟨call, hd⟩ := ht.direct mnemonic opcode
        obtain ⟨after, hrun, hopcodes, hnodes⟩ := run_emit_takes program mnemonic mode operand ho ht
        rw [hrun]
        rw [run_emit_of_direct ho hd] at hrun
        exact .appended ho hd ht hrun hopcodes hnodes
  · intro h
    cases h with
    | unknown h => exact run_emit_unknown h
    | misfit ho h => exact run_emit_misfit ho h
    | outOfRange ho hm hv h =>
      subst hm hv
      rw [run_emit_of_direct ho (.immediate _)]
      exact run_immediate_outOfRange h
    | appended ho hd ht hrun _ _ => exact (run_emit_of_direct ho hd).trans hrun

end Endings

/-- an instruction with a literal byte in the empty program; a literal that is no byte, a label for the byte, and a
branch mode that no row of the tables has for this mnemonic -/
theorem run_emit_iff_lda :
    (∃ after, (Call.emit "LDA" .immediate (some (.literal 5))).run .new = .ok 1 after ∧
      after.tree.nodes = #[⟨none, none, 0, .root, #[1]⟩,
        ⟨some 0, none, 1, .instruction "LDA" .immediate 0xA9 (some (.literal 5)), #[2]⟩,
        ⟨some 1, none, 1, .immediate 5, #[]⟩]) ∧
    (Call.emit "LDA" .immediate (some (.literal 256))).run .new =
      .error (.outOfRange "immediate value" 256 0 0xFF) .new ∧
    (Call.emit "LDA" .immediate (some (.label "five"))).run .new = .error (.invalidOperand "LDA" .immediate) .new ∧
    (Call.emit "LDA" .relative (some (.label "five"))).run .new = .error (.unknownOpcode "LDA" .relative) .new := by
  have hrow : Program.new.opcodes.lookup "LDA" .immediate = some 0xA9 :=
    InstructionSet.lookup_eq_some_iff.2 (by decide +kernel)
  have hnone : Program.new.opcodes.lookup "LDA" .relative = none :=
    InstructionSet.lookup_eq_none_iff.2 (by decide +kernel)
  refine ⟨⟨.append .new (.instruction "LDA" 0xA9 (.immediate 5)), ?_, by decide +kernel⟩, ?_, ?_, ?_⟩
  · exact (run_emit_iff _ _ _ _ _).2 (.appended hrow (.immediate 5) (.immediate 5 (by decide)) rfl rfl
      (by decide +kernel))
  · exact (run_emit_iff _ _ _ _ _).2 (.outOfRange hrow rfl rfl (by decide))
  · exact (run_emit_iff _ _ _ _ _).2 (.misfit hrow (.inr (.inr ⟨rfl, _, rfl⟩)))
  · exact (run_emit_iff _ _ _ _ _).2 (.unknown hnone)

end Asm6502
