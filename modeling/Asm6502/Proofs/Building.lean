/-
Building as appending items.

Whatever is called, and in whatever order, a program under construction only ever grows by items at its end.
`Call.items` says which items a call appends, or why it fails; a failing call appends nothing, and a frame routine never
fails.

- `run_eq`: a call appends its items and gives the position of the first new node, or fails and changes nothing.
- `Routine.run_eq`: a routine appends the items of its calls.
- `Step.runAll_eq`: steps that all succeed append the items of all of them.
- `build_eq`: the program that a list of steps leaves is the empty program with the items of the steps appended.
-/
import Asm6502.Console.Step
import Asm6502.Proofs.Flat

namespace Asm6502

/-! ## Appending -/

namespace Program

def appendAll (program : Program) (items : List Item) : Program :=
  items.foldl append program

def ofItems (items : List Item) : Program :=
  new.appendAll items

theorem appendAll_append (program : Program) (before after : List Item) :
    program.appendAll (before ++ after) = (program.appendAll before).appendAll after := by
  simp [appendAll]

theorem opcodes_append (program : Program) (item : Item) : (program.append item).opcodes = program.opcodes := by
  cases item <;> rfl

theorem opcodes_appendAll (program : Program) (items : List Item) :
    (program.appendAll items).opcodes = program.opcodes := by
  induction items generalizing program with
  | nil => rfl
  | cons item items ih => exact (ih (program.append item)).trans (opcodes_append program item)

end Program

/-! ## Calls -/

namespace Call

/-- the items that a call appends when opcodes are taken from the given instruction set, or why it fails -/
def items (opcodes : InstructionSet) : Call → Except Fault (List Item)
  | .label name => .ok [.label name]
  | .data name values => .ok (.label name :: values.map .data)
  | .implied mnemonic opcode => .ok [.instruction mnemonic opcode .implied]
  | .accumulator mnemonic opcode => .ok [.instruction mnemonic opcode .accumulator]
  | .immediate mnemonic opcode value => do
    let form ← Form.ofImmediate value
    pure [.instruction mnemonic opcode form]
  | .zeroPage index mnemonic opcode operand => .ok [.instruction mnemonic opcode (.zeroPage index operand)]
  | .absolute index mnemonic opcode operand => .ok [.instruction mnemonic opcode (.absolute index operand)]
  | .relative mnemonic opcode operand => .ok [.instruction mnemonic opcode (.relative operand)]
  | .emit mnemonic mode operand =>
    match opcodes.lookup mnemonic mode with
    | none => .error (.unknownOpcode mnemonic mode)
    | some opcode => do
      let form ← Form.ofOperand mnemonic mode operand
      pure [.instruction mnemonic opcode form]

/-- what a call adds to a 6502 program: its items, or nothing if it fails -/
def added (call : Call) : List Item :=
  match call.items .mos6502 with
  | .ok items => items
  | .error _ => []

theorem added_eq {call : Call} {items : List Item} (h : call.items .mos6502 = .ok items) : call.added = items := by
  rw [added, h]

theorem appendData_eq (program : Program) (name : String) (values : List UInt8) :
    Builder.appendData name values program =
      .ok program.tree.size (program.appendAll (.label name :: values.map .data)) := by
  have h : ∀ (values : List UInt8) (program : Program),
      values.foldl (fun program value => program.append (.data value)) program =
        program.appendAll (values.map .data) := by
    intro values program
    rw [Program.appendAll, List.foldl_map]
  simp only [Builder.appendData, run_bind]
  exact congrArg (EStateM.Result.ok _) (h values _)

theorem run_eq (call : Call) (program : Program) :
    call.run program = match call.items program.opcodes with
      | .ok items => .ok program.tree.size (program.appendAll items)
      | .error fault => .error fault program := by
  cases call with
  | data name values => exact appendData_eq program name values
  | immediate mnemonic opcode value =>
    simp only [run, items, run_bind]
    cases Form.ofImmediate value <;> rfl
  | emit mnemonic mode operand =>
    have h : (emit mnemonic mode operand).run program =
        (match program.opcodes.lookup mnemonic mode with
        | none => throw (.unknownOpcode mnemonic mode)
        | some opcode => do
          let form ← Form.ofOperand mnemonic mode operand
          Builder.append (.instruction mnemonic opcode form) : Builder Nat) program := rfl
    rw [h, items]
    cases program.opcodes.lookup mnemonic mode with
    | none => rfl
    | some opcode =>
      simp only [run_bind]
      cases Form.ofOperand mnemonic mode operand <;> rfl
  | _ => rfl

theorem runAll_eq (calls : List Call) (program : Program) (ho : program.opcodes = .mos6502)
    (h : ∀ call ∈ calls, ∃ items, call.items .mos6502 = .ok items) :
    runAll (calls.map .ok) program = .ok () (program.appendAll (calls.flatMap added)) := by
  induction calls generalizing program with
  | nil => rfl
  | cons call calls ih =>
    obtain ⟨items, hi⟩ := h call List.mem_cons_self
    rw [List.map_cons, runAll, lift_ok, pure_bind, run_bind, run_eq, ho, hi]
    simp only
    rw [ih _ ((Program.opcodes_appendAll program items).trans ho) fun c hc => h c (List.mem_cons_of_mem _ hc),
      List.flatMap_cons, added_eq hi, Program.appendAll_append]

end Call

/-! ## Routines and steps -/

namespace Console

/-- the calls of a routine, with its binary literals read; `script_eq` says that none is lost -/
def Routine.calls (routine : Routine) : List Call :=
  routine.script.filterMap Except.toOption

/-- the binary literals of the routines are well written -/
theorem Routine.script_eq (routine : Routine) : routine.script = routine.calls.map .ok := by
  cases routine <;> rfl

theorem Routine.calls_succeed (routine : Routine) :
    ∀ call ∈ routine.calls, ∃ items, call.items .mos6502 = .ok items := by
  have h : ∀ calls : List Call, (calls.all fun call => (call.items .mos6502).isOk) = true →
      ∀ call ∈ calls, ∃ items, call.items .mos6502 = .ok items := by
    intro calls hc call hm
    have := List.all_eq_true.1 hc call hm
    cases hi : call.items .mos6502 with
    | ok items => exact ⟨items, rfl⟩
    | error fault => rw [hi] at this; cases this
  apply h
  cases routine <;> rfl

def Routine.added (routine : Routine) : List Item :=
  routine.calls.flatMap Call.added

theorem Routine.run_eq (routine : Routine) (program : Program) (h : program.opcodes = .mos6502) :
    routine.run program = .ok () (program.appendAll routine.added) := by
  rw [run, script_eq]
  exact Call.runAll_eq routine.calls program h routine.calls_succeed

/-- the items that a step appends; a failing call appends none -/
def Step.added : Step → List Item
  | .call single => single.added
  | .routine piece => piece.added

/-- the items of a program that is built by the given steps, in the order of the steps -/
def itemsOf (steps : List Step) : List Item :=
  steps.flatMap Step.added

theorem Step.advance_eq (step : Step) (program : Program) (h : program.opcodes = .mos6502) :
    step.advance program = program.appendAll step.added := by
  cases step with
  | call single =>
    simp only [advance, run, run_bind, Call.run_eq, h, added, Call.added]
    cases single.items .mos6502 <;> rfl
  | routine piece =>
    simp only [advance, run, run_bind, Routine.run_eq piece program h]
    rfl

/-- the step does not fail in a 6502 program -/
def Step.Succeeds : Step → Prop
  | .call single => ∃ items, single.items .mos6502 = .ok items
  | .routine _ => True

theorem Step.run_of_succeeds {step : Step} {program : Program} (ho : program.opcodes = .mos6502) (h : step.Succeeds) :
    ∃ id, step.run program = .ok id (program.appendAll step.added) := by
  cases step with
  | call single =>
    obtain ⟨items, hi⟩ := h
    refine ⟨some program.tree.size, ?_⟩
    simp only [run, run_bind, Call.run_eq, ho, hi, added, Call.added]
    rfl
  | routine piece =>
    refine ⟨none, ?_⟩
    simp only [run, run_bind, piece.run_eq program ho]
    rfl

theorem Step.runAll_eq (steps : List Step) (program : Program) (ho : program.opcodes = .mos6502)
    (h : ∀ step ∈ steps, step.Succeeds) : runAll steps program = .ok () (program.appendAll (itemsOf steps)) := by
  induction steps generalizing program with
  | nil => rfl
  | cons step steps ih =>
    have hnext := ih _ ((Program.opcodes_appendAll program step.added).trans ho)
      fun other hm => h other (List.mem_cons_of_mem _ hm)
    obtain ⟨id, hstep⟩ := Step.run_of_succeeds ho (h step List.mem_cons_self)
    rw [runAll, run_bind, hstep]
    simp only
    rw [hnext, ← Program.appendAll_append]
    rfl

/-- **Building is appending.** -/
theorem build_eq (steps : List Step) : build steps = Program.ofItems (itemsOf steps) := by
  have h : ∀ (steps : List Step) (program : Program), program.opcodes = .mos6502 →
      steps.foldl Step.advance program = program.appendAll (itemsOf steps) := by
    intro steps
    induction steps with
    | nil => exact fun _ _ => rfl
    | cons step steps ih =>
      intro program ho
      rw [List.foldl_cons, step.advance_eq program ho, ih _ ((Program.opcodes_appendAll program _).trans ho),
        ← Program.appendAll_append]
      rfl
  exact h steps Program.new rfl

end Console

end Asm6502
