/-
Label names do not matter.

A renaming changes every label of a tree and every operand that is a label. If it keeps different names different, a
renamed program compiles just as the program does: the same origin, bytes and image, the same addresses in the same
order, the same fault with the name in it changed. The listing alone differs, since it shows the names.

- `rename`: for each part of a program, and for what the passes hand on: labels, reports, faults.
- `Follows`: a run does what another run does, on a renamed state and with a renamed fault. It is closed under
  sequencing, so each pass follows from its steps.
- `Node.layout_follows`, `Node.resolve_follows`: the steps. `Forest.layout_follows`, `Forest.resolve_follows`: the
  walks.
- `AgreeUpTo`: two compilations agree up to names. `compile_rename`: those of a program and the renamed program do.
-/
import Asm6502.Proofs.Compilation

namespace Asm6502

/-! ## Renaming -/

section Rename

variable (f : String → String)

/-- the operand with its label renamed; literals stay -/
def Operand.rename : Operand → Operand
  | .literal value => .literal value
  | .label name => .label (f name)

/-- the same sort of node with the labels in it renamed; mnemonics stay -/
def Kind.rename : Kind → Kind
  | .instruction mnemonic mode opcode operand => .instruction mnemonic mode opcode (operand.map (Operand.rename f))
  | .zeroPage operand => .zeroPage (operand.rename f)
  | .absoluteLow operand => .absoluteLow (operand.rename f)
  | .absoluteHigh operand => .absoluteHigh (operand.rename f)
  | .branchOffset operand => .branchOffset (operand.rename f)
  | kind => kind

def Node.rename (node : Node) : Node :=
  { node with label := node.label.map f, kind := node.kind.rename f }

def Forest.rename : Forest → Forest
  | .nil => .nil
  | .cons id node children rest => .cons id (node.rename f) children.rename rest.rename

def Tree.rename (tree : Tree) : Tree where
  nodes := tree.nodes.map (Node.rename f)
  nonempty := by simpa using tree.nonempty
  ordered := by
    intro id h child hc
    rw [Array.size_map] at h ⊢
    rw [Array.getElem_map] at hc
    exact tree.ordered id h child hc

/-- the program with all labels and all operands that are labels renamed -/
def Program.rename (program : Program) : Program :=
  { program with tree := program.tree.rename f }

/-- the same addresses in the same order under other names -/
def Labels.rename (labels : Labels) : Labels :=
  ⟨labels.entries.map fun entry => (f entry.1, entry.2)⟩

def Event.rename : Event → Event
  | .bound label address => .bound (f label) address
  | .reached label address => .reached (f label) address
  | event => event

def Fault.rename : Fault → Fault
  | .duplicateLabel name => .duplicateLabel (f name)
  | .undefinedLabel name => .undefinedLabel (f name)
  | fault => fault

def Bindings.rename (found : Bindings) : Bindings :=
  ⟨found.labels.rename f, found.trace.map (Event.rename f)⟩

def Resolution.rename (stored : Resolution) : Resolution :=
  { stored with trace := stored.trace.map (Event.rename f) }

end Rename

/-! ## Runs that follow each other -/

section Follows

variable {σ α β : Type}

/-- the result with its fault and its state renamed -/
def renameResult (f : String → String) (rename : σ → σ) : EStateM.Result Fault σ α → EStateM.Result Fault σ α
  | .ok a s => .ok a (rename s)
  | .error fault s => .error (fault.rename f) (rename s)

/-- the second run does on a renamed state what the first does: the same result, or the renamed fault -/
def Follows (f : String → String) (rename : σ → σ) (x y : EStateM Fault σ α) : Prop :=
  ∀ s, y (rename s) = renameResult f rename (x s)

variable {f : String → String} {rename : σ → σ}

namespace Follows

theorem pure (a : α) : Follows f rename (Pure.pure a) (Pure.pure a) :=
  fun _ => rfl

theorem bind {x y : EStateM Fault σ α} {next after : α → EStateM Fault σ β} (h : Follows f rename x y)
    (hnext : ∀ a, Follows f rename (next a) (after a)) : Follows f rename (x >>= next) (y >>= after) := by
  intro s
  rw [run_bind, run_bind, h s]
  cases x s with
  | ok a t => exact hnext a t
  | error fault t => rfl

theorem modify {g k : σ → σ} (h : ∀ s, k (rename s) = rename (g s)) :
    Follows f rename (modify g) (modify k) := by
  intro s
  exact congrArg (EStateM.Result.ok ()) (h s)

theorem lift {x y : Except Fault α} (h : y = x.mapError (Fault.rename f)) :
    Follows f rename (liftM x) (liftM y) := by
  intro s
  subst h
  cases x <;> rfl

end Follows

/-- all faults of a check are without names -/
def Nameless (x : Except Fault α) : Prop :=
  ∀ f : String → String, x.mapError (Fault.rename f) = x

namespace Nameless

theorem bind {x : Except Fault α} {next : α → Except Fault β} (h : Nameless x) (hnext : ∀ a, Nameless (next a)) :
    Nameless (x >>= next) := by
  intro f
  cases x with
  | ok a => exact hnext a f
  | error fault => exact congrArg Except.error (Except.error.inj (h f))

theorem inRange (what : String) (value min max : Int) : Nameless (Check.inRange what value min max) := by
  intro f
  rw [Check.inRange]
  split <;> rfl

theorem add (a b : Nat) : Nameless (Check.add a b) := by
  intro f
  rw [Check.add]
  split <;> rfl

theorem lengthWith (node : Node) (children : Forest) : Nameless (node.lengthWith children) := by
  intro f
  rw [Node.lengthWith_eq]
  split <;> rfl

theorem branchOffset (source target : Int) : Nameless (branchOffset source target) := by
  intro f
  rw [Asm6502.branchOffset]
  split
  · rfl
  · split <;> rfl

end Nameless

theorem Follows.check {x : Except Fault α} (h : Nameless x) : Follows f rename (liftM x) (liftM x) :=
  Follows.lift (h f).symm

end Follows

/-! ## Look-up under other names -/

section Lookup

variable {f : String → String}

variable (hf : Function.Injective f)

include hf

theorem Labels.get?_rename (labels : Labels) (name : String) :
    (labels.rename f).get? (f name) = labels.get? name := by
  obtain ⟨entries⟩ := labels
  simp only [get?, rename]
  induction entries with
  | nil => rfl
  | cons entry entries ih =>
    have hsame : (f name == f entry.1) = (name == entry.1) := by
      rw [Bool.eq_iff_iff, beq_iff_eq, beq_iff_eq, hf.eq_iff]
    rw [List.map_cons, List.lookup_cons, List.lookup_cons, hsame, ih]

theorem Labels.contains_rename (labels : Labels) (name : String) :
    (labels.rename f).contains (f name) = labels.contains name := by
  rw [contains, contains, get?_rename hf]

theorem Operand.value_rename (labels : Labels) (operand : Operand) :
    (operand.rename f).value (labels.rename f) = (operand.value labels).mapError (Fault.rename f) := by
  cases operand with
  | literal value => rfl
  | label name =>
    simp only [rename, value, Labels.get?_rename hf]
    cases labels.get? name <;> rfl

/-- an operand whose value goes through checks without names -/
theorem Operand.checked_rename {α : Type} {check : Int → Except Fault α} (h : ∀ value, Nameless (check value))
    (labels : Labels) (operand : Operand) :
    ((operand.rename f).value (labels.rename f) >>= check) =
      (operand.value labels >>= check).mapError (Fault.rename f) := by
  rw [value_rename hf]
  cases operand.value labels with
  | ok value => exact (h value f).symm
  | error fault => rfl

/-- **A node's byte does not depend on names.** -/
theorem Kind.byte_rename (labels : Labels) (address : Nat) (kind : Kind) :
    (kind.rename f).byte (labels.rename f) address = (kind.byte labels address).mapError (Fault.rename f) := by
  have hpure : ∀ own : Option UInt8, Nameless (pure own) := fun _ _ => rfl
  cases kind with
  | zeroPage operand =>
    simp only [rename, byte, zeroPageValue, checkedValue, bind_assoc, pure_bind]
    exact operand.checked_rename hf (fun _ => (Nameless.inRange _ _ _ _).bind fun _ => hpure _) labels
  | absoluteLow operand =>
    simp only [rename, byte, absoluteValue, checkedValue, bind_assoc, pure_bind]
    exact operand.checked_rename hf (fun _ => (Nameless.inRange _ _ _ _).bind fun _ => hpure _) labels
  | absoluteHigh operand =>
    simp only [rename, byte, absoluteValue, checkedValue, bind_assoc, pure_bind]
    exact operand.checked_rename hf (fun _ => (Nameless.inRange _ _ _ _).bind fun _ => hpure _) labels
  | branchOffset operand =>
    exact operand.checked_rename hf (fun _ => (Nameless.branchOffset _ _).bind fun _ => hpure _) labels
  | _ => rfl

end Lookup

/-! ## The two passes -/

theorem Forest.span_rename (f : String → String) (forest : Forest) : (forest.rename f).span = forest.span := by
  induction forest with
  | nil => rfl
  | cons id node children rest ihc ihr =>
    rw [rename, span_cons, span_cons, ihc, ihr]
    rfl

theorem Node.lengthWith_rename (f : String → String) (node : Node) (children : Forest) :
    (node.rename f).lengthWith (children.rename f) = node.lengthWith children := by
  rw [lengthWith_eq, lengthWith_eq, Forest.span_rename]
  rfl

section Passes

variable {f : String → String} (hf : Function.Injective f)

include hf

theorem bindLabel_follows (name : String) (address : Nat) :
    Follows f (Bindings.rename f) (bindLabel name address) (bindLabel (f name) address) := by
  intro found
  have hsame : (found.rename f).labels.contains (f name) = found.labels.contains name :=
    found.labels.contains_rename hf name
  rw [bindLabel_eq, bindLabel_eq, hsame]
  cases hc : found.labels.contains name with
  | true => rfl
  | false =>
    rw [hc] at hsame
    simp only [Bool.false_eq_true, if_false, renameResult, Labels.insert, hc, hsame]
    simp [Bindings.rename, Labels.rename, Event.rename]

theorem Node.layout_follows (node : Node) (address : Nat) :
    Follows f (Bindings.rename f) (node.layout address) ((node.rename f).layout address) := by
  simp only [layout, rename]
  cases node.label with
  | none => exact .check (.add _ _)
  | some name => exact (bindLabel_follows hf name address).bind fun _ => .check (.add _ _)

theorem Forest.layout_follows (forest : Forest) (address : Nat) :
    Follows f (Bindings.rename f) (forest.layout address) ((forest.rename f).layout address) := by
  induction forest generalizing address with
  | nil => exact .pure ()
  | cons id node children rest ihc ihr =>
    rw [rename, layout, layout, Node.lengthWith_rename]
    refine (node.layout_follows hf address).bind fun inside => (ihc inside).bind fun _ => ?_
    exact (Follows.check (.lengthWith _ _)).bind fun _ => (Follows.check (.add _ _)).bind fun next => ihr next

theorem Node.resolve_follows (labels : Labels) (node : Node) (address : Nat) :
    Follows f (Resolution.rename f) (node.resolve labels address)
      ((node.rename f).resolve (labels.rename f) address) := by
  refine (Follows.lift (node.kind.byte_rename hf labels address)).bind fun own => ?_
  cases own with
  | some byte =>
    have hstore : Follows f (Resolution.rename f)
        (modify fun stored => { stored with bytes := stored.bytes.insert address byte })
        (modify fun stored => { stored with bytes := stored.bytes.insert address byte }) := .modify fun _ => rfl
    exact hstore.bind fun _ => .check (.add _ _)
  | none =>
    simp only [rename]
    cases node.label with
    | none => exact .pure address
    | some name =>
      refine (Follows.modify fun stored => ?_).bind fun _ => .pure address
      simp [Resolution.rename, Event.rename]

theorem Forest.resolve_follows (labels : Labels) (forest : Forest) (address : Nat) :
    Follows f (Resolution.rename f) (forest.resolve labels address)
      ((forest.rename f).resolve (labels.rename f) address) := by
  induction forest generalizing address with
  | nil => exact .pure ()
  | cons id node children rest ihc ihr =>
    rw [rename, resolve, resolve, Node.lengthWith_rename]
    refine (node.resolve_follows hf labels address).bind fun inside => (ihc inside).bind fun _ => ?_
    exact (Follows.check (.lengthWith _ _)).bind fun _ => (Follows.check (.add _ _)).bind fun next => ihr next

end Passes

/-! ## Trees and programs -/

namespace Tree

variable (f : String → String) (tree : Tree)

@[simp] theorem size_rename : (tree.rename f).size = tree.size :=
  Array.size_map

def renamedId (id : Fin tree.size) : Fin (tree.rename f).size :=
  ⟨id.val, by rw [size_rename]; exact id.isLt⟩

theorem node_rename (id : Fin tree.size) : (tree.rename f).node (tree.renamedId f id) = (tree.node id).rename f :=
  Array.getElem_map ..

theorem trees_rename {ids : List Nat}
    (h : ∀ id : Fin tree.size, id.val ∈ ids →
      (tree.rename f).under (tree.renamedId f id) = (tree.under id).rename f) :
    (tree.rename f).trees ids = (tree.trees ids).rename f := by
  induction ids with
  | nil => rfl
  | cons id ids ih =>
    have hrest := ih fun other hm => h other (List.mem_cons_of_mem _ hm)
    simp only [trees, List.foldr_cons] at hrest ⊢
    by_cases hlt : id < tree.size
    · have hnode := tree.node_rename f ⟨id, hlt⟩
      have hunder := h ⟨id, hlt⟩ List.mem_cons_self
      simp only [renamedId] at hnode hunder
      rw [dif_pos (by rwa [size_rename]), dif_pos hlt, hnode, hunder, hrest]
      rfl
    · rw [dif_neg (by rwa [size_rename]), dif_neg hlt, hrest]

/-- the nodes below a position are renamed with the tree; children come after their parent, so the recursion ends -/
theorem under_rename (id : Fin tree.size) :
    (tree.rename f).under (tree.renamedId f id) = (tree.under id).rename f := by
  rw [under_eq, under_eq, node_rename]
  apply trees_rename
  intro child hc
  have hlater := tree.ordered id.val id.isLt child.val (Array.mem_toList_iff.1 hc)
  exact under_rename child
  termination_by tree.size - id.val

end Tree

namespace Program

variable (f : String → String) (program : Program)

theorem node_root_rename :
    (program.rename f).tree.node (program.rename f).tree.root = (program.tree.node program.tree.root).rename f :=
  program.tree.node_rename f program.tree.root

theorem under_root_rename :
    (program.rename f).tree.under (program.rename f).tree.root = (program.tree.under program.tree.root).rename f :=
  program.tree.under_rename f program.tree.root

theorem length_rename : (program.rename f).length = program.length := by
  rw [length, length, Tree.length, Tree.length, node_root_rename, under_root_rename, Node.lengthWith_rename]

theorem count_rename : (program.rename f).tree.count = program.tree.count :=
  congrArg (· - 1) (program.tree.size_rename f)

variable {f} (hf : Function.Injective f)

include hf

theorem layout_rename (origin : Nat) (trace : List Event) :
    (program.rename f).layout origin (trace.map (Event.rename f)) =
      match program.layout origin trace with
      | .ok labels after => .ok (labels.rename f) (after.map (Event.rename f))
      | .error fault after => .error (fault.rename f) (after.map (Event.rename f)) := by
  have hwalk : Follows f (Bindings.rename f) (program.tree.layout program.tree.root origin)
      ((program.rename f).tree.layout (program.rename f).tree.root origin) := by
    rw [Tree.layout, Tree.layout, node_root_rename, under_root_rename]
    exact (Node.layout_follows hf _ _).bind fun _ => Forest.layout_follows hf _ _
  have hrun := hwalk ⟨.empty, trace⟩
  rw [layout, layout]
  rw [show (⟨.empty, trace.map (Event.rename f)⟩ : Bindings) = Bindings.rename f ⟨.empty, trace⟩ from rfl, hrun]
  cases program.tree.layout program.tree.root origin ⟨.empty, trace⟩ <;> rfl

theorem resolve_rename (labels : Labels) (origin : Nat) (trace : List Event) :
    (program.rename f).resolve (labels.rename f) origin (trace.map (Event.rename f)) =
      match program.resolve labels origin trace with
      | .ok bytes after => .ok bytes (after.map (Event.rename f))
      | .error fault after => .error (fault.rename f) (after.map (Event.rename f)) := by
  have hwalk : Follows f (Resolution.rename f) (program.tree.resolve labels program.tree.root origin)
      ((program.rename f).tree.resolve (labels.rename f) (program.rename f).tree.root origin) := by
    rw [Tree.resolve, Tree.resolve, node_root_rename, under_root_rename]
    exact (Node.resolve_follows hf _ _ _).bind fun _ => Forest.resolve_follows hf _ _ _
  have hrun := hwalk ⟨∅, trace⟩
  rw [resolve, resolve]
  rw [show (⟨∅, trace.map (Event.rename f)⟩ : Resolution) = Resolution.rename f ⟨∅, trace⟩ from rfl, hrun]
  cases program.tree.resolve labels program.tree.root origin ⟨∅, trace⟩ <;> rfl

end Program

/-! ## Compilation -/

/-- a program whose length is known can be listed wherever its last address fits -/
theorem Program.render_ok {program : Program} {length origin : Nat} (bytes : Memory)
    (hl : program.length = .ok length) (h : origin + length < Check.wordLimit) :
    ∃ text, program.render bytes origin = .ok text := by
  have hspan : (program.tree.node program.tree.root).length + (program.tree.under program.tree.root).span = length := by
    rw [Program.length, Tree.length, Node.lengthWith_eq] at hl
    split at hl <;> cases hl
    rfl
  have hfits : origin + ((program.tree.node program.tree.root).length + (program.tree.under program.tree.root).span) <
      Check.wordLimit := by rwa [hspan]
  obtain ⟨own, hown⟩ := Node.listing_ok bytes hfits
  rw [render, Tree.render, hown, ok_bind, Check.add_eq_ok (by omega), ok_bind]
  exact Forest.render_ok bytes _ (by omega)

/-- two compilations agree up to names: equal but for the names in labels and reports, or stopped by the same fault but
for the name in it -/
inductive AgreeUpTo (f : String → String) :
    EStateM.Result Fault (List Event) Assembly → EStateM.Result Fault (List Event) Assembly → Prop where
  | ok {assembly renamed : Assembly} {after : List Event} (origin_eq : renamed.origin = assembly.origin)
      (labels_eq : renamed.labels.entries = assembly.labels.entries.map fun entry => (f entry.1, entry.2))
      (bytes_eq : renamed.bytes = assembly.bytes) (image_eq : renamed.image = assembly.image) :
      AgreeUpTo f (.ok assembly after) (.ok renamed (after.map (Event.rename f)))
  | error {fault : Fault} {after : List Event} :
      AgreeUpTo f (.error fault after) (.error (fault.rename f) (after.map (Event.rename f)))

namespace Cartridge

variable (cartridge : Cartridge)

theorem nameless_origin : Nameless cartridge.origin := by
  intro f
  rw [origin_eq]
  split_ifs <;> rfl

theorem nameless_ensureFits (length : Nat) : Nameless (cartridge.ensureFits length) := by
  intro f
  rw [ensureFits]
  split <;> rfl

theorem nameless_placeAll (origin : Nat) (entries : List (Nat × UInt8)) (image : Array UInt8) :
    Nameless (entries.foldlM (cartridge.place origin) image) := by
  induction entries generalizing image with
  | nil => exact fun _ => rfl
  | cons entry entries ih =>
    rw [List.foldlM_cons]
    exact ((Nameless.inRange _ _ _ _).bind fun _ _ => rfl).bind ih

theorem nameless_pack (length : Nat) (bytes : Memory) : Nameless (cartridge.pack length bytes) :=
  cartridge.nameless_origin.bind fun origin => (cartridge.nameless_ensureFits length).bind fun _ =>
    (cartridge.nameless_placeAll origin _ _).bind fun _ _ => rfl

end Cartridge

theorem Nameless.rename_eq {α : Type} {x : Except Fault α} {fault : Fault} (h : Nameless x) (hx : x = .error fault)
    (f : String → String) : fault.rename f = fault := by
  have := h f
  rw [hx] at this
  exact Except.error.inj this

/-- two compilations that are stopped by the same check -/
theorem AgreeUpTo.of_check {α : Type} {f : String → String} {x : Except Fault α} {fault : Fault} (h : Nameless x)
    (hx : x = .error fault) (after : List Event) :
    AgreeUpTo f (.error fault after) (.error fault (after.map (Event.rename f))) := by
  have := @AgreeUpTo.error f fault after
  rwa [h.rename_eq hx f] at this

/-- a report without a name, at the end of renamed reports -/
theorem map_rename_snoc {f : String → String} {event : Event} (h : event.rename f = event) (trace : List Event) :
    trace.map (Event.rename f) ++ [event] = (trace ++ [event]).map (Event.rename f) := by
  rw [List.map_append, List.map_singleton, h]

/-- both passes, image and listing agree up to names once the first checks hold -/
theorem compile_rename_of_fits {f : String → String} (hf : Function.Injective f) {program : Program}
    {cartridge : Cartridge} {origin length : Nat} (ho : cartridge.origin = .ok origin)
    (hl : program.length = .ok length) (hfits : cartridge.ensureFits length = .ok ()) (trace : List Event) :
    AgreeUpTo f (program.compile cartridge trace)
      ((program.rename f).compile cartridge (trace.map (Event.rename f))) := by
  have hlength : (program.rename f).length = .ok length := (program.length_rename f).trans hl
  have hbound : origin + length < Check.wordLimit := by
    obtain ⟨hc, _, _, rfl⟩ := Cartridge.origin_eq_ok_iff.1 ho
    have := Cartridge.ensureFits_eq_ok_iff.1 hfits
    simp only [Check.wordLimit]
    omega
  rw [compile_stages ho hl hfits, compile_stages ho hlength hfits, program.count_rename, map_rename_snoc rfl,
    program.layout_rename hf]
  cases program.layout origin (trace ++ [.layoutStarted origin program.tree.count length]) with
  | error fault after => exact .error
  | ok labels bound =>
    have hsize : (labels.rename f).size = labels.size := List.length_map _
    simp only
    rw [hsize, map_rename_snoc rfl, program.resolve_rename hf]
    cases program.resolve labels origin (bound ++ [.resolutionStarted labels.size]) with
    | error fault after => exact .error
    | ok bytes stored =>
      -- the two listings differ, but there is one in either case
      obtain ⟨text, htext⟩ := Program.render_ok bytes hl hbound
      obtain ⟨other, hother⟩ := Program.render_ok bytes hlength hbound
      simp only [htext, hother]
      cases hpack : cartridge.pack length bytes with
      | error fault => exact .of_check (cartridge.nameless_pack length bytes) hpack stored
      | ok image =>
        simp only
        rw [map_rename_snoc rfl]
        exact .ok rfl rfl rfl rfl

/-- **Label names do not matter**: for every program, so for every one that steps can build, every renaming that keeps
different names different, and every cartridge. -/
theorem Program.compile_rename {f : String → String} (hf : Function.Injective f) (program : Program)
    (cartridge : Cartridge) (trace : List Event) :
    AgreeUpTo f (program.compile cartridge trace)
      ((program.rename f).compile cartridge (trace.map (Event.rename f))) := by
  have hlength := program.length_rename f
  cases ho : cartridge.origin with
  | error fault =>
    rw [compile_of_origin_error trace ho, compile_of_origin_error _ ho]
    exact .of_check cartridge.nameless_origin ho trace
  | ok origin =>
    cases hl : program.length with
    | error fault =>
      rw [compile_of_length_error trace ho hl, compile_of_length_error _ ho (hlength.trans hl)]
      exact .of_check (Nameless.lengthWith _ _) hl trace
    | ok length =>
      cases hfits : cartridge.ensureFits length with
      | error fault =>
        rw [compile_of_fits_error trace ho hl hfits, compile_of_fits_error _ ho (hlength.trans hl) hfits]
        exact .of_check (cartridge.nameless_ensureFits length) hfits trace
      | ok _ => exact compile_rename_of_fits hf ho hl hfits trace

namespace Console

/-- a branch ahead over a jump back -/
def detour : List Step :=
  [.call (.label "top"), .call (Call.beq (.label "end")), .call (Call.jmpAbsolute (.label "top")), .call (.label "end"),
    .call Call.rts]

theorem compile_rename_detour :
    Function.Injective (fun name => "my " ++ name) ∧
    ∃ assembly renamed after more, (build detour).compile ⟨16, 16⟩ [] = .ok assembly after ∧
      assembly.labels.entries = [("top", 0xFFF0), ("end", 0xFFF5)] ∧
      ((build detour).rename fun name => "my " ++ name).compile ⟨16, 16⟩ [] = .ok renamed more ∧
      renamed.labels.entries = [("my top", 0xFFF0), ("my end", 0xFFF5)] ∧ renamed.image = assembly.image := by
  have hf : Function.Injective fun name => "my " ++ name := fun _ _ h => (String.append_right_inj "my ").1 h
  have ho : Cartridge.origin ⟨16, 16⟩ = .ok 0xFFF0 := rfl
  have hd : (labelNames (itemsOf detour)).Nodup := by decide
  have hc : encodeFrom ⟨labelsFrom 0xFFF0 (itemsOf detour)⟩ 0xFFF0 (itemsOf detour) =
      .ok [0xF0, 0x03, 0x4C, 0xF0, 0xFF, 0x60] := rfl
  obtain ⟨image, listing, _, h⟩ := compile_ofItems ho rfl hd hc []
  rw [← build_eq] at h
  have hagree := (build detour).compile_rename hf ⟨16, 16⟩ []
  rw [h, List.map_nil] at hagree
  generalize ((build detour).rename fun name => "my " ++ name).compile ⟨16, 16⟩ [] = result at hagree ⊢
  cases hagree with
  | ok _ labels_eq _ image_eq => exact ⟨hf, _, _, _, _, h, rfl, rfl, labels_eq, image_eq⟩

end Console

end Asm6502
