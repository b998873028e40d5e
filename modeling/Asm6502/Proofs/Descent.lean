/-
Recursions over the array of nodes, and why they end.

The passes recurse over forests, and a forest is finite by its type. What makes it so is that a tree can be unfolded at
all, and that hangs on the links: in an array in which a node is among its own children, no recursion from child to
child ends. Here the recursions are written over the bare array, with nothing known about its links, and each call
finds its node by its position.

- `Body.run`: a recursion given by what one call does. It may have `depth` calls inside each other; `beyond` stands in
  for a call that would be one too many, and for a call for a position without a node.
- `Body.run_eq`: the induction, done once. Children come after their parent, so each call has fewer positions ahead.
- `Tree.Ends`: as many calls inside each other as there are positions from `id` on are enough for the walk, the lengths,
  both passes and the listing. The result is that of the recursion over the forest, for every `beyond`: no call was too
  deep, and every call found its node.
- `Tree.sound_arena`: links, pushes, recursions and the walk from the root, for every tree that pushes have made.
-/
import Asm6502.Proofs.Links

namespace Asm6502

/-! ## Recursions -/

/-- what one call of a recursion does: it is for a node, and it may call the recursion for other positions -/
abbrev Body (α : Type) := (call : Nat → α) → (id : Nat) → (node : Node) → α

namespace Body

/-- the recursion from a position on, with at most `depth` calls inside each other -/
def run {α : Type} (body : Body α) (nodes : Array Node) (beyond : α) : (depth : Nat) → (id : Nat) → α
  | 0, _ => beyond
  | depth + 1, id =>
    match nodes[id]? with
    | some node => body (run body nodes beyond depth) id node
    | none => beyond

/-- the calls for the given positions have the results that `f` has -/
def Gives {α : Type} {tree : Tree} (call : Nat → α) (f : Fin tree.size → α) (ids : List Nat) : Prop :=
  ∀ id ∈ ids, ∃ h : id < tree.size, call id = f ⟨id, h⟩

/-- **A recursion that goes from a node to its children ends**, and has the results that its body asks for. -/
theorem run_eq {α : Type} {tree : Tree} {body : Body α} {f : Fin tree.size → α}
    (hbody : ∀ call (id : Fin tree.size), Gives call f (tree.node id).children.toList →
      body call id.val (tree.node id) = f id)
    (beyond : α) {depth : Nat} (id : Fin tree.size) (h : tree.size - id.val ≤ depth) :
    body.run tree.nodes beyond depth id.val = f id := by
  induction depth generalizing id with
  | zero =>
    have := id.isLt
    omega
  | succ depth ih =>
    rw [run, tree.getElem?_node id]
    apply hbody
    intro child hc
    obtain ⟨hlater, hlt⟩ := Tree.child_bounds (tree.getElem?_node id) (Array.mem_def.2 hc)
    exact ⟨hlt, ih ⟨child, hlt⟩ (by simp only; omega)⟩

/-! ## The five recursions -/

/-- the walk: the node, then what the calls for its children meet -/
def preorder : Body (List (Nat × Node)) := fun call id node =>
  (id, node) :: node.children.toList.flatMap call

/-- the length: the node's own and the sum of its children's, which is formed first -/
def length : Body (Except Fault Nat) := fun call _ node => do
  let below ← node.children.toList.foldlM (fun sum child => do
    let length ← call child
    Check.add sum length) 0
  Check.add node.length below

/-- calls a pass for one child after the other; the address moves past each child by its whole length -/
def inTurn {σ : Type} (lengthOf : Nat → Except Fault Nat) (call : Nat → Nat → EStateM Fault σ Unit) :
    List Nat → (address : Nat) → EStateM Fault σ Unit
  | [], _ => pure ()
  | child :: children, address => do
    call child address
    let length ← lengthOf child
    let next ← Check.add address length
    inTurn lengthOf call children next

def layout (lengthOf : Nat → Except Fault Nat) : Body (Nat → EStateM Fault Bindings Unit) :=
  fun call _ node address => do
    let inside ← node.layout address
    inTurn lengthOf call node.children.toList inside

def resolve (lengthOf : Nat → Except Fault Nat) (labels : Labels) : Body (Nat → EStateM Fault Resolution Unit) :=
  fun call _ node address => do
    let inside ← node.resolve labels address
    inTurn lengthOf call node.children.toList inside

/-- what the listing says about a node; only an instruction's line asks for a length -/
def line (lengthOf : Nat → Except Fault Nat) (bytes : Memory) (id : Nat) (node : Node) (address : Nat) :
    Except Fault String :=
  match node.kind with
  | .instruction mnemonic mode _ operand => do
    let length ← lengthOf id
    let stop ← Check.add address length
    pure (Listing.instructionLine address mnemonic mode operand (bytes.range address stop))
  | _ => node.listing bytes .nil address

/-- lists one child after the other; the address moves past each child by its whole length -/
def renderInTurn (lengthOf : Nat → Except Fault Nat) (call : Nat → Nat → String → Except Fault String) :
    List Nat → (address : Nat) → (out : String) → Except Fault String
  | [], _, out => .ok out
  | child :: children, address, out => do
    let out ← call child address out
    let length ← lengthOf child
    let next ← Check.add address length
    renderInTurn lengthOf call children next out

def render (lengthOf : Nat → Except Fault Nat) (bytes : Memory) : Body (Nat → String → Except Fault String) :=
  fun call id node address out => do
    let own ← line lengthOf bytes id node address
    let inside ← Check.add address node.length
    renderInTurn lengthOf call node.children.toList inside (out ++ own)

/-! ## Children in turn and trees -/

section Children

variable {tree : Tree} {ids : List Nat}

theorem Gives.of_cons {α : Type} {call : Nat → α} {f : Fin tree.size → α} {id : Nat} {ids : List Nat}
    (h : Gives call f (id :: ids)) : (∃ hlt : id < tree.size, call id = f ⟨id, hlt⟩) ∧ Gives call f ids :=
  ⟨h id List.mem_cons_self, fun other hm => h other (List.mem_cons_of_mem _ hm)⟩

theorem flatMap_eq {call : Nat → List (Nat × Node)} (h : Gives call tree.preorder ids) :
    ids.flatMap call = (tree.trees ids).preorder := by
  induction ids with
  | nil => rfl
  | cons id ids ih =>
    obtain ⟨⟨hlt, hcall⟩, hrest⟩ := h.of_cons
    rw [List.flatMap_cons, hcall, ih hrest, Tree.preorder_trees_cons hlt]

theorem foldlM_eq {call : Nat → Except Fault Nat} (h : Gives call tree.length ids) (sum : Nat) :
    ids.foldlM (fun sum child => do
      let length ← call child
      Check.add sum length) sum = (tree.trees ids).total sum := by
  induction ids generalizing sum with
  | nil => rfl
  | cons id ids ih =>
    obtain ⟨⟨hlt, hcall⟩, hrest⟩ := h.of_cons
    rw [List.foldlM_cons, hcall, Tree.trees_cons_of_lt hlt, Forest.total, Tree.length, Node.lengthWith]
    simp only [bind_assoc, ih hrest]

theorem inTurn_layout {lengthOf : Nat → Except Fault Nat} {call : Nat → Nat → EStateM Fault Bindings Unit}
    (hl : Gives lengthOf tree.length ids) (h : Gives call tree.layout ids) (address : Nat) :
    inTurn lengthOf call ids address = (tree.trees ids).layout address := by
  induction ids generalizing address with
  | nil => rfl
  | cons id ids ih =>
    obtain ⟨⟨hlt, hcall⟩, hrest⟩ := h.of_cons
    obtain ⟨⟨_, hlength⟩, hlrest⟩ := hl.of_cons
    rw [inTurn, hcall, hlength, Tree.trees_cons_of_lt hlt, Forest.layout, Tree.layout, Tree.length]
    simp only [bind_assoc, ih hlrest hrest]

theorem inTurn_resolve {lengthOf : Nat → Except Fault Nat} {call : Nat → Nat → EStateM Fault Resolution Unit}
    {labels : Labels} (hl : Gives lengthOf tree.length ids) (h : Gives call (tree.resolve labels) ids)
    (address : Nat) : inTurn lengthOf call ids address = (tree.trees ids).resolve labels address := by
  induction ids generalizing address with
  | nil => rfl
  | cons id ids ih =>
    obtain ⟨⟨hlt, hcall⟩, hrest⟩ := h.of_cons
    obtain ⟨⟨_, hlength⟩, hlrest⟩ := hl.of_cons
    rw [inTurn, hcall, hlength, Tree.trees_cons_of_lt hlt, Forest.resolve, Tree.resolve, Tree.length]
    simp only [bind_assoc, ih hlrest hrest]

theorem line_eq {lengthOf : Nat → Except Fault Nat} (bytes : Memory) {id : Fin tree.size}
    (h : lengthOf id.val = tree.length id) (address : Nat) :
    line lengthOf bytes id.val (tree.node id) address = (tree.node id).listing bytes (tree.under id) address := by
  unfold line Node.listing
  cases (tree.node id).kind with
  | instruction mnemonic mode opcode operand =>
    simp only [h]
    rfl
  | _ => rfl

theorem renderInTurn_eq {lengthOf : Nat → Except Fault Nat} {call : Nat → Nat → String → Except Fault String}
    {bytes : Memory} (hl : Gives lengthOf tree.length ids) (h : Gives call (tree.render bytes) ids) (address : Nat)
    (out : String) : renderInTurn lengthOf call ids address out = (tree.trees ids).render bytes address out := by
  induction ids generalizing address out with
  | nil => rfl
  | cons id ids ih =>
    obtain ⟨⟨hlt, hcall⟩, hrest⟩ := h.of_cons
    obtain ⟨⟨_, hlength⟩, hlrest⟩ := hl.of_cons
    rw [renderInTurn, hcall, hlength, Tree.trees_cons_of_lt hlt, Forest.render, Tree.render, Tree.length]
    simp only [bind_assoc, ih hlrest hrest]

end Children

/-- the lengths that the passes ask for, as their own recursion finds them -/
def lengthIn (nodes : Array Node) (beyond : Except Fault Nat) : Nat → Except Fault Nat :=
  length.run nodes beyond nodes.size

end Body

/-! ## Trees -/

namespace Tree

/-- every recursion from `id` on ends: as many calls inside each other as there are positions from `id` on are enough,
and what calls further down would do has no part in the result -/
structure Ends (tree : Tree) (id : Fin tree.size) : Prop where
  preorder : ∀ beyond depth, tree.size - id.val ≤ depth →
    Body.preorder.run tree.nodes beyond depth id.val = tree.preorder id
  length : ∀ beyond depth, tree.size - id.val ≤ depth →
    Body.length.run tree.nodes beyond depth id.val = tree.length id
  layout : ∀ noLength beyond depth, tree.size - id.val ≤ depth →
    (Body.layout (Body.lengthIn tree.nodes noLength)).run tree.nodes beyond depth id.val = tree.layout id
  resolve : ∀ labels noLength beyond depth, tree.size - id.val ≤ depth →
    (Body.resolve (Body.lengthIn tree.nodes noLength) labels).run tree.nodes beyond depth id.val =
      tree.resolve labels id
  render : ∀ bytes noLength beyond depth, tree.size - id.val ≤ depth →
    (Body.render (Body.lengthIn tree.nodes noLength) bytes).run tree.nodes beyond depth id.val = tree.render bytes id

theorem run_length (tree : Tree) (beyond : Except Fault Nat) {depth : Nat} (id : Fin tree.size)
    (h : tree.size - id.val ≤ depth) : Body.length.run tree.nodes beyond depth id.val = tree.length id := by
  refine Body.run_eq (fun call id hcall => ?_) beyond id h
  rw [Body.length, Body.foldlM_eq hcall, Tree.length, under_eq, Node.lengthWith]

theorem lengthIn_eq (tree : Tree) (beyond : Except Fault Nat) (id : Fin tree.size) :
    Body.lengthIn tree.nodes beyond id.val = tree.length id :=
  tree.run_length beyond id (Nat.sub_le _ _)

theorem gives_lengthIn (tree : Tree) (beyond : Except Fault Nat) (id : Fin tree.size) :
    Body.Gives (Body.lengthIn tree.nodes beyond) tree.length (tree.node id).children.toList := by
  intro child hc
  have hlt := (child_bounds (tree.getElem?_node id) (Array.mem_def.2 hc)).2
  exact ⟨hlt, tree.lengthIn_eq beyond ⟨child, hlt⟩⟩

theorem ends (tree : Tree) (id : Fin tree.size) : tree.Ends id where
  preorder := by
    intro beyond depth h
    refine Body.run_eq (fun call id hcall => ?_) beyond id h
    rw [Body.preorder, Body.flatMap_eq hcall, Tree.preorder, under_eq]
  length := fun beyond depth h => tree.run_length beyond id h
  layout := by
    intro noLength beyond depth h
    refine Body.run_eq (fun call id hcall => funext fun address => ?_) beyond id h
    simp only [Body.layout, Body.inTurn_layout (tree.gives_lengthIn noLength id) hcall, Tree.layout, under_eq]
  resolve := by
    intro labels noLength beyond depth h
    refine Body.run_eq (fun call id hcall => funext fun address => ?_) beyond id h
    simp only [Body.resolve, Body.inTurn_resolve (tree.gives_lengthIn noLength id) hcall, Tree.resolve, under_eq]
  render := by
    intro bytes noLength beyond depth h
    refine Body.run_eq (fun call id hcall => funext fun address => funext fun out => ?_) beyond id h
    simp only [Body.render, Body.line_eq bytes (tree.lengthIn_eq noLength id),
      Body.renderInTurn_eq (tree.gives_lengthIn noLength id) hcall, Tree.render, under_eq]

-- where a node is its own child, the result is what lies beyond
example : Body.length.run #[⟨none, none, 0, .root, #[0]⟩] (.ok 7) 3 0 = .ok 7 := by decide

/-- **The array of every tree that pushes have made is sound.** Its links agree; a push changes what it must and nothing
else; recursions from child to child end, wherever they start; and the walk from the root meets each node once, the root
and all nodes below it. -/
theorem sound_arena (tree : Tree) (h : tree.Grown) :
    tree.WellLinked ∧
    (∀ (parent : Fin tree.size) (label : Option String) (length : Nat) (kind : Kind),
      tree.Pushed parent ⟨some parent.val, label, length, kind, #[]⟩ (tree.push parent label length kind)) ∧
    (∀ id, tree.Ends id) ∧
    (tree.positions tree.root).Perm (List.range tree.size) ∧
    (∀ entry ∈ tree.preorder tree.root, tree.nodes[entry.1]? = some entry.2) ∧
    (tree.preorder tree.root).length = tree.count + 1 := by
  have hcount : (tree.preorder tree.root).length = tree.count + 1 := by
    have hpositions : (tree.positions tree.root).length = tree.size := by
      rw [h.positions_perm.length_eq, List.length_range]
    rw [positions, List.length_map] at hpositions
    rw [hpositions, count, Nat.sub_add_cancel tree.nonempty]
  exact ⟨h.wellLinked, tree.pushed_push, tree.ends, h.positions_perm,
    fun entry hm => (mem_preorder_iff.1 hm).2, hcount⟩

/-- two nodes below the root, and then one below the first of them -/
def interleaved : Tree :=
  ((new.push new.root (some "first") 1 (.data 1)).push ⟨0, by simp⟩ none 2 (.data 2)).push ⟨1, by simp⟩ none 3 (.data 3)

/-- the walk leaves the order of the array; a fifth node goes to the end of its parent's list -/
theorem sound_arena_interleaved :
    interleaved.Grown ∧ interleaved.positions interleaved.root = [0, 1, 3, 2] ∧
    (interleaved.preorder interleaved.root).length = 4 ∧
    (∀ beyond, Body.length.run interleaved.nodes beyond 4 0 = .ok 6) ∧
    (interleaved.push ⟨1, by decide⟩ none 0 .label).nodes[1]? =
      some ⟨some 0, some "first", 1, .data 1, #[3, 4]⟩ := by
  have hg : interleaved.Grown := ((Grown.new.push _ _ _ _).push _ _ _ _).push _ _ _ _
  obtain ⟨_, hpush, hends, _, _, hcount⟩ := sound_arena interleaved hg
  have hlength : interleaved.length interleaved.root = .ok 6 := by decide +kernel
  refine ⟨hg, by decide +kernel, hcount.trans (by decide +kernel), fun beyond => ?_, ?_⟩
  · exact ((hends interleaved.root).length beyond 4 (by decide +kernel)).trans hlength
  · exact (hpush ⟨1, by decide⟩ none 0 .label).owner.trans (by decide +kernel)

end Tree

end Asm6502
