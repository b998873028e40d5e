/-
Program trees.

A `Tree` keeps its nodes in one array, in order of creation, and node 0 is the root. A node is named by its position.
New nodes are appended under an existing one (`push`), so every child comes after its parent: that order is part of the
type, and it is what makes walks down the tree end. `under` unfolds the nodes below a node into a `Forest`, a plain
inductive value on which the passes recurse.

Lengths are fixed when a node is created. `Forest.total` adds them up with 32-bit addition.
-/
import Asm6502.Check
import Asm6502.Kind

namespace Asm6502

/-- one node: its place in the tree, an optional name, its own length in bytes, and what it is -/
structure Node where
  parent : Option Nat
  label : Option String
  length : Nat
  kind : Kind
  children : Array Nat
  deriving DecidableEq, Repr

/-- an ordered forest: the first tree (a node with its position, and the trees below it), then the other trees -/
inductive Forest where
  | nil
  | cons (id : Nat) (node : Node) (children rest : Forest)
  deriving DecidableEq, Repr

/-! ## Forests -/

namespace Forest

/-- the nodes with their positions in walking order, put in front of `done` one by one -/
def collect : Forest → (done : List (Nat × Node)) → List (Nat × Node)
  | .nil, done => done
  | .cons id node children rest, done => rest.collect (children.collect ((id, node) :: done))

/-- every node with its position: each before the nodes below it, and those before the next tree -/
def preorder (forest : Forest) : List (Nat × Node) :=
  (forest.collect []).reverse

theorem collect_eq (forest : Forest) (done : List (Nat × Node)) :
    forest.collect done = forest.preorder.reverse ++ done := by
  induction forest generalizing done with
  | nil => rfl
  | cons id node children rest ihc ihr =>
    rw [preorder, collect, collect, ihr, ihr (children.collect _), ihc, ihc [(id, node)]]
    simp

@[simp] theorem preorder_nil : nil.preorder = [] := rfl

@[simp] theorem preorder_cons (id : Nat) (node : Node) (children rest : Forest) :
    (cons id node children rest).preorder = (id, node) :: (children.preorder ++ rest.preorder) := by
  rw [preorder, collect, collect_eq rest, collect_eq children]
  simp

/-- the starting value `sum` plus the lengths of the trees, tree by tree from the left -/
def total : Forest → (sum : Nat) → Except Fault Nat
  | .nil, sum => .ok sum
  | .cons _ node children rest, sum => do
    let below ← children.total 0
    let length ← Check.add node.length below
    let sum ← Check.add sum length
    rest.total sum

end Forest

/-- the length of `node` together with the trees below it -/
def Node.lengthWith (node : Node) (children : Forest) : Except Fault Nat := do
  let below ← children.total 0
  Check.add node.length below

/-! ## Trees -/

/-- nodes in order of creation, the root first; children come after their parent -/
structure Tree where
  nodes : Array Node
  nonempty : 0 < nodes.size
  ordered : ∀ (id : Nat) (h : id < nodes.size), ∀ child ∈ nodes[id].children, id < child ∧ child < nodes.size

namespace Tree

abbrev size (tree : Tree) : Nat :=
  tree.nodes.size

/-- the number of nodes below the root -/
def count (tree : Tree) : Nat :=
  tree.size - 1

def root (tree : Tree) : Fin tree.size :=
  ⟨0, tree.nonempty⟩

def node (tree : Tree) (id : Fin tree.size) : Node :=
  tree.nodes[id.val]

/-- a tree of the root alone -/
def new : Tree where
  nodes := #[⟨none, none, 0, .root, #[]⟩]
  nonempty := by simp
  ordered := by
    intro id h child hc
    simp only [List.size_toArray, List.length_cons, List.length_nil, Nat.zero_add, Nat.lt_one_iff] at h
    subst h
    simp at hc

/-- a tree with one more node, the last child of `parent`; its position is the old size -/
def push (tree : Tree) (parent : Fin tree.size) (label : Option String) (length : Nat) (kind : Kind) : Tree where
  nodes :=
    let id := tree.nodes.size
    (tree.nodes.push ⟨some parent.val, label, length, kind, #[]⟩).modify parent.val fun above =>
      { above with children := above.children.push id }
  nonempty := by simp
  ordered := by
    intro id h child hc
    have hp : parent.val < tree.nodes.size := parent.isLt
    simp only [Array.size_modify, Array.size_push] at h ⊢
    rw [Array.getElem_modify] at hc
    split at hc
    · subst_vars
      simp only [Array.getElem_push, hp, ↓reduceDIte, Array.mem_push] at hc
      rcases hc with hc | rfl
      · have := tree.ordered _ hp child hc
        omega
      · omega
    · rw [Array.getElem_push] at hc
      split at hc
      · have := tree.ordered id (by assumption) child hc
        omega
      · simp at hc

@[simp] theorem size_new : new.size = 1 := rfl

@[simp] theorem size_push (tree : Tree) (parent : Fin tree.size) (label : Option String) (length : Nat) (kind : Kind) :
    (tree.push parent label length kind).size = tree.size + 1 := by
  simp [size, push]

/-- the forest of the nodes below a position -/
def under (tree : Tree) (id : Fin tree.size) : Forest :=
  (tree.node id).children.attach.foldr
    (fun child rest =>
      have later := tree.ordered id.val id.isLt child.val child.property
      let below : Fin tree.size := ⟨child.val, later.2⟩
      .cons child.val (tree.node below) (tree.under below) rest)
    .nil
  termination_by tree.size - id.val
  decreasing_by
    have := id.isLt
    omega

def length (tree : Tree) (id : Fin tree.size) : Except Fault Nat :=
  (tree.node id).lengthWith (tree.under id)

/-- a node and the nodes below it with their positions, each before the nodes below it -/
def preorder (tree : Tree) (id : Fin tree.size) : List (Nat × Node) :=
  (id.val, tree.node id) :: (tree.under id).preorder

end Tree

end Asm6502
