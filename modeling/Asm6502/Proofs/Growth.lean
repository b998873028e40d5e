/-
Trees of any shape, grown node by node.

Programs push only labels, data and instructions with their operand bytes. Here a node of any sort, length and name is
pushed below any node that is there, in any order. What such a tree keeps is the agreement of its two sets of links:
a node that stands in a list of children has the owner of that list as its parent.

- `getElem?_nodes_push`: the array after a push, position by position; `push_cases`: what is found in it.
- `Grown.linked`: the links agree, by induction over the pushes.
- `Below`: a position is reached from another one down the lists of children.
- `mem_preorder_iff`: the walk down from a node meets the positions below it, and no others.
- `above`: the nodes above a position, found on the way up; a child has its parent and all that is above the parent.
-/
import Asm6502.Proofs.Arena

namespace Asm6502.Tree

/-! ## Pushing -/

/-- a tree that pushes have made of the root alone -/
inductive Grown : Tree → Prop where
  | new : Grown .new
  | push {tree : Tree} (h : Grown tree) (parent : Fin tree.size) (label : Option String) (length : Nat) (kind : Kind) :
      Grown (tree.push parent label length kind)

/-- what is found in the tree of the root alone -/
theorem new_cases {id : Nat} {node : Node} (h : new.nodes[id]? = some node) :
    id = 0 ∧ node = ⟨none, none, 0, .root, #[]⟩ := by
  obtain ⟨hlt, rfl⟩ := Array.getElem?_eq_some_iff.1 h
  have hid : id = 0 := Nat.lt_one_iff.1 hlt
  subst hid
  exact ⟨rfl, rfl⟩

theorem getElem?_nodes_push (tree : Tree) (parent : Fin tree.size) (label : Option String) (length : Nat) (kind : Kind)
    (id : Nat) :
    (tree.push parent label length kind).nodes[id]? =
      if id = tree.size then some ⟨some parent.val, label, length, kind, #[]⟩
      else if id = parent.val then tree.nodes[id]?.map (·.withChildren [tree.size])
      else tree.nodes[id]? := by
  have hparent : parent.val < tree.nodes.size := parent.isLt
  have hsize : tree.size = tree.nodes.size := rfl
  rw [← Array.getElem?_toList, toList_push, List.getElem?_append, List.length_modify, Array.length_toList]
  by_cases hlt : id < tree.nodes.size
  · rw [if_pos hlt, if_neg (show id ≠ tree.size by omega), List.getElem?_modify, Array.getElem?_toList]
    by_cases hid : id = parent.val
    · simp [hid]
    · have hne : ¬ parent.val = id := fun h => hid h.symm
      simp [hid, hne]
  · rw [if_neg hlt]
    by_cases hid : id = tree.size
    · subst hid
      simp
    · have hnone : tree.nodes[id]? = none := Array.getElem?_eq_none (Nat.not_lt.1 hlt)
      rw [if_neg hid, if_neg (by omega), hnone, List.getElem?_eq_none]
      simp only [List.length_cons, List.length_nil]
      omega

section Push

variable {tree : Tree} {parent : Fin tree.size} {label : Option String} {length : Nat} {kind : Kind}

theorem getElem?_push_new :
    (tree.push parent label length kind).nodes[tree.size]? = some ⟨some parent.val, label, length, kind, #[]⟩ := by
  rw [getElem?_nodes_push, if_pos rfl]

/-- an old node is found again; if it is the parent, it has one more child -/
theorem getElem?_push_old {id : Nat} {old : Node} (h : tree.nodes[id]? = some old) :
    (tree.push parent label length kind).nodes[id]? =
      some (old.withChildren (if id = parent.val then [tree.size] else [])) := by
  have hlt : id < tree.size := (Array.getElem?_eq_some_iff.1 h).1
  rw [getElem?_nodes_push, if_neg (by omega), h]
  split <;> simp

/-- what is found after a push: the new node, or an old one -/
theorem push_cases {id : Nat} {node : Node} (h : (tree.push parent label length kind).nodes[id]? = some node) :
    id = tree.size ∧ node = ⟨some parent.val, label, length, kind, #[]⟩ ∨
      ∃ old, tree.nodes[id]? = some old ∧
        node = old.withChildren (if id = parent.val then [tree.size] else []) := by
  by_cases hid : id = tree.size
  · subst hid
    rw [getElem?_push_new] at h
    cases h
    exact .inl ⟨rfl, rfl⟩
  · cases hold : tree.nodes[id]? with
    | none =>
      rw [getElem?_nodes_push, if_neg hid, hold] at h
      split at h <;> cases h
    | some old =>
      rw [getElem?_push_old hold] at h
      cases h
      exact .inr ⟨old, rfl, rfl⟩

theorem mem_children_push {old : Node} {id child : Nat} :
    child ∈ (old.withChildren (if id = parent.val then [tree.size] else [])).children ↔
      child ∈ old.children ∨ id = parent.val ∧ child = tree.size := by
  split <;> simp_all [Node.withChildren]

end Push

theorem child_bounds {tree : Tree} {id child : Nat} {node : Node} (hnode : tree.nodes[id]? = some node)
    (hc : child ∈ node.children) : id < child ∧ child < tree.size := by
  obtain ⟨hid, rfl⟩ := Array.getElem?_eq_some_iff.1 hnode
  exact tree.ordered id hid child hc

/-- what stands in a list of children has the owner of the list as its parent -/
def Linked (tree : Tree) : Prop :=
  ∀ (id : Nat) (node : Node), tree.nodes[id]? = some node → ∀ child ∈ node.children,
    ∃ below : Node, tree.nodes[child]? = some below ∧ below.parent = some id

theorem Grown.linked {tree : Tree} (h : Grown tree) : tree.Linked := by
  induction h with
  | new =>
    intro id node hnode child hc
    obtain ⟨-, rfl⟩ := new_cases hnode
    simp at hc
  | push hg parent label length kind ih =>
    intro id node hnode child hc
    rcases push_cases hnode with ⟨-, rfl⟩ | ⟨old, hold, rfl⟩
    · simp at hc
    · rcases mem_children_push.1 hc with hc | ⟨rfl, rfl⟩
      · -- an old child keeps its parent, whether or not it got a child of its own
        obtain ⟨below, hbelow, hup⟩ := ih id old hold child hc
        exact ⟨_, getElem?_push_old hbelow, hup⟩
      · exact ⟨_, getElem?_push_new, rfl⟩

/-! ## Down the tree -/

/-- the position is `top`, or stands below it -/
inductive Below (tree : Tree) (top : Nat) : Nat → Prop where
  | refl : Below tree top top
  | child {id child : Nat} {node : Node} (h : Below tree top id) (hnode : tree.nodes[id]? = some node)
      (hc : child ∈ node.children) : Below tree top child

theorem Below.le {tree : Tree} {top id : Nat} (h : tree.Below top id) : top ≤ id := by
  induction h with
  | refl => exact Nat.le_refl top
  | child _ hnode hc ih =>
    have := (child_bounds hnode hc).1
    omega

theorem Below.lt_size {tree : Tree} {top id : Nat} (h : tree.Below top id) (htop : top < tree.size) :
    id < tree.size := by
  cases h with
  | refl => exact htop
  | child _ hnode hc => exact (child_bounds hnode hc).2

theorem getElem?_node (tree : Tree) (id : Fin tree.size) : tree.nodes[id.val]? = some (tree.node id) :=
  Array.getElem?_eq_getElem id.isLt

/-- the walk over trees is one walk after the other -/
theorem preorder_trees_cons {tree : Tree} {id : Nat} (h : id < tree.size) (ids : List Nat) :
    (tree.trees (id :: ids)).preorder = tree.preorder ⟨id, h⟩ ++ (tree.trees ids).preorder := by
  rw [trees_cons_of_lt h, Forest.preorder_cons]
  rfl

theorem mem_preorder_trees {tree : Tree} {ids : List Nat} (h : ∀ id ∈ ids, id < tree.size) (entry : Nat × Node) :
    entry ∈ (tree.trees ids).preorder ↔ ∃ id : Fin tree.size, id.val ∈ ids ∧ entry ∈ tree.preorder id := by
  induction ids with
  | nil => simp [trees]
  | cons id ids ih =>
    have hid := h id List.mem_cons_self
    have hrest := ih fun other hm => h other (List.mem_cons_of_mem _ hm)
    rw [preorder_trees_cons hid, List.mem_append, hrest]
    constructor
    · rintro (hm | ⟨other, hother, hm⟩)
      · exact ⟨⟨id, hid⟩, List.mem_cons_self, hm⟩
      · exact ⟨other, List.mem_cons_of_mem _ hother, hm⟩
    · rintro ⟨other, hother, hm⟩
      rcases List.mem_cons.1 hother with heq | hother
      · have : other = ⟨id, hid⟩ := Fin.ext heq
        exact .inl (this ▸ hm)
      · exact .inr ⟨other, hother, hm⟩

/-- the walk meets the node itself, and then what the walks down from its children meet -/
theorem mem_preorder_step {tree : Tree} {top : Fin tree.size} {entry : Nat × Node} :
    entry ∈ tree.preorder top ↔
      entry = (top.val, tree.node top) ∨
        ∃ child : Fin tree.size, child.val ∈ (tree.node top).children ∧ entry ∈ tree.preorder child := by
  have hin : ∀ id ∈ (tree.node top).children.toList, id < tree.size := by
    intro id hm
    exact (child_bounds (tree.getElem?_node top) (Array.mem_def.2 hm)).2
  rw [preorder, List.mem_cons, under_eq, mem_preorder_trees hin]
  simp only [Array.mem_toList_iff]

theorem mem_preorder_self (tree : Tree) (top : Fin tree.size) : (top.val, tree.node top) ∈ tree.preorder top :=
  List.mem_cons_self

/-- if the walk meets a node, it meets the node's children -/
theorem mem_preorder_child {tree : Tree} {top : Fin tree.size} {id : Nat} {node : Node}
    (h : (id, node) ∈ tree.preorder top) (child : Fin tree.size) (hc : child.val ∈ node.children) :
    (child.val, tree.node child) ∈ tree.preorder top := by
  rcases mem_preorder_step.1 h with heq | ⟨next, hnext, hm⟩
  · cases heq
    exact mem_preorder_step.2 (.inr ⟨child, hc, tree.mem_preorder_self child⟩)
  · have hlt := (child_bounds (tree.getElem?_node top) hnext).1
    exact mem_preorder_step.2 (.inr ⟨next, hnext, mem_preorder_child hm child hc⟩)
  termination_by tree.size - top.val

theorem below_of_mem_preorder {tree : Tree} {top : Fin tree.size} {id : Nat} {node : Node} {first : Nat}
    (hfirst : tree.Below first top.val) (h : (id, node) ∈ tree.preorder top) :
    tree.Below first id ∧ tree.nodes[id]? = some node := by
  rcases mem_preorder_step.1 h with heq | ⟨next, hnext, hm⟩
  · cases heq
    exact ⟨hfirst, tree.getElem?_node top⟩
  · have hlt := (child_bounds (tree.getElem?_node top) hnext).1
    exact below_of_mem_preorder (hfirst.child (tree.getElem?_node top) hnext) hm
  termination_by tree.size - top.val

/-- **The walk down from a node meets what stands below it**, and nothing else. -/
theorem mem_preorder_iff {tree : Tree} {top : Fin tree.size} {id : Nat} {node : Node} :
    (id, node) ∈ tree.preorder top ↔ tree.Below top.val id ∧ tree.nodes[id]? = some node := by
  constructor
  · exact below_of_mem_preorder .refl
  · rintro ⟨hbelow, hnode⟩
    induction hbelow generalizing node with
    | refl =>
      rw [tree.getElem?_node top] at hnode
      cases hnode
      exact tree.mem_preorder_self top
    | @child id child up _ hup hc ih =>
      have hlt := (child_bounds hup hc).2
      have hm := mem_preorder_child (ih hup) ⟨child, hlt⟩ hc
      have hown := tree.getElem?_node ⟨child, hlt⟩
      rw [hnode] at hown
      cases hown
      exact hm

/-! ## Up the tree -/

/-- the nodes above a position, the nearest first and `top` last; the way up goes from parent to parent -/
def above (tree : Tree) (top position : Nat) : List Node :=
  if position = top then []
  else
    match tree.nodes[position]?.bind Node.parent with
    | some parent => if parent < position then tree.nodes[parent]?.toList ++ tree.above top parent else []
    | none => []
  termination_by position

@[simp] theorem above_self (tree : Tree) (top : Nat) : tree.above top top = [] := by
  rw [above, if_pos rfl]

theorem above_child {tree : Tree} (hl : tree.Linked) {top id child : Nat} {node : Node} (htop : top ≤ id)
    (hnode : tree.nodes[id]? = some node) (hc : child ∈ node.children) :
    tree.above top child = node :: tree.above top id := by
  have hlt := (child_bounds hnode hc).1
  obtain ⟨below, hbelow, hup⟩ := hl id node hnode child hc
  rw [above, if_neg (by omega), hbelow]
  simp [hup, hlt, hnode]

end Asm6502.Tree
