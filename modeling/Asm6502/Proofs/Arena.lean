/-
The nodes of a program that was built item by item.

Each item has one node below the root and, below that, one node for each operand byte; they stand in the array one after
the other, so the array is the root followed by the nodes of the items (`nodes_ofItems`). Unfolded from the root, that
is a forest with one tree for each item, the operand bytes being its leaves (`under_ofItems`).

- `toList_push`, `toList_pushParts`: what the array looks like after appending.
- `under_eq`: the forest below a node, as a walk over the list of its children.
- `span_forestFrom`, `length_ofItems`: the lengths in the forest add up to the sizes of the items.
-/
import Asm6502.Proofs.Building
import Mathlib.Data.List.Induction

namespace Asm6502

/-! ## Nodes of an item -/

/-- the node with more children at the end of its list -/
def Node.withChildren (node : Node) (ids : List Nat) : Node :=
  { node with children := node.children ++ ids.toArray }

@[simp] theorem Node.withChildren_nil (node : Node) : node.withChildren [] = node := by
  simp [withChildren]

@[simp] theorem Node.withChildren_withChildren (node : Node) (ids more : List Nat) :
    (node.withChildren ids).withChildren more = node.withChildren (ids ++ more) := by
  simp only [withChildren, Array.append_assoc, List.append_toArray]

def partNode (parent : Nat) (part : Kind) : Node :=
  ⟨some parent, none, 1, part, #[]⟩

namespace Item

def kind : Item → Kind
  | .label _ => .label
  | .data value => .data value
  | .instruction mnemonic opcode form => .instruction mnemonic form.mode opcode form.operand

def ownLength : Item → Nat
  | .label _ => 0
  | _ => 1

/-- the operand bytes below the item's own node -/
def parts : Item → List Kind
  | .instruction _ _ form => form.parts
  | _ => []

def width (item : Item) : Nat :=
  1 + item.parts.length

theorem size_eq (item : Item) : item.size = item.ownLength + item.parts.length := by
  cases item with
  | label name => rfl
  | data value => rfl
  | instruction mnemonic opcode form => exact form.size_eq

/-- the item's own node at `position`, its operand bytes directly after it -/
def node (item : Item) (position : Nat) : Node :=
  ⟨some 0, item.name?, item.ownLength, item.kind, (List.range' (position + 1) item.parts.length).toArray⟩

/-- all nodes of an item, the first at `position` -/
def nodes (item : Item) (position : Nat) : List Node :=
  item.node position :: item.parts.map (partNode position)

@[simp] theorem length_nodes (item : Item) (position : Nat) : (item.nodes position).length = item.width := by
  simp [nodes, width, Nat.add_comm]

end Item

def totalWidth : List Item → Nat
  | [] => 0
  | item :: items => item.width + totalWidth items

/-- the nodes of all items, the first at `position` -/
def nodesFrom : (position : Nat) → List Item → List Node
  | _, [] => []
  | position, item :: items => item.nodes position ++ nodesFrom (position + item.width) items

/-- the positions of the items' own nodes -/
def positionsFrom : (position : Nat) → List Item → List Nat
  | _, [] => []
  | position, item :: items => position :: positionsFrom (position + item.width) items

theorem length_nodesFrom (position : Nat) (items : List Item) :
    (nodesFrom position items).length = totalWidth items := by
  induction items generalizing position with
  | nil => rfl
  | cons item items ih => simp [nodesFrom, totalWidth, ih]

theorem nodesFrom_append (position : Nat) (before after : List Item) :
    nodesFrom position (before ++ after) =
      nodesFrom position before ++ nodesFrom (position + totalWidth before) after := by
  induction before generalizing position with
  | nil => rfl
  | cons item before ih => simp [nodesFrom, ih, totalWidth, Nat.add_assoc]

theorem positionsFrom_append (position : Nat) (before after : List Item) :
    positionsFrom position (before ++ after) =
      positionsFrom position before ++ positionsFrom (position + totalWidth before) after := by
  induction before generalizing position with
  | nil => rfl
  | cons item before ih => simp [positionsFrom, ih, totalWidth, Nat.add_assoc]

/-! ## Appending to the array -/

theorem modify_append {α : Type} (f : α → α) (i : Nat) (l l' : List α) (h : i < l.length) :
    (l ++ l').modify i f = l.modify i f ++ l' := by
  induction l generalizing i with
  | nil => cases h
  | cons a l ih =>
    cases i with
    | zero => rfl
    | succ i =>
      have hi : i < l.length := by simpa using h
      simp [ih i hi]

theorem modify_last {α : Type} (f : α → α) (l : List α) (a : α) : (l ++ [a]).modify l.length f = l ++ [f a] := by
  induction l with
  | nil => rfl
  | cons b l ih => simp [ih]

namespace Tree

theorem toList_push (tree : Tree) (parent : Fin tree.size) (label : Option String) (length : Nat) (kind : Kind) :
    (tree.push parent label length kind).nodes.toList =
      tree.nodes.toList.modify parent.val (·.withChildren [tree.size]) ++
        [⟨some parent.val, label, length, kind, #[]⟩] := by
  have hp : parent.val < tree.nodes.toList.length := parent.isLt
  rw [push, Array.toList_modify, Array.toList_push, modify_append _ _ _ _ hp]
  simp only [Node.withChildren, Array.push_eq_append]

theorem toList_pushParts (tree : Tree) (parent : Fin tree.size) (parts : List Kind) :
    (tree.pushParts parent parts).nodes.toList =
      tree.nodes.toList.modify parent.val (·.withChildren (List.range' tree.size parts.length)) ++
        parts.map (partNode parent.val) := by
  induction parts generalizing tree with
  | nil =>
    have h : (fun node : Node => node.withChildren []) = id := funext Node.withChildren_nil
    rw [pushParts, List.length_nil, List.range'_zero, h, List.modify_id, List.map_nil, List.append_nil]
  | cons part parts ih =>
    rw [pushParts, ih, toList_push, modify_append _ _ _ _ (by simp), List.modify_modify_eq]
    simp [partNode, Function.comp_def, List.range'_succ]

end Tree

namespace Program

theorem tree_append (program : Program) (item : Item) :
    (program.append item).tree =
      (program.tree.push program.tree.root item.name? item.ownLength item.kind).pushParts
        ⟨program.tree.size, by rw [Tree.size_push]; omega⟩ item.parts := by
  cases item <;> rfl

def rootNode (items : List Item) : Node :=
  ⟨none, none, 0, .root, (positionsFrom 1 items).toArray⟩

/-- **The array of a program** is the root and then the nodes of each item, in order. -/
theorem nodes_ofItems (items : List Item) :
    (ofItems items).tree.nodes.toList = rootNode items :: nodesFrom 1 items := by
  induction items using List.reverseRecOn with
  | nil => rfl
  | append_singleton items item ih =>
    have happ : ofItems (items ++ [item]) = (ofItems items).append item := appendAll_append new items [item]
    have hlen : (ofItems items).tree.nodes.size = 1 + totalWidth items := by
      rw [← Array.length_toList, ih, List.length_cons, length_nodesFrom, Nat.add_comm]
    have hroot : (rootNode items).withChildren [1 + totalWidth items] = rootNode (items ++ [item]) := by
      simp [rootNode, Node.withChildren, positionsFrom_append, positionsFrom]
    -- the item's own node goes to the end of the array, and its operand bytes below it
    have hlast := modify_last (·.withChildren (List.range' (1 + totalWidth items + 1) item.parts.length))
      (rootNode (items ++ [item]) :: nodesFrom 1 items) ⟨some 0, item.name?, item.ownLength, item.kind, #[]⟩
    rw [List.length_cons, length_nodesFrom, Nat.add_comm (totalWidth items) 1] at hlast
    rw [happ, tree_append, Tree.toList_pushParts, Tree.toList_push, ih]
    simp only [Tree.size_push, Tree.size, hlen, show (ofItems items).tree.root.val = 0 from rfl,
      List.modify_zero_cons, hroot]
    rw [hlast, nodesFrom_append]
    simp [nodesFrom, Item.nodes, Item.node, Node.withChildren]

end Program

/-! ## The forest below the root -/

namespace Tree

def trees (tree : Tree) (ids : List Nat) : Forest :=
  ids.foldr (fun id rest =>
    if h : id < tree.size then .cons id (tree.node ⟨id, h⟩) (tree.under ⟨id, h⟩) rest else rest) .nil

theorem under_eq (tree : Tree) (id : Fin tree.size) : tree.under id = tree.trees (tree.node id).children.toList := by
  rw [under, trees, Array.foldr_toList]
  refine Eq.trans ?_ Array.foldr_attach
  congr 1
  funext child rest
  rw [dif_pos (tree.ordered id.val id.isLt child.val child.property).2]

theorem trees_cons_of_lt {tree : Tree} {id : Nat} (h : id < tree.size) (ids : List Nat) :
    tree.trees (id :: ids) = .cons id (tree.node ⟨id, h⟩) (tree.under ⟨id, h⟩) (tree.trees ids) := by
  rw [trees, List.foldr_cons, dif_pos h]
  rfl

theorem trees_cons {tree : Tree} {id : Nat} {node : Node} (h : tree.nodes.toList[id]? = some node) (ids : List Nat) :
    tree.trees (id :: ids) = .cons id node (tree.trees node.children.toList) (tree.trees ids) := by
  obtain ⟨hid, rfl⟩ := List.getElem?_eq_some_iff.1 h
  have hlt : id < tree.size := by simpa using hid
  rw [trees_cons_of_lt hlt, under_eq]
  rfl

end Tree

/-- the operand bytes below a node, the first at `position` -/
def leavesFrom (parent : Nat) : (position : Nat) → List Kind → Forest
  | _, [] => .nil
  | position, part :: parts => .cons position (partNode parent part) .nil (leavesFrom parent (position + 1) parts)

/-- one tree for each item, the first at `position` -/
def forestFrom : (position : Nat) → List Item → Forest
  | _, [] => .nil
  | position, item :: items =>
    .cons position (item.node position) (leavesFrom position (position + 1) item.parts)
      (forestFrom (position + item.width) items)

theorem drop_eq_cons {α : Type} {l rest : List α} {n : Nat} {a : α} (h : l.drop n = a :: rest) :
    l[n]? = some a ∧ l.drop (n + 1) = rest := by
  constructor
  · have := congrArg (·[0]?) h
    simpa using this
  · have := congrArg (List.drop 1) h
    simpa using this

theorem trees_parts {tree : Tree} {parent position : Nat} {parts : List Kind} {after : List Node}
    (h : tree.nodes.toList.drop position = parts.map (partNode parent) ++ after) :
    tree.trees (List.range' position parts.length) = leavesFrom parent position parts := by
  induction parts generalizing position with
  | nil => rfl
  | cons part parts ih =>
    obtain ⟨hnode, hrest⟩ := drop_eq_cons h
    rw [List.length_cons, List.range'_succ, Tree.trees_cons hnode, ih hrest]
    rfl

theorem trees_positions {tree : Tree} {position : Nat} {items : List Item}
    (h : tree.nodes.toList.drop position = nodesFrom position items) :
    tree.trees (positionsFrom position items) = forestFrom position items := by
  induction items generalizing position with
  | nil => rfl
  | cons item items ih =>
    obtain ⟨hnode, hparts⟩ := drop_eq_cons h
    have hrest : tree.nodes.toList.drop (position + item.width) = nodesFrom (position + item.width) items := by
      have hw : position + item.width = position + 1 + (item.parts.map (partNode position)).length := by
        rw [Item.width, List.length_map, Nat.add_assoc]
      rw [hw, ← List.drop_drop, hparts, ← hw]
      exact List.drop_left
    rw [positionsFrom, Tree.trees_cons hnode, ih hrest, forestFrom]
    congr 1
    exact trees_parts hparts

theorem node_root_ofItems (items : List Item) :
    (Program.ofItems items).tree.node (Program.ofItems items).tree.root = Program.rootNode items := by
  have h0 : (Program.ofItems items).tree.nodes.toList[0]? = some (Program.rootNode items) := by
    rw [Program.nodes_ofItems]
    rfl
  obtain ⟨_, h⟩ := List.getElem?_eq_some_iff.1 h0
  exact h

/-- **The forest of a program** has one tree for each item. -/
theorem under_ofItems (items : List Item) :
    (Program.ofItems items).tree.under (Program.ofItems items).tree.root = forestFrom 1 items := by
  rw [Tree.under_eq, node_root_ofItems]
  exact trees_positions (by rw [Program.nodes_ofItems]; rfl)

theorem span_leavesFrom (parent position : Nat) (parts : List Kind) :
    (leavesFrom parent position parts).span = parts.length := by
  induction parts generalizing position with
  | nil => rfl
  | cons part parts ih => simp [leavesFrom, ih, partNode, Nat.add_comm]

theorem span_forestFrom (position : Nat) (items : List Item) : (forestFrom position items).span = totalSize items := by
  induction items generalizing position with
  | nil => rfl
  | cons item items ih =>
    rw [forestFrom, Forest.span_cons, span_leavesFrom, ih, totalSize_cons, Item.size_eq]
    rfl

theorem lengthWith_partNode (parent : Nat) (part : Kind) : (partNode parent part).lengthWith .nil = .ok 1 :=
  Node.lengthWith_eq_ok (by simp [partNode, Check.wordLimit])

theorem Item.lengthWith_node (item : Item) {position : Nat} (h : item.size < Check.wordLimit) :
    (item.node position).lengthWith (leavesFrom position (position + 1) item.parts) = .ok item.size := by
  have hspan : (item.node position).length + (leavesFrom position (position + 1) item.parts).span = item.size := by
    rw [span_leavesFrom, item.size_eq]
    rfl
  rw [Node.lengthWith_eq_ok (by omega), hspan]

theorem length_ofItems (items : List Item) :
    (Program.ofItems items).length =
      if totalSize items < Check.wordLimit then .ok (totalSize items) else .error .sumOverflow := by
  rw [Program.length, Tree.length, node_root_ofItems, under_ofItems, Node.lengthWith_eq, span_forestFrom]
  simp only [Program.rootNode, Nat.zero_add]

end Asm6502
