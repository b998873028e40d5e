/-
What the tree of a program looks like, whatever was called to build it.

A node of a program is the root, the own node of an item, or one of the operand bytes of an item (`NodeAt`), and nothing
else stands in the array (`getElem?_nodes_iff`). Every statement about single nodes is a case analysis over these three.

- `Mode.Takes`: the operand and the operand bytes that an instruction has in each mode.
- `Program.WellBuilt`: the invariant. It says what the root, labels, data, instructions and operand bytes look like,
  that the array holds the tree in preorder, and how long the program is.
- `preorder_forestFrom`: walking down from the root meets the nodes in the order of the array.
- `wellBuilt_build`: the invariant holds after any steps, failing ones included.
-/
import Asm6502.Proofs.Arena

namespace Asm6502

/-! ## The invariant -/

/-- the operand as written and the operand bytes below an instruction, mode by mode -/
inductive Mode.Takes : Mode → Option Operand → List Kind → Prop where
  | implied : Takes .implied none []
  | accumulator : Takes .accumulator none []
  | immediate (value : Int32) (h : 0 ≤ value.toInt ∧ value.toInt ≤ 255) :
      Takes .immediate (some (.literal value)) [.immediate (UInt8.ofInt value.toInt)]
  | zeroPage (index : Index) (operand : Operand) : Takes (.zeroPage index) (some operand) [.zeroPage operand]
  | absolute (index : Index) (operand : Operand) :
      Takes (.absolute index) (some operand) [.absoluteLow operand, .absoluteHigh operand]
  | relative (operand : Operand) : Takes .relative (some operand) [.branchOffset operand]

def Kind.isOperandByte : Kind → Bool
  | .immediate _ => true
  | .zeroPage _ => true
  | .absoluteLow _ => true
  | .absoluteHigh _ => true
  | .branchOffset _ => true
  | _ => false

namespace Tree

/-- one node stands below another, and both nodes say so -/
structure IsChild (tree : Tree) (child parent : Fin tree.size) : Prop where
  parent_eq : (tree.node child).parent = some parent.val
  mem_children : child.val ∈ (tree.node parent).children

def childKinds (tree : Tree) (id : Fin tree.size) : List (Option Kind) :=
  (tree.node id).children.toList.map fun child => tree.nodes[child]?.map Node.kind

/-- the number of nodes that are neither the root nor labels -/
def codeNodes (tree : Tree) : Nat :=
  tree.nodes.toList.countP fun node => node.kind ≠ .root ∧ node.kind ≠ .label

end Tree

/-- what every program under construction looks like -/
structure Program.WellBuilt (program : Program) : Prop where
  opcodes_eq : program.opcodes = .mos6502
  root : (program.tree.node program.tree.root).parent = none ∧
    (program.tree.node program.tree.root).label = none ∧
    (program.tree.node program.tree.root).length = 0 ∧ (program.tree.node program.tree.root).kind = .root
  root_unique : ∀ id, (program.tree.node id).kind = .root → id = program.tree.root
  label : ∀ id, (program.tree.node id).kind = .label →
    program.tree.IsChild id program.tree.root ∧ (program.tree.node id).children = #[] ∧
      (program.tree.node id).length = 0 ∧ ∃ name, (program.tree.node id).label = some name
  unnamed : ∀ id, id ≠ program.tree.root → (program.tree.node id).kind ≠ .label →
    (program.tree.node id).length = 1 ∧ (program.tree.node id).label = none
  data : ∀ id value, (program.tree.node id).kind = .data value →
    program.tree.IsChild id program.tree.root ∧ (program.tree.node id).children = #[]
  instruction : ∀ id mnemonic mode opcode operand,
    (program.tree.node id).kind = .instruction mnemonic mode opcode operand →
      program.tree.IsChild id program.tree.root ∧
        ∃ parts, mode.Takes operand parts ∧ program.tree.childKinds id = parts.map some
  operandByte : ∀ id, (program.tree.node id).kind.isOperandByte →
    (program.tree.node id).children = #[] ∧ ∃ owner mnemonic mode opcode operand, program.tree.IsChild id owner ∧
      (program.tree.node owner).kind = .instruction mnemonic mode opcode operand
  /-- node by node, the walk down from the root is the array -/
  preorder_eq : program.tree.preorder program.tree.root = program.tree.nodes.toList.zipIdx.map Prod.swap
  /-- each of these nodes is one byte long; as a 32-bit number, the length may overflow -/
  length_eq : program.length =
    if program.tree.codeNodes < 0x100000000 then .ok program.tree.codeNodes else .error .sumOverflow

/-! ## Operands and operand bytes -/

theorem Form.takes (form : Form) : form.mode.Takes form.operand form.parts := by
  cases form with
  | implied => exact .implied
  | accumulator => exact .accumulator
  | immediate value =>
    have hlt := value.toNat_lt
    have hvalue : (Int32.ofNat value.toNat).toInt = value.toNat :=
      Int32.toInt_ofNat_of_lt (Nat.lt_trans hlt (by decide))
    have hbyte : UInt8.ofInt (Int32.ofNat value.toNat).toInt = value := by
      apply UInt8.toNat_inj.1
      rw [hvalue, UInt8.ofInt, UInt8.toNat_ofNat']
      omega
    have htakes := Mode.Takes.immediate (Int32.ofNat value.toNat) (by omega)
    rw [hbyte] at htakes
    exact htakes
  | zeroPage index operand => exact .zeroPage index operand
  | absolute index operand => exact .absolute index operand
  | relative operand => exact .relative operand

theorem Item.isOperandByte_of_mem {item : Item} {part : Kind} (h : part ∈ item.parts) :
    part.isOperandByte = true ∧ ∃ mnemonic opcode form, item = .instruction mnemonic opcode form := by
  cases item with
  | label name => cases h
  | data value => cases h
  | instruction mnemonic opcode form =>
    refine ⟨?_, mnemonic, opcode, form, rfl⟩
    have hall : ∀ other ∈ form.parts, other.isOperandByte = true := by
      cases form <;> simp [Form.parts, Kind.isOperandByte]
    exact hall part h

/-! ## Where each node comes from -/

/-- the node at position `id` of the program made of the given items -/
inductive NodeAt (items : List Item) : (id : Nat) → Node → Prop where
  | root : NodeAt items 0 (Program.rootNode items)
  /-- the own node of an item -/
  | own (before : List Item) (item : Item) (after : List Item) (hi : items = before ++ item :: after) :
      NodeAt items (1 + totalWidth before) (item.node (1 + totalWidth before))
  /-- an operand byte of an item -/
  | part (before : List Item) (item : Item) (after : List Item) (hi : items = before ++ item :: after) (j : Nat)
      (part : Kind) (hp : item.parts[j]? = some part) :
      NodeAt items (1 + totalWidth before + 1 + j) (partNode (1 + totalWidth before) part)

/-- looking into the nodes of the items is looking into the nodes of one item -/
theorem getElem?_nodesFrom_iff {position place : Nat} {items : List Item} {node : Node} :
    (nodesFrom position items)[place]? = some node ↔
      ∃ before item after j, items = before ++ item :: after ∧ place = totalWidth before + j ∧
        (item.nodes (position + totalWidth before))[j]? = some node := by
  induction items generalizing position place with
  | nil =>
    constructor
    · intro h
      simp [nodesFrom] at h
    · rintro ⟨before, item, after, j, hi, _⟩
      simp at hi
  | cons first items ih =>
    rw [nodesFrom, List.getElem?_append, Item.length_nodes]
    constructor
    · intro h
      split at h
      next hlt => exact ⟨[], first, items, place, rfl, (Nat.zero_add place).symm, h⟩
      next hge =>
        obtain ⟨before, item, after, j, rfl, hplace, hnode⟩ := ih.1 h
        refine ⟨first :: before, item, after, j, rfl, ?_, ?_⟩
        · rw [totalWidth]
          omega
        · rw [totalWidth, ← Nat.add_assoc]
          exact hnode
    · rintro ⟨before, item, after, j, hi, rfl, hnode⟩
      rcases List.cons_eq_append_iff.1 hi with ⟨rfl, hcons⟩ | ⟨before, rfl, rfl⟩
      · cases hcons
        have hj : j < first.width := by
          obtain ⟨hj, _⟩ := List.getElem?_eq_some_iff.1 hnode
          rwa [Item.length_nodes] at hj
        rw [if_pos (by simp only [totalWidth]; omega)]
        simpa [totalWidth] using hnode
      · rw [totalWidth, ← Nat.add_assoc] at hnode
        rw [totalWidth, if_neg (by omega)]
        exact ih.2 ⟨before, item, after, j, rfl, by omega, hnode⟩

/-- **The array holds these nodes and no others.** -/
theorem getElem?_nodes_iff {items : List Item} {id : Nat} {node : Node} :
    (Program.ofItems items).tree.nodes[id]? = some node ↔ NodeAt items id node := by
  rw [← Array.getElem?_toList, Program.nodes_ofItems]
  constructor
  · intro h
    cases id with
    | zero =>
      cases h
      exact .root
    | succ place =>
      rw [List.getElem?_cons_succ] at h
      obtain ⟨before, item, after, j, hi, rfl, hnode⟩ := getElem?_nodesFrom_iff.1 h
      cases j with
      | zero =>
        cases hnode
        rw [Nat.add_zero, Nat.add_comm (totalWidth before) 1]
        exact .own before item after hi
      | succ j =>
        rw [Item.nodes, List.getElem?_cons_succ, List.getElem?_map] at hnode
        obtain ⟨part, hp, rfl⟩ := Option.map_eq_some_iff.1 hnode
        have hplace : totalWidth before + (j + 1) + 1 = 1 + totalWidth before + 1 + j := by omega
        rw [hplace]
        exact .part before item after hi j part hp
  · intro h
    cases h with
    | root => rfl
    | own before item after hi =>
      rw [Nat.add_comm 1, List.getElem?_cons_succ]
      refine getElem?_nodesFrom_iff.2 ⟨before, item, after, 0, hi, rfl, ?_⟩
      rw [Nat.add_comm]
      rfl
    | part before item after hi j part hp =>
      have hplace : 1 + totalWidth before + 1 + j = totalWidth before + (j + 1) + 1 := by omega
      rw [hplace, List.getElem?_cons_succ]
      refine getElem?_nodesFrom_iff.2 ⟨before, item, after, j + 1, hi, rfl, ?_⟩
      rw [Item.nodes, List.getElem?_cons_succ, List.getElem?_map, hp]
      rfl

theorem nodeAt_node {items : List Item} (id : Fin (Program.ofItems items).tree.size) :
    NodeAt items id.val ((Program.ofItems items).tree.node id) :=
  getElem?_nodes_iff.1 (Array.getElem?_eq_getElem id.isLt)

theorem NodeAt.lt_size {items : List Item} {id : Nat} {node : Node} (h : NodeAt items id node) :
    ∃ hlt : id < (Program.ofItems items).tree.size, (Program.ofItems items).tree.node ⟨id, hlt⟩ = node :=
  Array.getElem?_eq_some_iff.1 (getElem?_nodes_iff.2 h)

/-! ## One node -/

section Nodes

variable {items : List Item} {id : Nat} {node : Node}

theorem mem_positionsFrom (position : Nat) (before : List Item) (item : Item) (after : List Item) :
    position + totalWidth before ∈ positionsFrom position (before ++ item :: after) := by
  rw [positionsFrom_append]
  exact List.mem_append_right _ List.mem_cons_self

theorem NodeAt.eq_zero_of_root (h : NodeAt items id node) (hk : node.kind = .root) : id = 0 := by
  cases h with
  | root => rfl
  | own before item after hi => cases item <;> cases hk
  | part before item after hi j part hp =>
    have hbyte := (Item.isOperandByte_of_mem (List.mem_of_getElem? hp)).1
    rw [show part = .root from hk] at hbyte
    cases hbyte

/-- labels, data and instructions are the items' own nodes -/
theorem NodeAt.own_of_not_operandByte (h : NodeAt items id node) (hroot : node.kind ≠ .root)
    (hk : node.kind.isOperandByte = false) :
    ∃ before item after, items = before ++ item :: after ∧ id = 1 + totalWidth before ∧ node = item.node id := by
  cases h with
  | root => exact absurd rfl hroot
  | own before item after hi => exact ⟨before, item, after, hi, rfl, rfl⟩
  | part before item after hi j part hp =>
    have hbyte := (Item.isOperandByte_of_mem (List.mem_of_getElem? hp)).1
    rw [show part.isOperandByte = false from hk] at hbyte
    cases hbyte

/-- a node that is neither the root nor a label is one byte long and has no name -/
theorem NodeAt.unnamed (h : NodeAt items id node) (hid : id ≠ 0) (hk : node.kind ≠ .label) :
    node.length = 1 ∧ node.label = none := by
  cases h with
  | root => exact absurd rfl hid
  | own before item after hi =>
    cases item with
    | label name => exact absurd rfl hk
    | data value => exact ⟨rfl, rfl⟩
    | instruction mnemonic opcode form => exact ⟨rfl, rfl⟩
  | part before item after hi j part hp => exact ⟨rfl, rfl⟩

end Nodes

section Children

variable {before after : List Item} {item : Item}

/-- the own node of an item stands below the root -/
theorem isChild_root {items : List Item} {id : Fin (Program.ofItems items).tree.size}
    (hi : items = before ++ item :: after) (hid : id.val = 1 + totalWidth before)
    (hnode : (Program.ofItems items).tree.node id = item.node id.val) :
    (Program.ofItems items).tree.IsChild id (Program.ofItems items).tree.root := by
  refine ⟨by rw [hnode]; rfl, ?_⟩
  rw [node_root_ofItems, hid, hi, Program.rootNode, List.mem_toArray]
  exact mem_positionsFrom 1 before item after

/-- the children of an item's own node are its operand bytes -/
theorem childKinds_own {items : List Item} {id : Fin (Program.ofItems items).tree.size}
    (hi : items = before ++ item :: after) (hid : id.val = 1 + totalWidth before)
    (hnode : (Program.ofItems items).tree.node id = item.node id.val) :
    (Program.ofItems items).tree.childKinds id = item.parts.map some := by
  rw [Tree.childKinds, hnode]
  apply List.ext_getElem
  · simp [Item.node]
  · intro j _ hj
    have hlt : j < item.parts.length := by simpa using hj
    have hpart : item.parts[j]? = some item.parts[j] := List.getElem?_eq_getElem hlt
    have hat := getElem?_nodes_iff.2 (NodeAt.part before item after hi j _ hpart)
    rw [← hid] at hat
    simp [Item.node, hat, partNode]

/-- an operand byte is a leaf, and stands below an instruction -/
theorem operandByte_owner {items : List Item} {id : Fin (Program.ofItems items).tree.size}
    (hk : ((Program.ofItems items).tree.node id).kind.isOperandByte) :
    ((Program.ofItems items).tree.node id).children = #[] ∧ ∃ owner mnemonic mode opcode operand,
      (Program.ofItems items).tree.IsChild id owner ∧
        ((Program.ofItems items).tree.node owner).kind = .instruction mnemonic mode opcode operand := by
  have hat := nodeAt_node id
  generalize hid : id.val = place at hat
  generalize hnode : (Program.ofItems items).tree.node id = node at hat hk
  cases hat with
  | root => cases hk
  | own before item after hi => cases item <;> cases hk
  | part before item after hi j part hp =>
    obtain ⟨_, mnemonic, opcode, form, rfl⟩ := Item.isOperandByte_of_mem (List.mem_of_getElem? hp)
    obtain ⟨howner, hown⟩ := (NodeAt.own before _ after hi).lt_size
    refine ⟨rfl, ⟨_, howner⟩, mnemonic, form.mode, opcode, form.operand, ⟨by rw [hnode]; rfl, ?_⟩, by rw [hown]; rfl⟩
    obtain ⟨hj, _⟩ := List.getElem?_eq_some_iff.1 hp
    rw [hown, hid, Item.node, List.mem_toArray, List.mem_range'_1]
    omega

end Children

/-! ## All nodes -/

theorem preorder_leavesFrom (parent position : Nat) (parts : List Kind) :
    (leavesFrom parent position parts).preorder =
      ((parts.map (partNode parent)).zipIdx position).map Prod.swap := by
  induction parts generalizing position with
  | nil => rfl
  | cons part parts ih =>
    rw [leavesFrom, Forest.preorder_cons, ih]
    rfl

/-- **The walk is the array**: each item's own node, then its operand bytes, then the next item. -/
theorem preorder_forestFrom (position : Nat) (items : List Item) :
    (forestFrom position items).preorder = ((nodesFrom position items).zipIdx position).map Prod.swap := by
  induction items generalizing position with
  | nil => rfl
  | cons item items ih =>
    rw [forestFrom, Forest.preorder_cons, preorder_leavesFrom, ih, nodesFrom, List.zipIdx_append, List.map_append,
      Item.length_nodes]
    rfl

theorem countP_nodesFrom (position : Nat) (items : List Item) :
    (nodesFrom position items).countP (fun node => node.kind ≠ .root ∧ node.kind ≠ .label) = totalSize items := by
  induction items generalizing position with
  | nil => rfl
  | cons item items ih =>
    have hparts : (item.parts.map (partNode position)).countP
        (fun node => node.kind ≠ .root ∧ node.kind ≠ .label) = item.parts.length := by
      rw [← List.length_map (partNode position), List.countP_eq_length]
      intro node hm
      obtain ⟨part, hp, rfl⟩ := List.mem_map.1 hm
      have hbyte := (Item.isOperandByte_of_mem hp).1
      cases part <;> simp_all [partNode, Kind.isOperandByte]
    have hown : (if (item.node position).kind ≠ .root ∧ (item.node position).kind ≠ .label then 1 else 0) =
        item.ownLength := by
      cases item <;> rfl
    rw [nodesFrom, List.countP_append, ih, Item.nodes, List.countP_cons, hparts, totalSize_cons, item.size_eq, ← hown]
    simp [Nat.add_comm]

theorem codeNodes_ofItems (items : List Item) : (Program.ofItems items).tree.codeNodes = totalSize items := by
  rw [Tree.codeNodes, Program.nodes_ofItems, List.countP_cons, countP_nodesFrom]
  rfl

/-! ## All programs -/

theorem wellBuilt_ofItems (items : List Item) : (Program.ofItems items).WellBuilt where
  opcodes_eq := Program.opcodes_appendAll Program.new items
  root := by
    rw [node_root_ofItems]
    exact ⟨rfl, rfl, rfl, rfl⟩
  root_unique := by
    intro id hk
    exact Fin.ext ((nodeAt_node id).eq_zero_of_root hk)
  label := by
    intro id hk
    obtain ⟨before, item, after, hi, hid, hnode⟩ :=
      (nodeAt_node id).own_of_not_operandByte (by rw [hk]; decide) (by rw [hk]; rfl)
    refine ⟨isChild_root hi hid hnode, ?_⟩
    rw [hnode] at hk ⊢
    cases item with
    | label name => exact ⟨rfl, rfl, name, rfl⟩
    | data value => cases hk
    | instruction mnemonic opcode form => cases hk
  unnamed := by
    intro id hid hk
    exact (nodeAt_node id).unnamed (fun h => hid (Fin.ext h)) hk
  data := by
    intro id value hk
    obtain ⟨before, item, after, hi, hid, hnode⟩ :=
      (nodeAt_node id).own_of_not_operandByte (by rw [hk]; simp) (by rw [hk]; rfl)
    refine ⟨isChild_root hi hid hnode, ?_⟩
    rw [hnode] at hk ⊢
    cases item with
    | label name => cases hk
    | data value => rfl
    | instruction mnemonic opcode form => cases hk
  instruction := by
    intro id mnemonic mode opcode operand hk
    obtain ⟨before, item, after, hi, hid, hnode⟩ :=
      (nodeAt_node id).own_of_not_operandByte (by rw [hk]; simp) (by rw [hk]; rfl)
    refine ⟨isChild_root hi hid hnode, item.parts, ?_, childKinds_own hi hid hnode⟩
    rw [hnode] at hk
    cases item with
    | label name => cases hk
    | data value => cases hk
    | instruction mnemonic opcode form =>
      cases hk
      exact form.takes
  operandByte := by
    intro id hk
    exact operandByte_owner hk
  preorder_eq := by
    rw [Tree.preorder, node_root_ofItems, under_ofItems, preorder_forestFrom, Program.nodes_ofItems]
    rfl
  length_eq := by
    rw [length_ofItems, codeNodes_ofItems]
    rfl

namespace Console

/-- **Every program is well built**, whatever steps it was built by and whichever of them failed. -/
theorem wellBuilt_build (steps : List Step) : (build steps).WellBuilt := by
  rw [build_eq]
  exact wellBuilt_ofItems (itemsOf steps)

end Console

end Asm6502
