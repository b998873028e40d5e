/-
The links of a tree that pushes have made, and what a walk along them meets.

Parents and lists of children are kept side by side, and nothing but the way in which a push writes them makes the two
agree. `Growth` has one half of that: who stands in a list of children has its owner as parent. Here is the other half,
that everybody but the root stands in the list of its parent, once and behind those who came before.

- `WellLinked`: what parents and lists of children are like; `Grown.wellLinked` holds it after any pushes.
- `Pushed`: what one push changes, and that it changes nothing else.
- `Below.linear`: of two positions above a third, one is above the other. So the walks down from two children of one
  node have nothing in common, and no walk meets a position twice (`Grown.nodup_positions`).
- `Grown.positions_perm`: the walk down from the root meets every position once.
- `Grown.below_iff_leadsUp`: down the lists of children and up from parent to parent is the same way.
-/
import Mathlib.Data.List.Nodup
import Asm6502.Proofs.Growth

namespace Asm6502.Tree

/-! ## Parents and lists of children -/

theorem Grown.parent_eq_none_iff {tree : Tree} (h : tree.Grown) {id : Nat} {node : Node}
    (hnode : tree.nodes[id]? = some node) : node.parent = none ↔ id = 0 := by
  induction h generalizing id node with
  | new =>
    obtain ⟨rfl, rfl⟩ := new_cases hnode
    exact ⟨fun _ => rfl, fun _ => rfl⟩
  | @push tree hg parent label length kind ih =>
    rcases push_cases hnode with ⟨rfl, rfl⟩ | ⟨old, hold, rfl⟩
    · constructor
      · intro hnone
        cases hnone
      · intro hzero
        exact absurd hzero (Nat.ne_of_gt tree.nonempty)
    · exact (ih hold : old.parent = none ↔ id = 0)

/-- whoever has a parent stands in the parent's list of children -/
theorem Grown.mem_children {tree : Tree} (h : tree.Grown) {id parent : Nat} {node : Node}
    (hnode : tree.nodes[id]? = some node) (hparent : node.parent = some parent) :
    ∃ up, tree.nodes[parent]? = some up ∧ id ∈ up.children := by
  induction h generalizing id parent node with
  | new =>
    obtain ⟨-, rfl⟩ := new_cases hnode
    cases hparent
  | @push tree hg above label length kind ih =>
    rcases push_cases hnode with ⟨rfl, rfl⟩ | ⟨old, hold, rfl⟩
    · cases hparent
      exact ⟨_, getElem?_push_old (tree.getElem?_node above), mem_children_push.2 (.inr ⟨rfl, rfl⟩)⟩
    · obtain ⟨up, hup, hm⟩ := ih hold hparent
      exact ⟨_, getElem?_push_old hup, mem_children_push.2 (.inl hm)⟩

/-- a list of children is in order of creation -/
theorem Grown.ascending {tree : Tree} (h : tree.Grown) {id : Nat} {node : Node}
    (hnode : tree.nodes[id]? = some node) : node.children.toList.Pairwise (· < ·) := by
  induction h generalizing id node with
  | new =>
    obtain ⟨-, rfl⟩ := new_cases hnode
    exact .nil
  | @push tree hg parent label length kind ih =>
    rcases push_cases hnode with ⟨-, rfl⟩ | ⟨old, hold, rfl⟩
    · exact .nil
    · split
      · -- what was in the list was in the tree, and so before the new node
        have hlast : ∀ child ∈ old.children.toList, child < tree.size := by
          intro child hc
          exact (child_bounds hold (Array.mem_def.2 hc)).2
        simpa [Node.withChildren, List.pairwise_append] using ⟨ih hold, fun child hc =>
          hlast child (Array.mem_def.1 hc)⟩
      · rw [Node.withChildren_nil]
        exact ih hold

/-- nobody stands in the lists of two nodes -/
theorem Linked.owner_unique {tree : Tree} (hl : tree.Linked) {id other child : Nat} {node node' : Node}
    (hnode : tree.nodes[id]? = some node) (hc : child ∈ node.children) (hnode' : tree.nodes[other]? = some node')
    (hc' : child ∈ node'.children) : id = other := by
  obtain ⟨below, hbelow, hback⟩ := hl id node hnode child hc
  obtain ⟨below', hbelow', hback'⟩ := hl other node' hnode' child hc'
  rw [hbelow] at hbelow'
  cases hbelow'
  rw [hback] at hback'
  exact Option.some.inj hback'

/-- what the two sets of links are like -/
structure WellLinked (tree : Tree) : Prop where
  parent_eq_none_iff : ∀ id, (tree.node id).parent = none ↔ id = tree.root
  /-- everybody but the root has an earlier parent, stands in its list once, and in no other list -/
  parent : ∀ id, id ≠ tree.root → ∃ parent < id, (tree.node id).parent = some parent.val ∧
    (tree.node parent).children.count id.val = 1 ∧ ∀ other, other ≠ parent → id.val ∉ (tree.node other).children
  ascending : ∀ id, (tree.node id).children.toList.Pairwise (· < ·)

/-- **Parents and lists of children agree** in every tree that pushes have made. -/
theorem Grown.wellLinked {tree : Tree} (h : tree.Grown) : tree.WellLinked where
  parent_eq_none_iff := by
    intro id
    rw [h.parent_eq_none_iff (tree.getElem?_node id), Fin.ext_iff]
    rfl
  parent := by
    intro id hid
    have hne : (tree.node id).parent ≠ none := by
      intro hnone
      exact hid (Fin.ext ((h.parent_eq_none_iff (tree.getElem?_node id)).1 hnone))
    obtain ⟨parent, hparent⟩ := Option.ne_none_iff_exists'.1 hne
    obtain ⟨up, hup, hm⟩ := h.mem_children (tree.getElem?_node id) hparent
    obtain ⟨hlt, rfl⟩ := Array.getElem?_eq_some_iff.1 hup
    have hnodup : (tree.node ⟨parent, hlt⟩).children.toList.Nodup := (h.ascending hup).imp Nat.ne_of_lt
    refine ⟨⟨parent, hlt⟩, (child_bounds hup hm).1, hparent, ?_, ?_⟩
    · rw [← Array.count_toList]
      exact List.count_eq_one_of_mem hnodup (Array.mem_def.1 hm)
    · intro other hother hin
      exact hother (Fin.ext (h.linked.owner_unique (tree.getElem?_node other) hin hup hm))
  ascending := by
    intro id
    exact h.ascending (tree.getElem?_node id)

/-- `after` is `before` with `node` as a new child of `parent`: the position of the new node is the size before, and of
the nodes that were there only the parent changes, by that position at the end of its list -/
structure Pushed (before : Tree) (parent : Fin before.size) (node : Node) (after : Tree) : Prop where
  size_eq : after.size = before.size + 1
  new : after.nodes[before.size]? = some node
  owner : after.nodes[parent.val]? =
    some { before.node parent with children := (before.node parent).children.push before.size }
  others : ∀ id, id ≠ parent → after.nodes[id.val]? = some (before.node id)

theorem pushed_push (tree : Tree) (parent : Fin tree.size) (label : Option String) (length : Nat) (kind : Kind) :
    tree.Pushed parent ⟨some parent.val, label, length, kind, #[]⟩ (tree.push parent label length kind) where
  size_eq := tree.size_push parent label length kind
  new := getElem?_push_new
  owner := by
    rw [getElem?_push_old (tree.getElem?_node parent), if_pos rfl, Node.withChildren, Array.push_eq_append]
  others := by
    intro id hid
    rw [getElem?_push_old (tree.getElem?_node id), if_neg fun heq => hid (Fin.ext heq), Node.withChildren_nil]

/-! ## Up and down -/

/-- the way up from a position, from parent to parent, comes to `top` -/
inductive LeadsUp (tree : Tree) (top : Nat) : Nat → Prop where
  | refl : LeadsUp tree top top
  | parent {id parent : Nat} {node : Node} (hnode : tree.nodes[id]? = some node) (hparent : node.parent = some parent)
      (h : LeadsUp tree top parent) : LeadsUp tree top id

/-- **Down the lists of children and up from parent to parent is the same way.** -/
theorem Grown.below_iff_leadsUp {tree : Tree} (h : tree.Grown) {top id : Nat} :
    tree.Below top id ↔ tree.LeadsUp top id := by
  constructor
  · intro hbelow
    induction hbelow with
    | refl => exact .refl
    | child _ hnode hc ih =>
      obtain ⟨below, hbelow, hback⟩ := h.linked _ _ hnode _ hc
      exact .parent hbelow hback ih
  · intro hup
    induction hup with
    | refl => exact .refl
    | parent hnode hparent _ ih =>
      obtain ⟨up, hup, hm⟩ := h.mem_children hnode hparent
      exact ih.child hup hm

/-- of two positions above a third, one is above the other -/
theorem Below.linear {tree : Tree} (hl : tree.Linked) {first second id : Nat} (h : tree.Below first id)
    (h' : tree.Below second id) : tree.Below first second ∨ tree.Below second first := by
  induction h with
  | refl => exact .inr h'
  | child hup hnode hc ih =>
    cases h' with
    | refl => exact .inl (hup.child hnode hc)
    | child hup' hnode' hc' =>
      have howner := hl.owner_unique hnode hc hnode' hc'
      subst howner
      exact ih hup'

/-- nothing is below two children of one node -/
theorem Linked.siblings_apart {tree : Tree} (hl : tree.Linked) {top first second id : Nat} {node : Node}
    (hnode : tree.nodes[top]? = some node) (hfirst : first ∈ node.children) (hsecond : second ∈ node.children)
    (hlt : first < second) (h : tree.Below first id) (h' : tree.Below second id) : False := by
  have htop := (child_bounds hnode hfirst).1
  rcases h.linear hl h' with hdown | hdown
  · cases hdown with
    | refl => omega
    | child hup hnode' hc' =>
      -- the owner of the second one's list is `top`, which is before the first one
      have howner := hl.owner_unique hnode hsecond hnode' hc'
      have := hup.le
      omega
  · have := hdown.le
    omega

/-! ## Walks -/

/-- the positions that the walk down from `top` meets, in order -/
def positions (tree : Tree) (top : Fin tree.size) : List Nat :=
  (tree.preorder top).map Prod.fst

theorem mem_positions_iff {tree : Tree} {top : Fin tree.size} {id : Nat} :
    id ∈ tree.positions top ↔ tree.Below top.val id := by
  constructor
  · intro hm
    obtain ⟨⟨position, node⟩, hentry, rfl⟩ := List.mem_map.1 hm
    exact (mem_preorder_iff.1 hentry).1
  · intro hbelow
    have hnode := tree.getElem?_node ⟨id, hbelow.lt_size top.isLt⟩
    exact List.mem_map.2 ⟨_, mem_preorder_iff.2 ⟨hbelow, hnode⟩, rfl⟩

theorem nodup_trees {tree : Tree} {ids : List Nat} (hlt : ∀ id ∈ ids, id < tree.size)
    (hapart : ids.Pairwise fun first second => ∀ id, tree.Below first id → ¬ tree.Below second id)
    (hown : ∀ id : Fin tree.size, id.val ∈ ids → (tree.positions id).Nodup) :
    ((tree.trees ids).preorder.map Prod.fst).Nodup := by
  induction ids with
  | nil => exact .nil
  | cons id ids ih =>
    have hid := hlt id List.mem_cons_self
    have hlt' : ∀ other ∈ ids, other < tree.size := fun other hm => hlt other (List.mem_cons_of_mem _ hm)
    obtain ⟨hfirst, hrest⟩ := List.pairwise_cons.1 hapart
    rw [preorder_trees_cons hid, List.map_append, List.nodup_append']
    refine ⟨hown ⟨id, hid⟩ List.mem_cons_self, ?_, ?_⟩
    · exact ih hlt' hrest fun other hm => hown other (List.mem_cons_of_mem _ hm)
    · intro position hm hm'
      obtain ⟨entry, hentry, rfl⟩ := List.mem_map.1 hm'
      obtain ⟨other, hother, hin⟩ := (mem_preorder_trees hlt' entry).1 hentry
      exact hfirst other.val hother entry.1 (mem_positions_iff.1 hm) (mem_preorder_iff.1 hin).1

/-- **No walk meets a position twice.** -/
theorem Grown.nodup_positions {tree : Tree} (h : tree.Grown) (top : Fin tree.size) : (tree.positions top).Nodup := by
  have hnode := tree.getElem?_node top
  have hbounds : ∀ child ∈ (tree.node top).children.toList, top.val < child ∧ child < tree.size := by
    intro child hc
    exact child_bounds hnode (Array.mem_def.2 hc)
  have hapart : (tree.node top).children.toList.Pairwise fun first second =>
      ∀ id, tree.Below first id → ¬ tree.Below second id := by
    refine (h.ascending hnode).imp_of_mem fun hfirst hsecond hlt id hdown hdown' => ?_
    exact h.linked.siblings_apart hnode (Array.mem_def.2 hfirst) (Array.mem_def.2 hsecond) hlt hdown hdown'
  have hchildren : ((tree.trees (tree.node top).children.toList).preorder.map Prod.fst).Nodup := by
    refine nodup_trees (fun child hc => (hbounds child hc).2) hapart fun child hc => ?_
    have hlater := (hbounds child.val hc).1
    exact Grown.nodup_positions h child
  rw [positions, preorder, List.map_cons, under_eq, List.nodup_cons]
  refine ⟨fun hm => ?_, hchildren⟩
  -- what the walk meets later is below a child, and so behind `top`
  obtain ⟨entry, hentry, heq⟩ := List.mem_map.1 hm
  obtain ⟨child, hc, hin⟩ := (mem_preorder_trees (fun child hc => (hbounds child hc).2) entry).1 hentry
  have hlater := (hbounds child.val hc).1
  have hdown := (mem_preorder_iff.1 hin).1.le
  omega
  termination_by tree.size - top.val

/-- everything is below the root -/
theorem Grown.below_root {tree : Tree} (h : tree.Grown) (id : Fin tree.size) : tree.Below 0 id.val := by
  by_cases hid : id = tree.root
  · rw [hid]
    exact .refl
  · obtain ⟨parent, hlt, hparent, _⟩ := h.wellLinked.parent id hid
    have hbefore : parent.val < id.val := hlt
    obtain ⟨up, hup, hm⟩ := h.mem_children (tree.getElem?_node id) hparent
    exact (Grown.below_root h parent).child hup hm
  termination_by id.val

/-- **The walk down from the root meets every position once.** -/
theorem Grown.positions_perm {tree : Tree} (h : tree.Grown) :
    (tree.positions tree.root).Perm (List.range tree.size) := by
  refine (List.perm_ext_iff_of_nodup (h.nodup_positions tree.root) List.nodup_range).2 fun id => ?_
  rw [mem_positions_iff, List.mem_range]
  exact ⟨fun hbelow => hbelow.lt_size tree.nonempty, fun hlt => h.below_root ⟨id, hlt⟩⟩

end Asm6502.Tree
