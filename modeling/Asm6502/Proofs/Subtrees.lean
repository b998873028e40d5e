/-
How long a node is with all that is below it, as a plain sum.

`subtreeSum` adds up the lengths of all positions below a node, as numbers without a limit and without a walk. The
32-bit sums of `Tree.length` are nested: at every node the children's lengths are summed from zero, and the node's own
is added to that. None of these partial sums exceeds the whole, so they overflow just if the whole does not fit.

- `subtreeSum_eq`: the sum over positions is the sum along the walk, since the walk meets every position below once.
- `Grown.length_eq`: the length of a node is its sum, or the overflow.
- `subtreeSum_push`: a push adds its length to the sums of those that it is below, and changes no other.
- `Grown.exact_lengths`: both, with the nodes above found from parent to parent.
-/
import Mathlib.Algebra.BigOperators.Fin
import Asm6502.Proofs.Links
import Asm6502.Proofs.Scan

namespace Asm6502.Tree

/-! ## Sums -/

/-- where there is no node, nothing is below -/
theorem below_iff_eq {tree : Tree} {top id : Nat} (htop : ¬ top < tree.size) : tree.Below top id ↔ id = top := by
  constructor
  · intro h
    cases h with
    | refl => rfl
    | child hup hnode hc =>
      have := hup.le
      have := child_bounds hnode hc
      omega
  · rintro rfl
    exact .refl

instance (tree : Tree) (top id : Nat) : Decidable (tree.Below top id) :=
  if h : top < tree.size then decidable_of_iff (id ∈ tree.positions ⟨top, h⟩) mem_positions_iff
  else decidable_of_iff (id = top) (below_iff_eq h).symm

/-- the lengths of all nodes below `top`, itself included -/
def subtreeSum (tree : Tree) (top : Nat) : Nat :=
  ∑ id : Fin tree.size with tree.Below top id.val, (tree.node id).length

def lengthAt (tree : Tree) (id : Nat) : Nat :=
  (tree.nodes[id]?.map Node.length).getD 0

theorem lengthAt_eq {tree : Tree} {id : Nat} {node : Node} (h : tree.nodes[id]? = some node) :
    tree.lengthAt id = node.length := by
  rw [lengthAt, h]
  rfl

theorem subtreeSum_eq_sum_range (tree : Tree) (top : Nat) :
    tree.subtreeSum top = ∑ id ∈ Finset.range tree.size, if tree.Below top id then tree.lengthAt id else 0 := by
  rw [subtreeSum, Finset.sum_filter,
    ← Fin.sum_univ_eq_sum_range (fun id => if tree.Below top id then tree.lengthAt id else 0)]
  refine Finset.sum_congr rfl fun id _ => ?_
  rw [lengthAt_eq (tree.getElem?_node id)]

/-! ## The length of a node -/

/-- **The sum over positions is the sum along the walk.** -/
theorem Grown.subtreeSum_eq {tree : Tree} (h : tree.Grown) (top : Fin tree.size) :
    tree.subtreeSum top.val = lengthSum ((tree.preorder top).map Prod.snd) := by
  have hwalk : (tree.preorder top).map (fun entry => entry.2.length) = (tree.positions top).map tree.lengthAt := by
    rw [positions, List.map_map]
    refine List.map_congr_left fun entry hm => ?_
    exact (lengthAt_eq (mem_preorder_iff.1 hm).2).symm
  have hpositions : (tree.positions top).toFinset = (Finset.range tree.size).filter (tree.Below top.val) := by
    ext id
    rw [List.mem_toFinset, mem_positions_iff, Finset.mem_filter, Finset.mem_range]
    exact ⟨fun hbelow => ⟨hbelow.lt_size top.isLt, hbelow⟩, And.right⟩
  calc tree.subtreeSum top.val
      = ∑ id ∈ (Finset.range tree.size).filter (tree.Below top.val), tree.lengthAt id := by
        rw [subtreeSum_eq_sum_range, Finset.sum_filter]
    _ = ((tree.positions top).map tree.lengthAt).sum := by
        rw [← hpositions, List.sum_toFinset _ (h.nodup_positions top)]
    _ = lengthSum ((tree.preorder top).map Prod.snd) := by
        rw [← hwalk, lengthSum, List.map_map]
        rfl

/-- **The length of a node is the sum over all that is below it**, or the overflow. -/
theorem Grown.length_eq {tree : Tree} (h : tree.Grown) (top : Fin tree.size) :
    tree.length top =
      if tree.subtreeSum top.val < Check.wordLimit then .ok (tree.subtreeSum top.val) else .error .sumOverflow := by
  have hsum : tree.subtreeSum top.val = (tree.node top).length + (tree.under top).span := by
    rw [h.subtreeSum_eq, (tree.under top).span_eq_lengthSum]
    rfl
  rw [length, Node.lengthWith_eq, hsum]

/-! ## Pushing -/

section Push

variable {tree : Tree} {parent : Fin tree.size} {label : Option String} {length : Nat} {kind : Kind}

theorem Below.eq_or_child {top id : Nat} (h : tree.Below top id) :
    id = top ∨ ∃ up node, tree.Below top up ∧ tree.nodes[up]? = some node ∧ id ∈ node.children := by
  cases h with
  | refl => exact .inl rfl
  | child hup hnode hc => exact .inr ⟨_, _, hup, hnode, hc⟩

theorem Below.push {top id : Nat} (h : tree.Below top id) : (tree.push parent label length kind).Below top id := by
  induction h with
  | refl => exact .refl
  | child _ hnode hc ih => exact ih.child (getElem?_push_old hnode) (mem_children_push.2 (.inl hc))

/-- what was there before is below the same nodes as before -/
theorem below_push_old {top id : Nat} (hid : id < tree.size) :
    (tree.push parent label length kind).Below top id ↔ tree.Below top id := by
  constructor
  · intro h
    induction h with
    | refl => exact .refl
    | child _ hnode hc ih =>
      have hbounds := child_bounds hnode hc
      rcases push_cases hnode with ⟨-, rfl⟩ | ⟨old, hold, rfl⟩
      · simp at hc
      · rcases mem_children_push.1 hc with hc | ⟨-, rfl⟩
        · exact (ih (by omega)).child hold hc
        · omega
  · exact Below.push

/-- the new node is below what its parent is below -/
theorem below_push_new {top : Nat} (htop : top < tree.size) :
    (tree.push parent label length kind).Below top tree.size ↔ tree.Below top parent.val := by
  constructor
  · intro h
    rcases h.eq_or_child with heq | ⟨up, node, hup, hnode, hc⟩
    · omega
    · rcases push_cases hnode with ⟨-, rfl⟩ | ⟨old, hold, rfl⟩
      · simp at hc
      · rcases mem_children_push.1 hc with hc | ⟨rfl, -⟩
        · have := (child_bounds hold hc).2
          omega
        · exact (below_push_old parent.isLt).1 hup
  · intro h
    exact h.push.child (getElem?_push_old (tree.getElem?_node parent)) (mem_children_push.2 (.inr ⟨rfl, rfl⟩))

theorem lengthAt_push_old {id : Nat} (hid : id < tree.size) :
    (tree.push parent label length kind).lengthAt id = tree.lengthAt id := by
  have hold := tree.getElem?_node ⟨id, hid⟩
  rw [lengthAt_eq hold, lengthAt_eq (getElem?_push_old hold)]
  rfl

/-- **A push adds its length to the sums of those that it is below**, and changes no other. -/
theorem subtreeSum_push {top : Nat} (htop : top < tree.size) :
    (tree.push parent label length kind).subtreeSum top =
      tree.subtreeSum top + if tree.Below top parent.val then length else 0 := by
  rw [subtreeSum_eq_sum_range, subtreeSum_eq_sum_range, size_push, Finset.sum_range_succ]
  congr 1
  · refine Finset.sum_congr rfl fun id hm => ?_
    have hid := Finset.mem_range.1 hm
    simp only [below_push_old hid, lengthAt_push_old hid]
  · simp only [below_push_new htop, lengthAt_eq getElem?_push_new]

end Push

/-- **The length of a node is exact.** It is the sum of the lengths of all nodes below the node, itself included; it
overflows just if that sum does not fit 32 bits. A push adds its length to the sums of its parent and of all nodes above
the parent, and to no others. -/
theorem Grown.exact_lengths {tree : Tree} (h : tree.Grown) (top : Fin tree.size) :
    (tree.length top = .error .sumOverflow ↔ 0x100000000 ≤ tree.subtreeSum top.val) ∧
    (tree.subtreeSum top.val < 0x100000000 → tree.length top = .ok (tree.subtreeSum top.val)) ∧
    ∀ (parent : Fin tree.size) (label : Option String) (length : Nat) (kind : Kind),
      (tree.LeadsUp top.val parent.val →
        (tree.push parent label length kind).subtreeSum top.val = tree.subtreeSum top.val + length) ∧
      (¬ tree.LeadsUp top.val parent.val →
        (tree.push parent label length kind).subtreeSum top.val = tree.subtreeSum top.val) := by
  have hlimit : Check.wordLimit = 0x100000000 := rfl
  refine ⟨?_, fun hlt => ?_, fun parent label length kind => ⟨fun hup => ?_, fun hup => ?_⟩⟩
  · rw [h.length_eq, hlimit]
    split
    next hlt => simpa using hlt
    next hge => simpa using hge
  · rw [h.length_eq, hlimit, if_pos hlt]
  · rw [subtreeSum_push top.isLt, if_pos (h.below_iff_leadsUp.2 hup)]
  · rw [subtreeSum_push top.isLt, if_neg (mt h.below_iff_leadsUp.1 hup), Nat.add_zero]

/-- three nodes below each other, and one more below the root -/
def nested : Tree :=
  (((new.push new.root none 1 (.data 0)).push ⟨1, by simp⟩ none 2 (.data 1)).push ⟨2, by simp⟩ none 3 (.data 2)).push
    ⟨0, by simp⟩ none 1 (.data 3)

/-- one more node makes the sum of its parent 2³², and leaves that of the last node as it is -/
theorem exact_lengths_nested :
    nested.Grown ∧ nested.length ⟨2, by decide⟩ = .ok 5 ∧
    (nested.push ⟨2, by decide⟩ none 0xFFFFFFFB (.data 4)).length ⟨2, by decide⟩ = .error .sumOverflow ∧
    (nested.push ⟨2, by decide⟩ none 0xFFFFFFFB (.data 4)).subtreeSum 4 = 1 := by
  have hg : nested.Grown := (((Grown.new.push _ _ _ _).push _ _ _ _).push _ _ _ _).push _ _ _ _
  obtain ⟨_, hlength, hpush⟩ := hg.exact_lengths ⟨2, by decide⟩
  obtain ⟨_, _, hpush'⟩ := hg.exact_lengths ⟨4, by decide⟩
  have hsum : nested.subtreeSum 2 = 5 := by decide +kernel
  have hlast : nested.subtreeSum 4 = 1 := by decide +kernel
  have happart : ¬ nested.Below 4 2 := by decide +kernel
  refine ⟨hg, ?_, ?_, ?_⟩
  · rw [hlength (by rw [hsum]; decide), hsum]
  · refine ((hg.push _ _ _ _).exact_lengths ⟨2, by decide⟩).1.2 ?_
    rw [(hpush _ _ _ _).1 .refl, hsum]
  · rw [(hpush' _ _ _ _).2 (mt hg.below_iff_leadsUp.2 happart), hlast]

end Asm6502.Tree
