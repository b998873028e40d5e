/-
Where pass two stores each byte, in trees of any shape.

Pass one moves past every node by the node's length. Pass two does so only at a node that has a byte: at a root or a
label it goes on where it is. Past a whole tree both passes move by all of its lengths. So the two can differ only below
a root or label that has a length of its own; there pass two runs behind by that length, and by the lengths of all such
nodes further up. What a node lags behind is its drift.

- `visitAll`: one loop over nodes with their addresses.
- `Forest.resolve_eq`: the walk over a forest is the loop over its nodes in walking order, each at the address of pass
  one less its drift. The induction carries the drift of the trees at hand and the addresses of pass one.
- `Visited`: how the loop ends and what it leaves, said without the loop.
- `Tree.resolve_visits`: both together for every tree that pushes can make, with the condition under which the two
  passes agree.
-/
import Asm6502.Proofs.Growth
import Asm6502.Proofs.Scan
import Asm6502.Proofs.Storing

namespace Asm6502

/-! ## One visit after the other -/

/-- a root or a label: it has no byte -/
def Kind.declines : Kind → Bool
  | .root => true
  | .label => true
  | _ => false

theorem Kind.byte_of_declines {kind : Kind} (h : kind.declines = true) (labels : Labels) (address : Nat) :
    kind.byte labels address = .ok none := by
  cases kind with
  | root => rfl
  | label => rfl
  | _ => cases h

theorem Kind.byte_ne_none {kind : Kind} (h : kind.declines = false) (labels : Labels) (address : Nat) :
    kind.byte labels address ≠ .ok none := by
  apply Kind.Emits.byte_ne_none
  constructor
  · rintro rfl
    cases h
  · rintro rfl
    cases h

/-- what pass two does at a node: it stores the byte, or reports the name of a node without one -/
def Node.visit (labels : Labels) (node : Node) (address : Nat) : EStateM Fault Resolution Unit := do
  match ← node.kind.byte labels address with
  | some byte => modify fun stored => { stored with bytes := stored.bytes.insert address byte }
  | none =>
    match node.label with
    | some name => modify fun stored => { stored with trace := stored.trace ++ [.reached name address] }
    | none => pure ()

/-- visits nodes, each at its address, up to the first that has a fault -/
def visitAll (labels : Labels) : List (Nat × Node) → EStateM Fault Resolution Unit
  | [] => pure ()
  | (address, node) :: sites => do
    node.visit labels address
    visitAll labels sites

theorem visitAll_append (labels : Labels) (before after : List (Nat × Node)) :
    visitAll labels (before ++ after) = (do
      visitAll labels before
      visitAll labels after) := by
  induction before with
  | nil => simp [visitAll]
  | cons site before ih => simp [visitAll, ih]

/-- by how much pass two moves on at the node itself -/
def Node.advance (node : Node) : Nat :=
  if node.kind.declines then 0 else node.length

/-- by how much what stands below the node lags behind the node -/
def Node.slack (node : Node) : Nat :=
  if node.kind.declines then node.length else 0

theorem Node.advance_add_slack (node : Node) : node.advance + node.slack = node.length := by
  unfold advance slack
  split <;> simp

theorem Node.resolve_eq_visit (labels : Labels) {node : Node} {address : Nat}
    (h : address + node.length < Check.wordLimit) :
    node.resolve labels address = (do
      node.visit labels address
      pure (address + node.advance)) := by
  cases hk : node.kind.declines with
  | true =>
    simp only [resolve, visit, advance, hk, Kind.byte_of_declines hk, lift_ok, pure_bind]
    cases node.label <;> rfl
  | false =>
    simp only [resolve, visit, advance, hk]
    cases hb : node.kind.byte labels address with
    | error fault => rfl
    | ok own =>
      cases own with
      | none => exact absurd hb (Kind.byte_ne_none hk labels address)
      | some byte => simp [Check.add_eq_ok h]

/-! ## Sites -/

/-- the nodes with the addresses at which pass two visits them: those of pass one, from `place` on, less their drift -/
def sitesFrom (drift : Nat → Nat) : (place : Nat) → List (Nat × Node) → List (Nat × Node)
  | _, [] => []
  | place, (position, node) :: entries =>
    (place - drift position, node) :: sitesFrom drift (place + node.length) entries

theorem sitesFrom_append (drift : Nat → Nat) (place : Nat) (before after : List (Nat × Node)) :
    sitesFrom drift place (before ++ after) =
      sitesFrom drift place before ++ sitesFrom drift (place + lengthSum (before.map Prod.snd)) after := by
  induction before generalizing place with
  | nil => simp [sitesFrom]
  | cons entry before ih => simp [sitesFrom, ih, Nat.add_assoc]

theorem getElem?_sitesFrom (drift : Nat → Nat) (place : Nat) (entries : List (Nat × Node)) (k : Nat) :
    (sitesFrom drift place entries)[k]? = entries[k]?.map fun entry =>
      (place + lengthSum ((entries.take k).map Prod.snd) - drift entry.1, entry.2) := by
  induction entries generalizing place k with
  | nil => simp [sitesFrom]
  | cons entry entries ih =>
    cases k with
    | zero => simp [sitesFrom]
    | succ k => simp [sitesFrom, ih, Nat.add_assoc]

/-- every tree of the forest has the given drift, and what is below its node has the node's slack in addition -/
def Forest.DriftsBy (drift : Nat → Nat) : Forest → (lag : Nat) → Prop
  | .nil, _ => True
  | .cons id node children rest, lag =>
    drift id = lag ∧ children.DriftsBy drift (lag + node.slack) ∧ rest.DriftsBy drift lag

/-- **Pass two over a forest is one loop**; `place` is where pass one has the forest, `lag` is the forest's drift. -/
theorem Forest.resolve_eq (labels : Labels) {drift : Nat → Nat} {forest : Forest} {place lag : Nat}
    (hd : forest.DriftsBy drift lag) (hlag : lag ≤ place) (h : place + forest.span < Check.wordLimit) :
    forest.resolve labels (place - lag) = visitAll labels (sitesFrom drift place forest.preorder) := by
  induction forest generalizing place lag with
  | nil => rfl
  | cons id node children rest ihc ihr =>
    obtain ⟨rfl, hchildren, hrest⟩ := hd
    rw [span_cons] at h
    have hnode := node.advance_add_slack
    have hinside : place - drift id + node.advance = place + node.length - (drift id + node.slack) := by omega
    have hnext : place - drift id + (node.length + children.span) =
        place + node.length + children.span - drift id := by omega
    have hspan : lengthSum (children.preorder.map Prod.snd) = children.span := children.span_eq_lengthSum.symm
    rw [resolve, Node.resolve_eq_visit labels (by omega), Node.lengthWith_eq_ok (by omega), preorder_cons, sitesFrom,
      sitesFrom_append, visitAll, visitAll_append, hspan]
    simp only [bind_assoc, pure_bind, lift_ok, Check.add_eq_ok (show
      place - drift id + (node.length + children.span) < Check.wordLimit by omega)]
    rw [hinside, hnext, ihc hchildren (by omega) (by omega), ihr hrest (by omega) (by omega)]

/-- no node lags behind further than pass one has come -/
theorem Forest.drift_le {drift : Nat → Nat} {forest : Forest} {place lag : Nat} (hd : forest.DriftsBy drift lag)
    (hlag : lag ≤ place) {k : Nat} {entry : Nat × Node} (hk : forest.preorder[k]? = some entry) :
    drift entry.1 ≤ place + lengthSum ((forest.preorder.take k).map Prod.snd) := by
  induction forest generalizing place lag k with
  | nil => simp at hk
  | cons id node children rest ihc ihr =>
    obtain ⟨rfl, hchildren, hrest⟩ := hd
    have hnode := node.advance_add_slack
    rw [preorder_cons] at hk ⊢
    cases k with
    | zero =>
      cases hk
      exact Nat.le_trans hlag (Nat.le_add_right _ _)
    | succ k =>
      rw [List.getElem?_cons_succ, List.getElem?_append] at hk
      rw [List.take_succ_cons, List.take_append, List.map_cons, lengthSum_cons, List.map_append, lengthSum_append]
      dsimp only
      split at hk
      next hlt =>
        have hle : drift id + node.slack ≤ place + node.length := by omega
        have := ihc hchildren hle hk
        omega
      next hge =>
        have hall : children.preorder.take k = children.preorder := List.take_of_length_le (by omega)
        have hle : drift id ≤ place + node.length + lengthSum (children.preorder.map Prod.snd) := by omega
        have := ihr hrest hle hk
        rw [hall]
        omega

/-! ## How the loop ends -/

/-- the memory with the given bytes stored one after the other -/
def Memory.overwrite (bytes : Memory) (writes : List (Nat × UInt8)) : Memory :=
  writes.foldl (fun bytes write => bytes.insert write.1 write.2) bytes

/-- what was stored last at an address is there; where nothing was stored, what was there before -/
theorem Memory.getElem?_overwrite (bytes : Memory) (writes : List (Nat × UInt8)) (address : Nat) :
    (bytes.overwrite writes)[address]? = (writes.reverse.lookup address).or bytes[address]? := by
  induction writes using List.reverseRecOn with
  | nil => rfl
  | append_singleton writes write ih =>
    obtain ⟨place, byte⟩ := write
    have hlast : bytes.overwrite (writes ++ [(place, byte)]) = (bytes.overwrite writes).insert place byte := by
      simp [overwrite]
    have hreverse : (writes ++ [(place, byte)]).reverse = (place, byte) :: writes.reverse := by simp
    rw [hlast, Std.TreeMap.getElem?_insert, ih, hreverse, List.lookup_cons]
    by_cases h : place = address
    · simp [h]
    · have hcmp : ¬ compare place address = .eq := by simpa using h
      have hbeq : (address == place) = false := by simpa using fun heq : address = place => h heq.symm
      rw [if_neg hcmp, hbeq]

/-- the byte that a visit stores, with its address -/
def written? (labels : Labels) (site : Nat × Node) : Option (Nat × UInt8) :=
  match site.2.kind.byte labels site.1 with
  | .ok own => own.map fun byte => (site.1, byte)
  | .error _ => none

/-- what a visit reports: the name of a node that has no byte -/
def reported? (site : Nat × Node) : Option Event :=
  if site.2.kind.declines then site.2.label.map fun name => .reached name site.1 else none

/-- what is there after the given visits, in order -/
def Resolution.after (stored : Resolution) (labels : Labels) (sites : List (Nat × Node)) : Resolution where
  bytes := stored.bytes.overwrite (sites.filterMap (written? labels))
  trace := stored.trace ++ sites.filterMap reported?

/-- no visit has a fault: every node has a byte or declines -/
def Settled (labels : Labels) (sites : List (Nat × Node)) : Prop :=
  ∀ site ∈ sites, ∃ own, site.2.kind.byte labels site.1 = .ok own

theorem exists_eq_ok_iff {ε α : Type} {x : Except ε α} : (∃ a, x = .ok a) ↔ x.isOk = true := by
  cases x <;> simp [Except.isOk, Except.toBool]

instance (labels : Labels) (sites : List (Nat × Node)) : Decidable (Settled labels sites) :=
  decidable_of_iff (∀ site ∈ sites, (site.2.kind.byte labels site.1).isOk = true) (by
    simp only [Settled, exists_eq_ok_iff])

/-- how visits end, and what they leave -/
inductive Visited (labels : Labels) (stored : Resolution) :
    List (Nat × Node) → EStateM.Result Fault Resolution Unit → Prop where
  | complete {sites : List (Nat × Node)} (h : Settled labels sites) :
      Visited labels stored sites (.ok () (stored.after labels sites))
  /-- the fault is that of the first node that has one -/
  | stopped {before after : List (Nat × Node)} {address : Nat} {node : Node} {fault : Fault}
      (h : Settled labels before) (hfault : node.kind.byte labels address = .error fault) :
      Visited labels stored (before ++ (address, node) :: after) (.error fault (stored.after labels before))

theorem Visited.eq_of_settled {labels : Labels} {stored : Resolution} {sites : List (Nat × Node)}
    {result : EStateM.Result Fault Resolution Unit} (h : Visited labels stored sites result)
    (hs : Settled labels sites) : result = .ok () (stored.after labels sites) := by
  cases h with
  | complete _ => rfl
  | @stopped before after address node fault _ hfault =>
    obtain ⟨own, hown⟩ := hs (address, node) (by simp)
    rw [hfault] at hown
    cases hown

theorem Resolution.after_snoc (stored : Resolution) (labels : Labels) (past : List (Nat × Node)) (site : Nat × Node) :
    stored.after labels (past ++ [site]) = (stored.after labels past).after labels [site] := by
  simp [after, Memory.overwrite]

theorem Node.visit_eq_ok {labels : Labels} {node : Node} {address : Nat} {own : Option UInt8}
    (h : node.kind.byte labels address = .ok own) (stored : Resolution) :
    node.visit labels address stored = .ok () (stored.after labels [(address, node)]) := by
  cases hk : node.kind.declines with
  | true =>
    have hnone := Kind.byte_of_declines hk labels address
    simp only [visit, hnone, lift_ok, pure_bind]
    cases hl : node.label with
    | none => simp [Resolution.after, written?, reported?, hnone, hk, hl, Memory.overwrite, pure, EStateM.pure]
    | some name => simp [run_modify, Resolution.after, written?, reported?, hnone, hk, hl, Memory.overwrite]
  | false =>
    cases own with
    | none => exact absurd h (Kind.byte_ne_none hk labels address)
    | some byte => simp [run_modify, visit, h, Resolution.after, written?, reported?, hk, Memory.overwrite]

theorem Node.visit_eq_error {labels : Labels} {node : Node} {address : Nat} {fault : Fault}
    (h : node.kind.byte labels address = .error fault) (stored : Resolution) :
    node.visit labels address stored = .error fault stored := by
  simp only [visit, h, lift_error, throw_bind]
  rfl

/-- the loop goes on as the rules say; the induction is on the nodes still to come -/
theorem visited_visitAll {labels : Labels} (stored : Resolution) {past : List (Nat × Node)}
    (h : Settled labels past) (sites : List (Nat × Node)) :
    Visited labels stored (past ++ sites) (visitAll labels sites (stored.after labels past)) := by
  induction sites generalizing past with
  | nil =>
    rw [List.append_nil]
    exact .complete h
  | cons site sites ih =>
    obtain ⟨address, node⟩ := site
    rw [visitAll, run_bind]
    cases hb : node.kind.byte labels address with
    | error fault =>
      rw [Node.visit_eq_error hb]
      exact .stopped h hb
    | ok own =>
      have hpast : Settled labels (past ++ [(address, node)]) := by
        intro site hm
        rcases List.mem_append.1 hm with hm | hm
        · exact h site hm
        · cases List.mem_singleton.1 hm
          exact ⟨own, hb⟩
      have := ih hpast
      rw [Resolution.after_snoc, List.append_assoc] at this
      rw [Node.visit_eq_ok hb]
      exact this

/-! ## Trees -/

namespace Tree

/-- the lengths of all roots and labels above a position, up to and including `top` -/
def drift (tree : Tree) (top position : Nat) : Nat :=
  lengthSum ((tree.above top position).filter fun node => node.kind.declines)

/-- the address that pass one from `top` on gives to the `k`-th node of its walk -/
def laidAt (tree : Tree) (top : Fin tree.size) (start k : Nat) : Nat :=
  start + lengthSum (((tree.preorder top).take k).map Prod.snd)

/-- the nodes in walking order, each at the address of pass one less its drift -/
def sites (tree : Tree) (top : Fin tree.size) (start : Nat) : List (Nat × Node) :=
  (tree.preorder top).zipIdx.map fun ((position, node), k) =>
    (tree.laidAt top start k - tree.drift top position, node)

theorem drift_child {tree : Tree} (hl : tree.Linked) {top id child : Nat} {node : Node} (htop : top ≤ id)
    (hnode : tree.nodes[id]? = some node) (hc : child ∈ node.children) :
    tree.drift top child = tree.drift top id + node.slack := by
  rw [drift, above_child hl htop hnode hc, List.filter_cons, Node.slack]
  split
  · rw [lengthSum_cons, Nat.add_comm]
    rfl
  · rfl

theorem driftsBy_trees {tree : Tree} {drift : Nat → Nat} {lag : Nat} {ids : List Nat}
    (h : ∀ id ∈ ids, drift id = lag ∧
      ∀ hlt : id < tree.size, (tree.under ⟨id, hlt⟩).DriftsBy drift (lag + (tree.node ⟨id, hlt⟩).slack)) :
    (tree.trees ids).DriftsBy drift lag := by
  induction ids with
  | nil => trivial
  | cons id ids ih =>
    have hrest := ih fun other hm => h other (List.mem_cons_of_mem _ hm)
    obtain ⟨hid, hbelow⟩ := h id List.mem_cons_self
    rw [trees, List.foldr_cons]
    split
    next hlt => exact ⟨hid, hbelow hlt, hrest⟩
    next => exact hrest

/-- what is below a node lags behind by the node's drift and its slack -/
theorem driftsBy_under {tree : Tree} (hl : tree.Linked) {top : Nat} (id : Fin tree.size) (htop : top ≤ id.val) :
    (tree.under id).DriftsBy (tree.drift top) (tree.drift top id.val + (tree.node id).slack) := by
  rw [under_eq]
  apply driftsBy_trees
  intro child hm
  have hc : child ∈ (tree.node id).children := Array.mem_def.2 hm
  have hbounds := child_bounds (tree.getElem?_node id) hc
  have hdrift := drift_child hl htop (tree.getElem?_node id) hc
  refine ⟨hdrift, fun hlt => ?_⟩
  rw [← hdrift]
  exact driftsBy_under hl ⟨child, hlt⟩ (by simp only; omega)
  termination_by tree.size - id.val

@[simp] theorem drift_top (tree : Tree) (top : Nat) : tree.drift top top = 0 := by
  simp [drift]

/-- the tree as a forest of one tree -/
theorem driftsBy_cons {tree : Tree} (hl : tree.Linked) (top : Fin tree.size) :
    (Forest.cons top.val (tree.node top) (tree.under top) .nil).DriftsBy (tree.drift top.val) 0 := by
  refine ⟨tree.drift_top top.val, ?_, trivial⟩
  have := driftsBy_under hl top (Nat.le_refl _)
  rwa [drift_top] at this

theorem preorder_eq_cons (tree : Tree) (top : Fin tree.size) :
    tree.preorder top = (Forest.cons top.val (tree.node top) (tree.under top) .nil).preorder := by
  rw [Forest.preorder_cons, Forest.preorder_nil, List.append_nil]
  rfl

theorem drift_le {tree : Tree} (hl : tree.Linked) {top : Fin tree.size} (start : Nat) {k position : Nat} {node : Node}
    (hk : (tree.preorder top)[k]? = some (position, node)) :
    tree.drift top.val position ≤ tree.laidAt top start k := by
  rw [laidAt, preorder_eq_cons]
  rw [preorder_eq_cons] at hk
  exact Forest.drift_le (driftsBy_cons hl top) (Nat.zero_le start) hk

theorem getElem?_sites (tree : Tree) (top : Fin tree.size) (start k : Nat) :
    (tree.sites top start)[k]? = (tree.preorder top)[k]?.map fun entry =>
      (tree.laidAt top start k - tree.drift top.val entry.1, entry.2) := by
  rw [sites, List.getElem?_map, List.getElem?_zipIdx]
  cases (tree.preorder top)[k]? <;> simp

theorem sites_eq (tree : Tree) (top : Fin tree.size) (start : Nat) :
    tree.sites top start = sitesFrom (tree.drift top.val) start (tree.preorder top) := by
  apply List.ext_getElem?
  intro k
  rw [getElem?_sites, getElem?_sitesFrom]
  rfl

theorem resolve_eq_visitAll {tree : Tree} (hl : tree.Linked) (top : Fin tree.size) (labels : Labels) {start : Nat}
    (h : start + lengthSum ((tree.preorder top).map Prod.snd) < Check.wordLimit) :
    tree.resolve labels top start = visitAll labels (tree.sites top start) := by
  have hnodes : (tree.preorder top).map Prod.snd = tree.node top :: (tree.under top).nodes := rfl
  rw [hnodes, lengthSum_cons, ← Forest.span_eq_lengthSum] at h
  have hnode := (tree.node top).advance_add_slack
  have hinside : start + (tree.node top).advance = start + (tree.node top).length - (tree.node top).slack := by omega
  have hbelow := driftsBy_under hl top (Nat.le_refl _)
  rw [drift_top, Nat.zero_add] at hbelow
  rw [resolve, Node.resolve_eq_visit labels (by omega), sites_eq, preorder, sitesFrom, visitAll, drift_top,
    Nat.sub_zero]
  simp only [bind_assoc, pure_bind]
  rw [hinside, Forest.resolve_eq labels hbelow (by omega) (by omega)]

/-- a position lags behind just if a root or label with a length is above it -/
theorem drift_eq_zero {tree : Tree} (hl : tree.Linked) {top id : Nat} (hbelow : tree.Below top id)
    (h : ∀ position node, tree.Below top position → tree.nodes[position]? = some node →
      node.kind.declines = true → node.children ≠ #[] → node.length = 0) : tree.drift top id = 0 := by
  induction hbelow with
  | refl => exact tree.drift_top top
  | @child id child node hup hnode hc ih =>
    have hne : node.children ≠ #[] := by
      rintro heq
      simp [heq] at hc
    rw [drift_child hl hup.le hnode hc, ih, Nat.zero_add, Node.slack]
    split
    next hk => exact h id node hup hnode hk hne
    next => rfl

/-- the two passes agree on all nodes just if no root or label that has children has a length -/
theorem sites_laid_iff {tree : Tree} (hl : tree.Linked) (top : Fin tree.size) (start : Nat) :
    (∀ k position node, (tree.preorder top)[k]? = some (position, node) →
      (tree.sites top start)[k]? = some (tree.laidAt top start k, node)) ↔
    ∀ position node, (position, node) ∈ tree.preorder top → node.kind.declines = true → node.children ≠ #[] →
      node.length = 0 := by
  constructor
  · intro h position node hm hk hne
    obtain ⟨child, hc⟩ := Array.exists_mem_of_ne_empty _ hne
    obtain ⟨hbelow, hnode⟩ := mem_preorder_iff.1 hm
    have hlt := (child_bounds hnode hc).2
    obtain ⟨k, hk'⟩ := List.getElem?_of_mem (mem_preorder_child hm ⟨child, hlt⟩ hc)
    have hsite := h k child _ hk'
    have hle : tree.drift top.val child ≤ tree.laidAt top start k := drift_le hl start hk'
    rw [getElem?_sites, hk', Option.map_some, Option.some.injEq, Prod.mk.injEq] at hsite
    have hsame : tree.laidAt top start k - tree.drift top.val child = tree.laidAt top start k := hsite.1
    have hzero : tree.drift top.val child = 0 := by omega
    rw [drift_child hl hbelow.le hnode hc, Node.slack, if_pos hk] at hzero
    omega
  · intro h k position node hk
    have hbelow := mem_preorder_iff.1 (List.mem_of_getElem? hk)
    have hzero := drift_eq_zero hl hbelow.1 fun position node hb hn => h position node (mem_preorder_iff.2 ⟨hb, hn⟩)
    rw [getElem?_sites, hk, Option.map_some, hzero, Nat.sub_zero]

/-- **Pass two visits the nodes in walking order, each at the address of pass one less its drift**, in every tree that
pushes can make, from every node and with any labels, bytes and start, as long as all lengths fit 32 bits. It stops at
the first node that has a fault, and stores the bytes of the nodes before it over what was there. The two passes agree
just if no root or label that has children has a length. -/
theorem resolve_visits (tree : Tree) (hg : tree.Grown) (top : Fin tree.size) (labels : Labels) (stored : Resolution)
    (start : Nat) (h : start + lengthSum ((tree.preorder top).map Prod.snd) < 0x100000000) :
    Visited labels stored (tree.sites top start) (tree.resolve labels top start stored) ∧
    (∀ k position node, (tree.preorder top)[k]? = some (position, node) →
      tree.drift top.val position ≤ tree.laidAt top start k) ∧
    (∀ past address, (stored.after labels past).bytes[address]? =
      ((past.filterMap (written? labels)).reverse.lookup address).or stored.bytes[address]?) ∧
    ((∀ k position node, (tree.preorder top)[k]? = some (position, node) →
      (tree.sites top start)[k]? = some (tree.laidAt top start k, node)) ↔
    ∀ position node, (position, node) ∈ tree.preorder top → node.kind.declines = true → node.children ≠ #[] →
      node.length = 0) := by
  have hl := hg.linked
  refine ⟨?_, ?_, fun past address => stored.bytes.getElem?_overwrite _ address, sites_laid_iff hl top start⟩
  · rw [resolve_eq_visitAll hl top labels h]
    have hnone : Settled labels [] := by simp [Settled]
    have := visited_visitAll stored hnone (tree.sites top start)
    simpa [Resolution.after, Memory.overwrite] using this
  · intro k position node hk
    exact drift_le hl start hk

/-- a label of two bytes with a byte below it, and a byte behind both -/
def sunken : Tree :=
  ((new.push new.root (some "low") 2 .label).push ⟨1, by simp⟩ none 1 (.data 7)).push ⟨0, by simp⟩ none 1 (.data 9)

/-- pass one has the byte below the label at 18, pass two stores it at 16; the byte behind is at 19 for both -/
theorem resolve_visits_sunken :
    sunken.Grown ∧ 16 + lengthSum ((sunken.preorder sunken.root).map Prod.snd) < 0x100000000 ∧
    sunken.laidAt sunken.root 16 2 = 18 ∧ (sunken.sites sunken.root 16).map Prod.fst = [16, 16, 16, 19] ∧
    ∃ stored, sunken.resolve .empty sunken.root 16 ⟨∅, []⟩ = .ok () stored ∧
      stored.bytes[16]? = some 7 ∧ stored.bytes[18]? = none ∧ stored.bytes[19]? = some 9 := by
  have hg : sunken.Grown := ((Grown.new.push _ _ _ _).push _ _ _ _).push _ _ _ _
  have h : 16 + lengthSum ((sunken.preorder sunken.root).map Prod.snd) < 0x100000000 := by decide +kernel
  have hsites : (sunken.sites sunken.root 16).filterMap (written? .empty) = [(16, 7), (19, 9)] := by decide +kernel
  have hsettled : Settled .empty (sunken.sites sunken.root 16) := by decide +kernel
  obtain ⟨hvisited, _, hget, _⟩ := resolve_visits sunken hg sunken.root .empty ⟨∅, []⟩ 16 h
  refine ⟨hg, h, by decide +kernel, by decide +kernel, _, hvisited.eq_of_settled hsettled, ?_, ?_, ?_⟩
  all_goals
    rw [hget, hsites]
    rfl

end Tree

end Asm6502
