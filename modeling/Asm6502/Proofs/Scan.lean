/-
Pass one over any tree is one scan.

The walk of pass one goes down into every tree with an address of its own, and gets past a tree by adding up the whole
tree once more. Nothing here is about programs: the tree may have any shape, any lengths and any names, the pass may
start at any node and address, and labels may be bound already.

- `scan`: one loop over a list of nodes with a running address. It stops at a name that is bound already and at a sum
  that does not fit 32 bits.
- `Forest.layout_eq`: the walk over a forest is the scan over its nodes in walking order. Where a tree was scanned to
  its end, the address behind it fits 32 bits, and so do the sums by which the walk finds that address again.
- `Ending`: how a scan ends, said without the loop. Each rule also says that no earlier node stops it.
- `layout_eq_scan`: both together, for every tree, node, label map and address, and once more for the recursion over the
  bare array of nodes.
-/
import Mathlib.Algebra.GroupWithZero.Nat
import Mathlib.Data.List.Basic
import Asm6502.Proofs.Binding
import Asm6502.Proofs.Descent

namespace Asm6502

/-! ## The scan -/

def Labels.names (labels : Labels) : List String :=
  labels.entries.map Prod.fst

/-- one loop over the nodes with the address of the next one: the labels that it leaves, and how it ends -/
def scan : List Node → (address : Nat) → Labels → Labels × Except Fault Nat
  | [], address, labels => (labels, .ok address)
  | node :: nodes, address, labels =>
    match node.label.filter (· ∈ labels.names) with
    | some name => (labels, .error (.duplicateLabel name))
    | none =>
      let bound : Labels := ⟨labels.entries ++ node.label.toList.map fun name => (name, address)⟩
      if address + node.length < 0x100000000 then scan nodes (address + node.length) bound
      else (bound, .error .sumOverflow)

def lengthSum (nodes : List Node) : Nat :=
  (nodes.map Node.length).sum

@[simp] theorem lengthSum_nil : lengthSum [] = 0 := rfl

@[simp] theorem lengthSum_cons (node : Node) (nodes : List Node) :
    lengthSum (node :: nodes) = node.length + lengthSum nodes := rfl

@[simp] theorem lengthSum_append (before after : List Node) :
    lengthSum (before ++ after) = lengthSum before + lengthSum after := by
  simp [lengthSum]

theorem scan_append (before after : List Node) (address : Nat) (labels : Labels) :
    scan (before ++ after) address labels =
      match scan before address labels with
      | (bound, .ok next) => scan after next bound
      | (bound, .error fault) => (bound, .error fault) := by
  induction before generalizing address labels with
  | nil => rfl
  | cons node before ih =>
    rw [List.cons_append, scan, scan]
    cases node.label.filter (· ∈ labels.names) with
    | some name => rfl
    | none =>
      dsimp only
      split
      · exact ih _ _
      · rfl

theorem scan_ok {nodes : List Node} {address next : Nat} {labels bound : Labels}
    (h : scan nodes address labels = (bound, .ok next)) :
    next = address + lengthSum nodes ∧ (nodes = [] ∨ next < Check.wordLimit) := by
  induction nodes generalizing address labels with
  | nil =>
    cases h
    exact ⟨rfl, .inl rfl⟩
  | cons node nodes ih =>
    rw [scan] at h
    cases hf : node.label.filter (· ∈ labels.names) with
    | some name =>
      rw [hf] at h
      cases h
    | none =>
      rw [hf] at h
      dsimp only at h
      split at h
      next hlt =>
        obtain ⟨rfl, hrest⟩ := ih h
        rw [lengthSum_cons]
        refine ⟨by omega, .inr ?_⟩
        rcases hrest with rfl | hrest
        · exact hlt
        · exact hrest
      next => cases h

/-! ## The walk is the scan -/

/-- the nodes in walking order, without their positions -/
def Forest.nodes (forest : Forest) : List Node :=
  forest.preorder.map Prod.snd

@[simp] theorem Forest.nodes_nil : Forest.nil.nodes = [] := rfl

@[simp] theorem Forest.nodes_cons (id : Nat) (node : Node) (children rest : Forest) :
    (cons id node children rest).nodes = node :: (children.nodes ++ rest.nodes) := by
  simp [nodes]

theorem Forest.span_eq_lengthSum (forest : Forest) : forest.span = lengthSum forest.nodes := by
  induction forest with
  | nil => rfl
  | cons id node children rest ihc ihr =>
    rw [span_cons, nodes_cons, lengthSum_cons, lengthSum_append, ihc, ihr, Nat.add_assoc]

/-- what pass one gives if it ends as a scan does, with the given reports -/
def scanResult {α : Type} (reports : List Event) : Labels × Except Fault α → EStateM.Result Fault Bindings α
  | (bound, .ok result) => .ok result ⟨bound, reports⟩
  | (bound, .error fault) => .error fault ⟨bound, reports⟩

/-- the labels and the end of a scan, without the address at which it ends -/
def scanned (nodes : List Node) (address : Nat) (labels : Labels) : Labels × Except Fault Unit :=
  ((scan nodes address labels).1, (scan nodes address labels).2.map fun _ => ())

theorem Node.layout_eq (node : Node) (address : Nat) (labels : Labels) (trace : List Event) :
    ∃ reports, node.layout address ⟨labels, trace⟩ = scanResult reports (scan [node] address labels) := by
  have hadd : Check.add address node.length =
      if address + node.length < 0x100000000 then .ok (address + node.length) else .error .sumOverflow := rfl
  cases hl : node.label with
  | none =>
    refine ⟨trace, ?_⟩
    simp only [layout, scan, hl, hadd, Option.filter_none, Option.toList_none, List.map_nil, List.append_nil]
    split <;> rfl
  | some name =>
    by_cases hm : name ∈ labels.names
    · have hbind : bindLabel name address ⟨labels, trace⟩ = .error (.duplicateLabel name) ⟨labels, trace⟩ :=
        bindLabel_known address hm
      refine ⟨trace, ?_⟩
      simp only [layout, scan, hl, run_bind, hbind, Option.filter_some, hm, decide_true, if_true]
      rfl
    · have hbind : bindLabel name address ⟨labels, trace⟩ =
          .ok () ⟨⟨labels.entries ++ [(name, address)]⟩, trace ++ [.bound name address]⟩ := bindLabel_new address hm
      refine ⟨trace ++ [.bound name address], ?_⟩
      simp only [layout, scan, hl, run_bind, hbind, hadd, Option.filter_some, hm, decide_false, Bool.false_eq_true,
        if_false, Option.toList_some, List.map_cons, List.map_nil]
      split <;> rfl

/-- **The walk over a forest is the scan over its nodes.** -/
theorem Forest.layout_eq (forest : Forest) (address : Nat) (labels : Labels) (trace : List Event) :
    ∃ reports, forest.layout address ⟨labels, trace⟩ = scanResult reports (scanned forest.nodes address labels) := by
  induction forest generalizing address labels trace with
  | nil => exact ⟨trace, rfl⟩
  | cons id node children rest ihc ihr =>
    have hsplit : (cons id node children rest).nodes = [node] ++ (children.nodes ++ rest.nodes) := by simp
    obtain ⟨reports, hnode⟩ := node.layout_eq address labels trace
    rw [layout, run_bind, hnode, scanned, hsplit, scan_append]
    rcases hown : scan [node] address labels with ⟨bound, fault | inside⟩
    · exact ⟨reports, rfl⟩
    · simp only [scanResult]
      obtain ⟨reports, hchildren⟩ := ihc inside bound reports
      rw [run_bind, hchildren, scanned, scan_append]
      rcases hbelow : scan children.nodes inside bound with ⟨below, fault | next⟩
      · exact ⟨reports, rfl⟩
      · simp only [scanResult, Except.map]
        obtain ⟨hinside, hfirst⟩ := scan_ok hown
        obtain ⟨hnext, hlast⟩ := scan_ok hbelow
        have hlt : next < Check.wordLimit := by
          rcases hlast with hnil | hlt
          · rw [hnil] at hnext
            simp_all
          · exact hlt
        have hwhole : address + (node.length + children.span) = next := by
          rw [hnext, hinside, children.span_eq_lengthSum]
          simp [Nat.add_assoc]
        rw [Node.lengthWith_eq_ok (by omega), lift_ok, pure_bind, Check.add_eq_ok (by omega), lift_ok, pure_bind,
          hwhole]
        exact ihr next below reports

/-! ## How a scan ends -/

/-- the named nodes with their addresses: `start` and the lengths of all nodes before -/
def boundBy (start : Nat) (nodes : List Node) : List (String × Nat) :=
  nodes.zipIdx.filterMap fun (node, k) => node.label.map fun name => (name, start + lengthSum (nodes.take k))

theorem boundBy_snoc (start : Nat) (nodes : List Node) (node : Node) :
    boundBy start (nodes ++ [node]) =
      boundBy start nodes ++ node.label.toList.map fun name => (name, start + lengthSum nodes) := by
  have hsame : nodes.zipIdx.filterMap (fun (other, k) =>
        other.label.map fun name => (name, start + lengthSum ((nodes ++ [node]).take k))) = boundBy start nodes := by
    apply List.filterMap_congr
    rintro ⟨other, k⟩ hm
    have hk : k ≤ nodes.length := by
      have := List.snd_lt_of_mem_zipIdx hm
      omega
    simp only [List.take_append_of_le_length hk]
  rw [boundBy, List.zipIdx_append, List.filterMap_append, hsame]
  cases hl : node.label <;> simp [hl]

/-- the labels with those of the scanned nodes behind them -/
def Labels.after (labels : Labels) (start : Nat) (nodes : List Node) : Labels :=
  ⟨labels.entries ++ boundBy start nodes⟩

/-- the node's name, if it has one, is not bound -/
def Node.Fresh (node : Node) (labels : Labels) : Prop :=
  ∀ name, node.label = some name → name ∉ labels.names

/-- nothing stops a scan of these nodes: every name is new at its node, and every sum fits 32 bits -/
inductive Clear (labels : Labels) (start : Nat) : List Node → Prop where
  | nil : Clear labels start []
  | snoc {nodes : List Node} {node : Node} (h : Clear labels start nodes)
      (hname : node.Fresh (labels.after start nodes)) (hsum : start + lengthSum (nodes ++ [node]) < 0x100000000) :
      Clear labels start (nodes ++ [node])

/-- how a scan that begins at `start` with the given labels ends, and the labels that it leaves -/
inductive Ending (labels : Labels) (start : Nat) : List Node → Labels × Except Fault Unit → Prop where
  | complete {nodes : List Node} (h : Clear labels start nodes) :
      Ending labels start nodes (labels.after start nodes, .ok ())
  /-- the name was bound at the beginning, or by a node before -/
  | duplicate {before after : List Node} {node : Node} {name : String} (h : Clear labels start before)
      (hlabel : node.label = some name) (hbound : name ∈ (labels.after start before).names) :
      Ending labels start (before ++ node :: after) (labels.after start before, .error (.duplicateLabel name))
  /-- the node is bound, and then its own length is too much -/
  | overflow {before after : List Node} {node : Node} (h : Clear labels start before)
      (hname : node.Fresh (labels.after start before)) (hsum : 0x100000000 ≤ start + lengthSum (before ++ [node])) :
      Ending labels start (before ++ node :: after) (labels.after start (before ++ [node]), .error .sumOverflow)

theorem filter_eq_none_iff {node : Node} {labels : Labels} :
    node.label.filter (· ∈ labels.names) = none ↔ node.Fresh labels := by
  rw [Node.Fresh]
  cases node.label <;> simp

/-- a scan that got past some nodes goes on as the rules say; the induction is on the nodes still to come -/
theorem ending_scanned {labels : Labels} {start : Nat} {past : List Node} (h : Clear labels start past)
    (nodes : List Node) :
    Ending labels start (past ++ nodes) (scanned nodes (start + lengthSum past) (labels.after start past)) := by
  induction nodes generalizing past with
  | nil =>
    rw [List.append_nil]
    exact .complete h
  | cons node nodes ih =>
    rw [scanned, scan]
    cases hf : node.label.filter (· ∈ (labels.after start past).names) with
    | some name =>
      obtain ⟨hlabel, hbound⟩ := Option.filter_eq_some_iff.1 hf
      exact .duplicate h hlabel (by simpa using hbound)
    | none =>
      have hname := filter_eq_none_iff.1 hf
      have hafter : Labels.mk ((labels.after start past).entries ++
          node.label.toList.map fun name => (name, start + lengthSum past)) = labels.after start (past ++ [node]) := by
        rw [Labels.after, Labels.after, boundBy_snoc, List.append_assoc]
      have haddress : start + lengthSum past + node.length = start + lengthSum (past ++ [node]) := by
        simp [Nat.add_assoc]
      dsimp only
      rw [hafter, haddress]
      split
      next hlt =>
        have := ih (.snoc h hname hlt)
        rwa [List.append_assoc] at this
      next hge => exact .overflow h hname (Nat.not_lt.1 hge)

namespace Tree

/-- the node itself is scanned first, and then the forest below it -/
theorem layout_eq (tree : Tree) (id : Fin tree.size) (labels : Labels) (start : Nat) (trace : List Event) :
    ∃ reports, tree.layout id start ⟨labels, trace⟩ =
      scanResult reports (scanned ((tree.preorder id).map Prod.snd) start labels) := by
  have hnodes : (tree.preorder id).map Prod.snd = [tree.node id] ++ (tree.under id).nodes := rfl
  obtain ⟨reports, hnode⟩ := (tree.node id).layout_eq start labels trace
  rw [layout, run_bind, hnode, scanned, hnodes, scan_append]
  rcases scan [tree.node id] start labels with ⟨bound, fault | inside⟩
  · exact ⟨reports, rfl⟩
  · exact (tree.under id).layout_eq inside bound reports

/-- **Pass one is one scan over the nodes in walking order**, for every tree, every node of it, all labels bound before
and every address, whether it succeeds or fails. The labels bound before stay as they are, in front; each later one has
the address `start` plus the lengths of all nodes before it. The walk and the pass that call themselves for the children
in the bare array, as deep as the array has positions, are this walk and this pass. -/
theorem layout_eq_scan (tree : Tree) (id : Fin tree.size) (labels : Labels) (start : Nat) (trace : List Event) :
    let nodes := (tree.preorder id).map Prod.snd
    ∃ reports, tree.layout id start ⟨labels, trace⟩ = scanResult reports (scanned nodes start labels) ∧
      Ending labels start nodes (scanned nodes start labels) ∧
      ∀ noWalk noLength noPass depth, tree.size - id.val ≤ depth →
        (Body.preorder.run tree.nodes noWalk depth id.val).map Prod.snd = nodes ∧
        (Body.layout (Body.lengthIn tree.nodes noLength)).run tree.nodes noPass depth id.val start ⟨labels, trace⟩ =
          scanResult reports (scanned nodes start labels) := by
  intro nodes
  obtain ⟨reports, hlayout⟩ := tree.layout_eq id labels start trace
  have hending : Ending labels start nodes (scanned nodes start labels) := by
    have := ending_scanned (@Clear.nil labels start) nodes
    simpa [Labels.after, boundBy] using this
  refine ⟨reports, hlayout, hending, fun noWalk noLength noPass depth hdepth => ⟨?_, ?_⟩⟩
  · rw [(tree.ends id).preorder noWalk depth hdepth]
  · rw [(tree.ends id).layout noLength noPass depth hdepth]
    exact hlayout

/-- a node two levels below another one, and a node behind both that was pushed before it -/
def terraced : Tree :=
  (((new.push new.root (some "outer") 2 .label).push ⟨0, by simp⟩ (some "last") 1 (.data 1)).push
    ⟨1, by simp⟩ none 3 (.data 2)).push ⟨3, by simp⟩ (some "inner") 1 (.data 3)

/-- the pass over this array succeeds, stops at a name that was bound before, and stops at a sum of more than 32 bits -/
theorem layout_eq_scan_terraced :
    terraced.size - terraced.root.val ≤ 5 ∧
    ∀ noLength noPass,
      let pass start labels :=
        (Body.layout (Body.lengthIn terraced.nodes noLength)).run terraced.nodes noPass 5 0 start ⟨labels, []⟩
      (∃ reports, pass 16 ⟨[]⟩ = .ok () ⟨⟨[("outer", 16), ("inner", 21), ("last", 22)]⟩, reports⟩) ∧
      (∃ reports, pass 16 ⟨[("inner", 7)]⟩ =
        .error (.duplicateLabel "inner") ⟨⟨[("inner", 7), ("outer", 16)]⟩, reports⟩) ∧
      ∃ reports, pass 0xFFFFFFFD ⟨[]⟩ = .error .sumOverflow ⟨⟨[("outer", 0xFFFFFFFD)]⟩, reports⟩ := by
  have hdepth : terraced.size - terraced.root.val ≤ 5 := by decide +kernel
  have hpass : ∀ noLength noPass start labels, ∃ reports,
      (Body.layout (Body.lengthIn terraced.nodes noLength)).run terraced.nodes noPass 5 0 start ⟨labels, []⟩ =
        scanResult reports (scanned ((terraced.preorder terraced.root).map Prod.snd) start labels) := by
    intro noLength noPass start labels
    obtain ⟨reports, _, _, hrun⟩ := layout_eq_scan terraced terraced.root labels start []
    exact ⟨reports, (hrun [] noLength noPass 5 hdepth).2⟩
  have hcomplete : scanned ((terraced.preorder terraced.root).map Prod.snd) 16 ⟨[]⟩ =
      (⟨[("outer", 16), ("inner", 21), ("last", 22)]⟩, .ok ()) := by decide +kernel
  have hduplicate : scanned ((terraced.preorder terraced.root).map Prod.snd) 16 ⟨[("inner", 7)]⟩ =
      (⟨[("inner", 7), ("outer", 16)]⟩, .error (.duplicateLabel "inner")) := by decide +kernel
  have hoverflow : scanned ((terraced.preorder terraced.root).map Prod.snd) 0xFFFFFFFD ⟨[]⟩ =
      (⟨[("outer", 0xFFFFFFFD)]⟩, .error .sumOverflow) := by decide +kernel
  refine ⟨hdepth, fun noLength noPass => ⟨?_, ?_, ?_⟩⟩
  · simpa only [hcomplete, scanResult] using hpass noLength noPass 16 ⟨[]⟩
  · simpa only [hduplicate, scanResult] using hpass noLength noPass 16 ⟨[("inner", 7)]⟩
  · simpa only [hoverflow, scanResult] using hpass noLength noPass 0xFFFFFFFD ⟨[]⟩

end Tree

end Asm6502
