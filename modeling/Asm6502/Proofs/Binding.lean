/-
Pass one of a program that was built item by item.

Without overflow, the walk over the tree is one scan over the items (`layout_forestFrom`): a label is bound at the
current address, every item moves the address on by its size. The scan binds all labels if their names are distinct
(`layout_ofItems`), and otherwise stops at the first label whose name was bound before (`layout_ofItems_duplicate`);
one of the two is always the case (`nodup_or_repeated`).
-/
import Asm6502.Proofs.Arena

namespace Asm6502

/-! ## One scan -/

/-- binds the item's name, if it has one -/
def Item.bind (item : Item) (address : Nat) : EStateM Fault Bindings Unit :=
  match item.name? with
  | some name => bindLabel name address
  | none => pure ()

/-- binds the names of all items, the first item being at `address` -/
def bindItems : List Item → (address : Nat) → EStateM Fault Bindings Unit
  | [], _ => pure ()
  | item :: items, address => do
    item.bind address
    bindItems items (address + item.size)

theorem bindItems_append (before after : List Item) (address : Nat) :
    bindItems (before ++ after) address = (do
      bindItems before address
      bindItems after (address + totalSize before)) := by
  induction before generalizing address with
  | nil => simp [bindItems]
  | cons item before ih => simp [bindItems, ih, Nat.add_assoc]

theorem Node.layout_unnamed {node : Node} {address : Nat} (hl : node.label = none)
    (h : address + node.length < Check.wordLimit) :
    node.layout address = pure (address + node.length) := by
  simp [layout, hl, Check.add_eq_ok h]

theorem layout_leavesFrom (parent position : Nat) (parts : List Kind) (address : Nat)
    (h : address + parts.length < Check.wordLimit) : (leavesFrom parent position parts).layout address = pure () := by
  induction parts generalizing position address with
  | nil => rfl
  | cons part parts ih =>
    rw [List.length_cons] at h
    have hnext : address + 1 < Check.wordLimit := by omega
    have hnode : (partNode parent part).layout address = pure (address + 1) := Node.layout_unnamed rfl hnext
    rw [leavesFrom, Forest.layout, hnode, lengthWith_partNode]
    simp only [pure_bind, Forest.layout, lift_ok, Check.add_eq_ok hnext]
    exact ih (position + 1) (address + 1) (by omega)

theorem Item.layout_node (item : Item) (position address : Nat)
    (h : address + item.ownLength < Check.wordLimit) :
    (item.node position).layout address = (do
      item.bind address
      pure (address + item.ownLength)) := by
  simp only [Node.layout, Item.bind, Item.node, Check.add_eq_ok h, lift_ok]
  cases item.name? <;> rfl

/-- **Pass one is one scan.** -/
theorem layout_forestFrom (position : Nat) (items : List Item) (address : Nat)
    (h : address + totalSize items < Check.wordLimit) :
    (forestFrom position items).layout address = bindItems items address := by
  induction items generalizing position address with
  | nil => rfl
  | cons item items ih =>
    rw [totalSize_cons] at h
    have hsize := item.size_eq
    have hparts : address + item.ownLength + item.parts.length < Check.wordLimit := by omega
    have hnext : address + item.size < Check.wordLimit := by omega
    rw [forestFrom, Forest.layout, item.layout_node position address (by omega), item.lengthWith_node (by omega),
      bindItems]
    simp only [bind_assoc, pure_bind, lift_ok, layout_leavesFrom _ _ _ _ hparts, Check.add_eq_ok hnext]
    rw [ih _ _ (by omega)]

/-! ## Where the scan ends -/

namespace Labels

theorem contains_eq_false {labels : Labels} {name : String} (h : name ∉ labels.entries.map Prod.fst) :
    labels.contains name = false := by
  rw [contains, get?, lookup_eq_none h]
  rfl

theorem contains_eq_true {labels : Labels} {name : String} (h : name ∈ labels.entries.map Prod.fst) :
    labels.contains name = true := by
  rw [contains, get?, Option.isSome_iff_ne_none, ne_eq, List.lookup_eq_none_iff]
  obtain ⟨entry, he, rfl⟩ := List.mem_map.1 h
  intro hall
  simpa using hall entry he

end Labels

/-- the findings with more labels, each reported when it was bound -/
def Bindings.extend (found : Bindings) (entries : List (String × Nat)) : Bindings :=
  ⟨⟨found.labels.entries ++ entries⟩, found.trace ++ entries.map fun entry => .bound entry.1 entry.2⟩

theorem Bindings.extend_extend (found : Bindings) (entries more : List (String × Nat)) :
    (found.extend entries).extend more = found.extend (entries ++ more) := by
  simp [extend]

theorem bindLabel_eq (name : String) (address : Nat) (found : Bindings) :
    bindLabel name address found =
      if found.labels.contains name then .error (.duplicateLabel name) found
      else .ok () ⟨found.labels.insert name address, found.trace ++ [.bound name address]⟩ := by
  have hget : (get : EStateM Fault Bindings Bindings) found = .ok found found := rfl
  rw [bindLabel, run_bind, hget]
  cases hc : found.labels.contains name <;> simp only [hc] <;> rfl

theorem bindLabel_new {name : String} {found : Bindings} (address : Nat)
    (h : name ∉ found.labels.entries.map Prod.fst) :
    bindLabel name address found = .ok () (found.extend [(name, address)]) := by
  have hc := Labels.contains_eq_false h
  rw [bindLabel_eq, hc, Labels.insert, hc]
  rfl

theorem bindLabel_known {name : String} {found : Bindings} (address : Nat)
    (h : name ∈ found.labels.entries.map Prod.fst) :
    bindLabel name address found = .error (.duplicateLabel name) found := by
  rw [bindLabel_eq, Labels.contains_eq_true h]
  rfl

/-- distinct names, none of them bound before: all labels are bound -/
theorem bindItems_distinct (items : List Item) (address : Nat) (found : Bindings)
    (h : (found.labels.entries.map Prod.fst ++ labelNames items).Nodup) :
    bindItems items address found = .ok () (found.extend (labelsFrom address items)) := by
  induction items generalizing address found with
  | nil => simp [bindItems, labelsFrom, Bindings.extend, pure, EStateM.pure]
  | cons item items ih =>
    rw [bindItems, run_bind, labelsFrom]
    cases item with
    | label name =>
      have hnew : name ∉ found.labels.entries.map Prod.fst := by
        intro hm
        exact (List.nodup_append.1 h).2.2 name hm name (by simp) rfl
      have hrest : ((found.extend [(name, address)]).labels.entries.map Prod.fst ++ labelNames items).Nodup := by
        simpa [Bindings.extend] using h
      have hbind : (Item.label name).bind address found = .ok () (found.extend [(name, address)]) :=
        bindLabel_new address hnew
      rw [hbind]
      simp only [ih _ _ hrest, Bindings.extend_extend]
      rfl
    | data value => exact ih _ found h
    | instruction mnemonic opcode form => exact ih _ found h

/-- a name bound before stops the scan, and the labels before it stay bound -/
theorem bindItems_duplicate (before after : List Item) (name : String) (address : Nat) (found : Bindings)
    (h : (found.labels.entries.map Prod.fst ++ labelNames before).Nodup)
    (hm : name ∈ found.labels.entries.map Prod.fst ++ labelNames before) :
    bindItems (before ++ .label name :: after) address found =
      .error (.duplicateLabel name) (found.extend (labelsFrom address before)) := by
  have hknown : name ∈ (found.extend (labelsFrom address before)).labels.entries.map Prod.fst := by
    rw [Bindings.extend, List.map_append, map_fst_labelsFrom]
    exact hm
  have hbind : (Item.label name).bind (address + totalSize before) (found.extend (labelsFrom address before)) =
      .error (.duplicateLabel name) (found.extend (labelsFrom address before)) :=
    bindLabel_known _ hknown
  rw [bindItems_append, run_bind, bindItems_distinct before address found h]
  simp only [bindItems, run_bind, hbind]

/-- of the keys along a list, either all are distinct, or there is a first one that came before -/
theorem nodup_filterMap_or_repeated {α β : Type} (key? : α → Option β) (list : List α) :
    (list.filterMap key?).Nodup ∨
      ∃ before element key after, list = before ++ element :: after ∧ key? element = some key ∧
        (before.filterMap key?).Nodup ∧ key ∈ before.filterMap key? := by
  induction list using List.reverseRecOn with
  | nil => exact Or.inl List.nodup_nil
  | append_singleton list last ih =>
    rcases ih with h | ⟨before, element, key, after, rfl, hk, hd, hm⟩
    · cases hk : key? last with
      | none => exact Or.inl (by simpa [hk] using h)
      | some key =>
        by_cases hm : key ∈ list.filterMap key?
        · exact Or.inr ⟨list, last, key, [], rfl, hk, h, hm⟩
        · left
          rw [List.filterMap_append, List.filterMap_cons_some hk, List.filterMap_nil]
          exact List.nodup_append.2 ⟨h, by simp, fun a ha b hb hab => hm (by simp_all)⟩
    · exact Or.inr ⟨before, element, key, after ++ [last], by simp, hk, hd, hm⟩

/-- either all names are distinct, or there is a first label whose name was bound before -/
theorem nodup_or_repeated (items : List Item) :
    (labelNames items).Nodup ∨
      ∃ before name after, items = before ++ .label name :: after ∧
        (labelNames before).Nodup ∧ name ∈ labelNames before := by
  rcases nodup_filterMap_or_repeated Item.name? items with h | ⟨before, item, name, after, hi, hk, hd, hm⟩
  · exact Or.inl h
  · cases item with
    | label other =>
      cases hk
      exact Or.inr ⟨before, name, after, hi, hd, hm⟩
    | data value => cases hk
    | instruction mnemonic opcode form => cases hk

/-! ## Pass one of a program -/

section Program

variable {items : List Item} {origin : Nat}

theorem layout_root_ofItems (h : origin + totalSize items < Check.wordLimit) :
    (Program.ofItems items).tree.layout (Program.ofItems items).tree.root origin = bindItems items origin := by
  have hroot : (Program.rootNode items).layout origin = pure origin := by
    exact Node.layout_unnamed rfl (show origin + 0 < _ by omega)
  rw [Tree.layout, node_root_ofItems, under_ofItems, hroot, pure_bind, layout_forestFrom 1 items origin h]

theorem layout_ofItems (h : origin + totalSize items < Check.wordLimit) (hd : (labelNames items).Nodup)
    (trace : List Event) :
    (Program.ofItems items).layout origin trace =
      .ok ⟨labelsFrom origin items⟩ (trace ++ (labelsFrom origin items).map fun entry => .bound entry.1 entry.2) := by
  rw [Program.layout, layout_root_ofItems h, bindItems_distinct items origin _ (by simpa [Labels.empty] using hd)]
  rfl

theorem layout_ofItems_duplicate {before after : List Item} {name : String}
    (h : origin + totalSize (before ++ .label name :: after) < Check.wordLimit)
    (hd : (labelNames before).Nodup) (hm : name ∈ labelNames before) (trace : List Event) :
    (Program.ofItems (before ++ .label name :: after)).layout origin trace =
      .error (.duplicateLabel name)
        (trace ++ (labelsFrom origin before).map fun entry => .bound entry.1 entry.2) := by
  rw [Program.layout, layout_root_ofItems h,
    bindItems_duplicate before after name origin _ (by simpa [Labels.empty] using hd)
      (by simpa [Labels.empty] using hm)]
  rfl

end Program

end Asm6502
