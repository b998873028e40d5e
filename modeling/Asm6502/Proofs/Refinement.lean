/-
Compilation refines the flat assembler.

A program that was built by any steps is its list of items in the order of the steps (`Console.itemsOf`). The flat
assembler knows nothing but that list: it walks it with an address, gives every label the address at which it stands,
and puts the encoding of every item behind the one before.

- `IsFlat`: an assembly is the one that the flat assembler makes of a list of items.
- `compile_isFlat`: every successful compilation of a built program gives such an assembly, and the program's length is
  the sum of the sizes of its items.
-/
import Asm6502.Proofs.Building
import Asm6502.Proofs.Compilation

namespace Asm6502

/-- the assembly is the one that the flat assembler makes of the items -/
structure IsFlat (items : List Item) (cartridge : Cartridge) (assembly : Assembly) : Prop where
  /-- the cartridge ends where the address space ends -/
  origin_eq : assembly.origin = 0x10000 - cartridge.capacity ∧ cartridge.capacity ≤ 0x10000
  /-- the labels are those of the scan, in the order of the items -/
  labels_eq : assembly.labels.entries = labelsFrom assembly.origin items
  /-- a label stands behind all items before it -/
  label_at : ∀ before name after, items = before ++ .label name :: after →
    assembly.labels.get? name = some (assembly.origin + totalSize before)
  /-- no gap, and nothing outside -/
  mem_bytes : ∀ address, address ∈ assembly.bytes ↔
    assembly.origin ≤ address ∧ address < assembly.origin + totalSize items
  /-- the bytes are the encodings one after the other -/
  bytes_eq : ∃ code, encodeFrom assembly.labels assembly.origin items = .ok code ∧
    code.length = totalSize items ∧ ∀ k, assembly.bytes[assembly.origin + k]? = code[k]?
  /-- an item is encoded at the address of its own first byte -/
  item_at : ∀ before item after, items = before ++ item :: after →
    ∃ own, item.encode assembly.labels (assembly.origin + totalSize before) = .ok own ∧ own.length = item.size ∧
      ∀ k < item.size, assembly.bytes[assembly.origin + totalSize before + k]? = own[k]?

theorem mem_store_encodeFrom {labels : Labels} {items : List Item} {origin : Nat} {code : List UInt8}
    (hc : encodeFrom labels origin items = .ok code) (address : Nat) :
    address ∈ Memory.store ∅ origin code ↔ origin ≤ address ∧ address < origin + totalSize items := by
  rw [Memory.mem_store, encodeFrom_length hc]
  simp

/-- the bytes of one item among the others -/
theorem getElem?_store_item {labels : Labels} {before after : List Item} {item : Item} {origin : Nat}
    {code : List UInt8} (hc : encodeFrom labels origin (before ++ item :: after) = .ok code) :
    ∃ own, item.encode labels (origin + totalSize before) = .ok own ∧ own.length = item.size ∧
      ∀ k < item.size, (Memory.store ∅ origin code)[origin + totalSize before + k]? = own[k]? := by
  obtain ⟨first, second, hfirst, hsecond, rfl⟩ := encodeFrom_append_eq_ok_iff.1 hc
  obtain ⟨own, rest, hown, _, rfl⟩ := encodeFrom_cons_eq_ok_iff.1 hsecond
  have hlen := Item.encode_length hown
  refine ⟨own, hown, hlen, ?_⟩
  intro k hk
  have hskip : first.length = totalSize before := encodeFrom_length hfirst
  rw [Nat.add_assoc, Memory.getElem?_store_empty, List.getElem?_append_right (by omega), hskip,
    Nat.add_sub_cancel_left, List.getElem?_append_left (by omega)]

theorem isFlat_of_compile {items : List Item} {cartridge : Cartridge} {trace after : List Event} {assembly : Assembly}
    (h : (Program.ofItems items).compile cartridge trace = .ok assembly after) : IsFlat items cartridge assembly := by
  obtain ⟨code, ho, _, hd, hlabels, hcode, hbytes, _⟩ := compile_inv h
  obtain ⟨⟨_, hcap⟩, _, _, horigin⟩ := Cartridge.origin_eq_ok_iff.1 ho
  refine ⟨⟨horigin, hcap⟩, by rw [hlabels], ?_, ?_, ?_, ?_⟩
  · rintro before name rest rfl
    rw [hlabels]
    exact get?_labelsFrom hd
  · intro address
    rw [hbytes]
    exact mem_store_encodeFrom hcode address
  · refine ⟨code, hcode, encodeFrom_length hcode, ?_⟩
    intro k
    rw [hbytes]
    exact Memory.getElem?_store_empty _ _ _
  · rintro before item rest rfl
    rw [hbytes]
    exact getElem?_store_item hcode

namespace Console

/-- **Compilation refines the flat assembler**, for every program that steps can build and every cartridge. -/
theorem compile_isFlat (steps : List Step) (cartridge : Cartridge) (trace after : List Event) (assembly : Assembly)
    (h : (build steps).compile cartridge trace = .ok assembly after) :
    (build steps).length = .ok (totalSize (itemsOf steps)) ∧ IsFlat (itemsOf steps) cartridge assembly := by
  rw [build_eq] at h ⊢
  obtain ⟨_, ho, hfits, _⟩ := compile_inv h
  exact ⟨length_of_fits ho hfits, isFlat_of_compile h⟩

/-- a branch ahead, a table, a failing call and a jump back -/
def loop : List Step :=
  [.call (.label "top"), .call (Call.bne (.label "end")), .call (.data "table" [7, 9]),
    .call (.emit "LDA" .relative none), .call (.label "end"), .call (Call.jmpAbsolute (.label "top"))]

theorem compile_isFlat_loop :
    ∃ assembly after, (build loop).compile ⟨16, 16⟩ [] = .ok assembly after ∧
      IsFlat [.label "top", .instruction "BNE" 0xD0 (.relative (.label "end")), .label "table", .data 7, .data 9,
        .label "end", .instruction "JMP" 0x4C (.absolute .none (.label "top"))] ⟨16, 16⟩ assembly := by
  have ho : Cartridge.origin ⟨16, 16⟩ = .ok 0xFFF0 := rfl
  have hd : (labelNames (itemsOf loop)).Nodup := by decide
  have hc : encodeFrom ⟨labelsFrom 0xFFF0 (itemsOf loop)⟩ 0xFFF0 (itemsOf loop) =
      .ok [0xD0, 2, 7, 9, 0x4C, 0xF0, 0xFF] := rfl
  obtain ⟨image, listing, _, h⟩ := compile_ofItems ho rfl hd hc []
  rw [← build_eq] at h
  exact ⟨_, _, h, (compile_isFlat _ _ _ _ _ h).2⟩

end Console

end Asm6502
