/-
The listing tells the truth about the image.

The listing is written by a third walk over the tree, from addresses that the walk counts for itself, bytes that it
looks up by address, and operands that stand in other nodes than the bytes made of them. Here it is compared with what
a reader can check: the items in order, the image, and the label map.

- `Entry`: what stands in a listing, a label's block or the line of an item with bytes, and how it is laid out in lines.
- `Item.entry`: the entry that an item at a given offset must have. Its bytes are cut out of the image, and the distance
  of a branch is computed from the target.
- `Truthful`: a listing is made of just these entries, and what the entries say holds.
- `render_forestFrom`: the walk writes one block for each item and nothing for operand bytes.
- `CodeAt`: an item's bytes as they were encoded, as they are stored by address, and in the image are the same.
- `Item.block_eq`: the block that the walk writes is then the one that the item must have.
- `read_entriesFrom`: the hexadecimal columns read as the code of all items.
- `truthful_listing`: every successful compilation of a built program has a truthful listing.
-/
import Mathlib.Data.List.Sort
import Asm6502.Proofs.Columns
import Asm6502.Proofs.Disassembly
import Asm6502.Proofs.Refinement
import Asm6502.Proofs.Representation

namespace Asm6502

/-! ## Entries -/

inductive Entry where
  | label (address : Nat) (name : String)
  | line (row : Row)
  deriving DecidableEq, Repr

namespace Entry

/-- what an entry repeats from the program: a name, or the text of an item -/
def quoted : Entry → String
  | .label _ name => name
  | .line row => row.text

/-- the lines of an entry: a label stands between two blank lines -/
def lines : Entry → List String
  | .label address name => ["", placeText address ++ name ++ ":", ""]
  | .line row => [row.line]

def block (entry : Entry) : String :=
  String.join (entry.lines.map (· ++ "\n"))

/-- the bytes that a reader finds in the hexadecimal column -/
def read : Entry → Option (List UInt8)
  | .label _ _ => some []
  | .line row => readBytes (row.line.toList.drop row.start)

end Entry

/-- the bytes of the image from `offset` on -/
def Assembly.slice (assembly : Assembly) (offset count : Nat) : List UInt8 :=
  (assembly.image.extract offset (offset + count)).toList

/-- an instruction as it is written, with its operand -/
def Form.text (mnemonic : String) (form : Form) : String :=
  mnemonic ++ form.mode.suffix ++
    match form.operand with
    | some operand => " " ++ operand.text
    | none => ""

/-- the distance of a branch at `address` from the end of its two bytes to its target -/
def Form.distance (labels : Labels) (address : Nat) : Form → Option Int
  | .relative operand => (operand.value labels).toOption.map (· - (address + 2))
  | _ => none

/-- the entry of an item that stands at `offset` in the image -/
def Item.entry (assembly : Assembly) (offset : Nat) : Item → Entry
  | .label name => .label (assembly.origin + offset) name
  | .data value => .line ⟨assembly.origin + offset, ".byte " ++ toString value.toNat, assembly.slice offset 1, none⟩
  | .instruction mnemonic _ form =>
    .line ⟨assembly.origin + offset, form.text mnemonic, assembly.slice offset form.size,
      form.distance assembly.labels (assembly.origin + offset)⟩

/-- the entries of all items in order, the first item being at `offset` -/
def entriesFrom (assembly : Assembly) : (offset : Nat) → List Item → List Entry
  | _, [] => []
  | offset, item :: items => item.entry assembly offset :: entriesFrom assembly (offset + item.size) items

/-- the listing is made of the items' entries, and what the entries say holds of image and labels -/
structure Truthful (items : List Item) (assembly : Assembly) : Prop where
  /-- one block for each item, in the order of the items -/
  listing_eq : assembly.listing = String.join ((entriesFrom assembly 0 items).map Entry.block)
  /-- a label is listed at the address to which its name is bound -/
  label_at : ∀ before name after, items = before ++ .label name :: after →
    assembly.labels.get? name = some (assembly.origin + totalSize before)
  /-- a data line has the data byte -/
  data_at : ∀ before value after, items = before ++ .data value :: after →
    assembly.slice (totalSize before) 1 = [value]
  /-- an instruction line has the opcode, and behind it the value of the operand that stands in the line -/
  instruction_at : ∀ before mnemonic opcode form after, items = before ++ .instruction mnemonic opcode form :: after →
    ∃ bytes, assembly.slice (totalSize before) form.size = opcode :: bytes ∧ bytes.length + 1 = form.size ∧
      ∀ operand, form.operand = some operand → ∃ value, operand.value assembly.labels = .ok value ∧
        form.mode.operandValue (assembly.origin + totalSize before) bytes = some value
  /-- a branch line has the distance that leads from behind the branch to its target -/
  branch_at : ∀ before mnemonic opcode operand after,
    items = before ++ .instruction mnemonic opcode (.relative operand) :: after →
    ∃ target distance, operand.value assembly.labels = .ok target ∧
      (Form.relative operand).distance assembly.labels (assembly.origin + totalSize before) = some distance ∧
      ((assembly.origin + totalSize before : Nat) : Int) + 2 + distance = target
  /-- the decimal column never pushes the hexadecimal one aside -/
  decimals_le : ∀ row, .line row ∈ entriesFrom assembly 0 items →
    row.decimals.length ≤ 14 ∧ row.line.toList.drop row.start = row.hexadecimals.toList
  /-- the hexadecimal columns, read line by line, are the image as far as the program goes -/
  read_eq : totalSize items ≤ assembly.image.size ∧
    ∃ columns, (entriesFrom assembly 0 items).mapM Entry.read = some columns ∧
      columns.flatten = assembly.image.toList.take (totalSize items)
  /-- a line is broken only by a line break in a name or a mnemonic -/
  oneLine : ∀ entry ∈ entriesFrom assembly 0 items, OneLine entry.quoted → ∀ line ∈ entry.lines, OneLine line

/-! ## The walk -/

/-- what the walk writes about an item at `address` -/
def Item.block (bytes : Memory) (address : Nat) : Item → String
  | .label name => Listing.labelBlock address name
  | .data value => Listing.dataLine address value
  | .instruction mnemonic _ form =>
    Listing.instructionLine address mnemonic form.mode form.operand (bytes.range address (address + form.size))

def blocksFrom (bytes : Memory) : (address : Nat) → List Item → List String
  | _, [] => []
  | address, item :: items => item.block bytes address :: blocksFrom bytes (address + item.size) items

section Walk

variable {bytes : Memory} {address : Nat} {out : String}

/-- an operand byte has no line of its own -/
theorem Node.listing_operandByte {node : Node} (h : node.kind.isOperandByte = true) (children : Forest) :
    node.listing bytes children address = .ok "" := by
  rw [listing]
  cases hk : node.kind with
  | label => rw [hk] at h; cases h
  | instruction mnemonic mode opcode operand => rw [hk] at h; cases h
  | data value => rw [hk] at h; cases h
  | _ => rfl

theorem render_leavesFrom {parent position : Nat} {parts : List Kind} (hp : ∀ part ∈ parts, part.isOperandByte = true)
    (h : address + parts.length < Check.wordLimit) :
    (leavesFrom parent position parts).render bytes address out = .ok out := by
  induction parts generalizing position address with
  | nil => rfl
  | cons part parts ih =>
    rw [List.length_cons] at h
    have hsilent : (partNode parent part).listing bytes .nil address = .ok "" :=
      Node.listing_operandByte (hp part List.mem_cons_self) .nil
    have hone : (partNode parent part).length = 1 := rfl
    rw [leavesFrom, Forest.render, hsilent, ok_bind, hone, Check.add_eq_ok (by omega), ok_bind, Forest.render, ok_bind,
      lengthWith_partNode, ok_bind, Check.add_eq_ok (by omega), ok_bind, String.append_empty]
    exact ih (fun other ho => hp other (List.mem_cons_of_mem _ ho)) (by omega)

theorem Item.listing_node (item : Item) (position : Nat) (h : address + item.size < Check.wordLimit) :
    (item.node position).listing bytes (leavesFrom position (position + 1) item.parts) address =
      .ok (item.block bytes address) := by
  cases item with
  | label name => rfl
  | data value => rfl
  | instruction mnemonic opcode form =>
    have hlength : ((Item.instruction mnemonic opcode form).node position).lengthWith
        (leavesFrom position (position + 1) (Item.instruction mnemonic opcode form).parts) = .ok form.size :=
      Item.lengthWith_node _ (by omega)
    have hstop : Check.add address form.size = .ok (address + form.size) := Check.add_eq_ok h
    have hkind : ((Item.instruction mnemonic opcode form).node position).kind =
        .instruction mnemonic form.mode opcode form.operand := rfl
    rw [Node.listing, hkind]
    simp only [hlength, hstop, ok_bind]
    rfl

/-- **The walk writes one block for each item.** -/
theorem render_forestFrom {position : Nat} {items : List Item} (h : address + totalSize items < Check.wordLimit) :
    (forestFrom position items).render bytes address out =
      .ok (out ++ String.join (blocksFrom bytes address items)) := by
  induction items generalizing position address out with
  | nil => simp [forestFrom, Forest.render, blocksFrom]
  | cons item items ih =>
    rw [totalSize_cons] at h
    have hsize := item.size_eq
    have hown : address + (item.node position).length < Check.wordLimit := by
      show address + item.ownLength < _
      omega
    have hparts : ∀ part ∈ item.parts, part.isOperandByte = true := fun part hp => (Item.isOperandByte_of_mem hp).1
    have hinside : address + (item.node position).length + item.parts.length < Check.wordLimit := by
      show address + item.ownLength + _ < _
      omega
    rw [forestFrom, Forest.render, item.listing_node position (by omega), ok_bind, Check.add_eq_ok hown, ok_bind,
      render_leavesFrom hparts hinside, ok_bind, item.lengthWith_node (by omega), ok_bind,
      Check.add_eq_ok (by omega), ok_bind, ih (by omega), blocksFrom, String.join_cons, String.append_assoc]

end Walk

/-! ## Bytes looked up by address -/

namespace Memory

/-- pairs in the order of their addresses are determined by which pairs they are -/
theorem eq_of_ascending {pairs others : List (Nat × UInt8)} (hp : pairs.Pairwise fun a b => a.1 < b.1)
    (ho : others.Pairwise fun a b => a.1 < b.1) (h : ∀ pair, pair ∈ pairs ↔ pair ∈ others) : pairs = others := by
  have : Std.Irrefl fun a b : Nat × UInt8 => a.1 < b.1 := ⟨fun a => Nat.lt_irrefl a.1⟩
  have : Std.Antisymm fun a b : Nat × UInt8 => a.1 < b.1 := ⟨fun a b hab hba => absurd hba (Nat.lt_asymm hab)⟩
  exact hp.eq_of_mem_iff ho h

section Slices

variable {bytes : Memory} {first last : Nat}

theorem mem_slice_iff {place : Nat} {byte : UInt8} :
    (place, byte) ∈ bytes[first...last].toList ↔ bytes[place]? = some byte ∧ first ≤ place ∧ place < last := by
  rw [Std.TreeMap.toList_rco compare, List.mem_filter, Std.TreeMap.mem_toList_iff_getElem?_eq_some, decide_eq_true_iff,
    Nat.isGE_compare, Ordering.isLT_iff_eq_lt, Nat.compare_eq_lt]

theorem ascending_slice : bytes[first...last].toList.Pairwise fun a b => a.1 < b.1 := by
  rw [Std.TreeMap.toList_rco compare]
  apply List.Pairwise.filter
  exact Std.TreeMap.ordered_keys_toList.imp fun hlt => Nat.compare_eq_lt.1 hlt

end Slices

theorem ascending_zipIdx (code : List UInt8) (address : Nat) :
    ((code.zipIdx address).map Prod.swap).Pairwise fun a b => a.1 < b.1 := by
  have hindex : ((code.zipIdx address).map Prod.snd).Pairwise (· < ·) := by
    rw [List.zipIdx_map_snd]
    exact List.pairwise_lt_range'
  rw [List.pairwise_map]
  exact List.pairwise_map.1 hindex

/-- a range without a gap reads as the bytes stored in it -/
theorem range_eq {bytes : Memory} {address : Nat} {code : List UInt8}
    (h : ∀ k < code.length, bytes[address + k]? = code[k]?) : bytes.range address (address + code.length) = code := by
  have hstored : bytes[address...(address + code.length)].toList = (code.zipIdx address).map Prod.swap := by
    refine eq_of_ascending ascending_slice (ascending_zipIdx code address) ?_
    rintro ⟨place, byte⟩
    rw [mem_slice_iff, ← Prod.swap_prod_mk, List.mem_map_of_injective Prod.swap_injective,
      List.mk_mem_zipIdx_iff_le_and_getElem?_sub]
    constructor
    · rintro ⟨hbyte, hlow, hhigh⟩
      have hat := h (place - address) (by omega)
      rw [Nat.add_sub_cancel' hlow, hbyte] at hat
      exact ⟨hlow, hat.symm⟩
    · rintro ⟨hlow, hbyte⟩
      obtain ⟨hk, _⟩ := List.getElem?_eq_some_iff.1 hbyte
      have hat := h (place - address) hk
      rw [Nat.add_sub_cancel' hlow, hbyte] at hat
      exact ⟨hat, hlow, by omega⟩
  rw [range, hstored, List.map_map]
  exact List.zipIdx_map_fst _ _

end Memory

/-- the same bytes three times: encoded for an item at `offset`, stored from its address on, and in the image -/
structure CodeAt (assembly : Assembly) (offset : Nat) (item : Item) (own : List UInt8) : Prop where
  encode_eq : item.encode assembly.labels (assembly.origin + offset) = .ok own
  range_eq : assembly.bytes.range (assembly.origin + offset) (assembly.origin + offset + item.size) = own
  slice_eq : assembly.slice offset item.size = own

/-- all items have their code where the listing looks for it, the first item being at `offset` -/
def Coded (assembly : Assembly) (offset : Nat) (items : List Item) : Prop :=
  ∀ before item after, items = before ++ item :: after → ∃ own, CodeAt assembly (offset + totalSize before) item own

theorem Coded.of_cons {assembly : Assembly} {offset : Nat} {item : Item} {items : List Item}
    (h : Coded assembly offset (item :: items)) :
    (∃ own, CodeAt assembly offset item own) ∧ Coded assembly (offset + item.size) items := by
  refine ⟨h [] item items rfl, ?_⟩
  rintro before other after rfl
  rw [Nat.add_assoc]
  exact h (item :: before) other after rfl

theorem Assembly.slice_eq {assembly : Assembly} {length : Nat} {first own rest : List UInt8}
    (h : assembly.image.toList.take length = first ++ (own ++ rest)) :
    assembly.slice first.length own.length = own := by
  have himage : assembly.image.toList = first ++ (own ++ (rest ++ assembly.image.toList.drop length)) := by
    calc assembly.image.toList
        = assembly.image.toList.take length ++ assembly.image.toList.drop length := (List.take_append_drop _ _).symm
      _ = first ++ (own ++ (rest ++ assembly.image.toList.drop length)) := by rw [h]; simp only [List.append_assoc]
  rw [slice, Array.toList_extract, himage, List.extract_eq_take_drop, Nat.add_sub_cancel_left, List.drop_left,
    List.take_left]

/-! ## Entries of encoded items -/

section Encoded

variable {labels : Labels} {address : Nat} {opcode : UInt8} {code : List UInt8}

/-- the bytes behind an opcode hold the value of the instruction's operand -/
theorem Form.encode_operand {form : Form} (h : form.encode labels address opcode = .ok code) :
    ∃ bytes, code = opcode :: bytes ∧ bytes.length + 1 = form.size ∧
      ∀ operand, form.operand = some operand → ∃ value, operand.value labels = .ok value ∧
        form.mode.operandValue address bytes = some value := by
  obtain ⟨bytes, rfl, hlength, hreading⟩ := Form.encode_reading h ""
  refine ⟨bytes, rfl, by rw [Form.size_eq_operandBytes, hlength, Nat.add_comm], ?_⟩
  intro operand ho
  simp only [Form.emission, Emission.reading, ho] at hreading
  obtain ⟨value, hvalue, hreading⟩ := bind_eq_ok_iff.1 hreading
  exact ⟨value, hvalue, (congrArg Reading.value (Except.ok.inj hreading)).symm⟩

/-- the offset byte of a branch leads from behind the branch to its target -/
theorem Form.encode_relative {operand : Operand} (h : (Form.relative operand).encode labels address opcode = .ok code) :
    ∃ offset, code = [opcode, offset] ∧ operand.value labels = .ok (address + 2 + signedOffset offset) ∧
      (Form.relative operand).distance labels address = some (signedOffset offset) := by
  obtain ⟨bytes, rfl, hlength, hvalue⟩ := Form.encode_operand h
  obtain ⟨offset, rfl⟩ := List.length_eq_one_iff.1 (Nat.succ.inj hlength)
  obtain ⟨value, hvalue, hread⟩ := hvalue operand rfl
  cases hread
  have hdistance : (address + 2 + signedOffset offset) - (address + 2) = signedOffset offset := by omega
  refine ⟨offset, rfl, hvalue, ?_⟩
  rw [distance, hvalue]
  exact congrArg some hdistance

/-- the walk makes a note of the offset byte, which is the distance to the target -/
theorem Form.offsetNote_eq {form : Form} (h : form.encode labels address opcode = .ok code) (text : String) :
    Listing.offsetNote form.mode code = (Row.mk address text code (form.distance labels address)).note := by
  cases form with
  | relative operand =>
    obtain ⟨offset, rfl, _, hdistance⟩ := Form.encode_relative h
    rw [hdistance]
    rfl
  | _ => rfl

end Encoded

section Entries

variable {assembly : Assembly} {offset : Nat} {item : Item} {own : List UInt8}

theorem Entry.block_line (row : Row) : (Entry.line row).block = row.line ++ "\n" := by
  simp [block, lines]

/-- **The block that the walk writes** is the one that the item must have. -/
theorem Item.block_eq (h : CodeAt assembly offset item own) :
    item.block assembly.bytes (assembly.origin + offset) = (item.entry assembly offset).block := by
  cases item with
  | label name => simp [block, entry, Listing.labelBlock, address_eq, Entry.block, Entry.lines, String.append_assoc]
  | data value =>
    cases h.encode_eq
    have hslice : assembly.slice offset 1 = [value] := h.slice_eq
    rw [block, Listing.dataLine, entry, Entry.block_line, hslice, ← Row.line_eq, Row.left, Row.decimals, Row.note,
      String.append_empty, address_eq]
    rfl
  | instruction mnemonic opcode form =>
    have hrange : assembly.bytes.range (assembly.origin + offset) (assembly.origin + offset + form.size) = own :=
      h.range_eq
    have hslice : assembly.slice offset form.size = own := h.slice_eq
    have hnote := Form.offsetNote_eq h.encode_eq (form.text mnemonic)
    rw [block, hrange, entry, Entry.block_line, hslice, ← Row.line_eq, Row.decimals, ← hnote, Row.left, Form.text,
      ← address_eq]
    simp only [Listing.instructionLine, String.append_assoc]
    rfl

theorem blocksFrom_eq {items : List Item} (h : Coded assembly offset items) :
    blocksFrom assembly.bytes (assembly.origin + offset) items =
      (entriesFrom assembly offset items).map Entry.block := by
  induction items generalizing offset with
  | nil => rfl
  | cons item items ih =>
    obtain ⟨⟨own, hown⟩, hrest⟩ := h.of_cons
    rw [blocksFrom, entriesFrom, List.map_cons, Item.block_eq hown, Nat.add_assoc, ih hrest]

/-! ## Columns of encoded items -/

theorem Form.size_le (form : Form) : form.size ≤ 3 := by
  cases form <;> simp [size]

/-- the numbers of an item stay below fifteen characters -/
theorem Item.length_decimals_le (h : CodeAt assembly offset item own) {row : Row}
    (hrow : item.entry assembly offset = .line row) : row.decimals.length ≤ 14 := by
  cases item with
  | label name => cases hrow
  | data value =>
    cases h.encode_eq
    have hslice : assembly.slice offset 1 = [value] := h.slice_eq
    rw [entry, hslice] at hrow
    cases hrow
    exact Row.length_decimals_le (List.cons_ne_nil _ _) (fun _ => by simp) (fun n hn => by cases hn)
  | instruction mnemonic opcode form =>
    have hslice : assembly.slice offset form.size = own := h.slice_eq
    have hencode : form.encode assembly.labels (assembly.origin + offset) opcode = .ok own := h.encode_eq
    obtain ⟨bytes, rfl, _⟩ := Form.encode_operand hencode
    rw [entry, hslice] at hrow
    cases hrow
    refine Row.length_decimals_le (List.cons_ne_nil _ _) ?_ ?_
    · intro _
      exact (Form.encode_length hencode).trans_le form.size_le
    · intro n hn
      cases form with
      | relative operand =>
        obtain ⟨byte, hcode, _, hdistance⟩ := Form.encode_relative hencode
        cases hdistance.symm.trans hn
        exact ⟨(congrArg List.length hcode).le, signedOffset_bounds byte⟩
      | _ => cases hn

/-- an item is listed as a label without bytes, or on a line with its bytes -/
theorem Item.entry_cases (h : CodeAt assembly offset item own) :
    (∃ name, item = .label name ∧ own = []) ∨ ∃ row, item.entry assembly offset = .line row ∧ row.bytes = own := by
  cases item with
  | label name =>
    cases h.encode_eq
    exact .inl ⟨name, rfl, rfl⟩
  | data value => exact .inr ⟨_, rfl, h.slice_eq⟩
  | instruction mnemonic opcode form => exact .inr ⟨_, rfl, h.slice_eq⟩

/-- the hexadecimal column of an item reads as the item's bytes -/
theorem Item.read_entry (h : CodeAt assembly offset item own) : (item.entry assembly offset).read = some own := by
  rcases Item.entry_cases h with ⟨name, rfl, rfl⟩ | ⟨row, hrow, rfl⟩
  · rfl
  · rw [hrow, Entry.read, Row.drop_start (Nat.le_succ_of_le (Item.length_decimals_le h hrow)),
      Row.readBytes_hexadecimals]

/-- **The hexadecimal columns read as the code**, line by line. -/
theorem read_entriesFrom {items : List Item} {code : List UInt8} (h : Coded assembly offset items)
    (hc : encodeFrom assembly.labels (assembly.origin + offset) items = .ok code) :
    ∃ columns, (entriesFrom assembly offset items).mapM Entry.read = some columns ∧ columns.flatten = code := by
  induction items generalizing offset code with
  | nil =>
    cases hc
    exact ⟨[], rfl, rfl⟩
  | cons item items ih =>
    obtain ⟨⟨own, hown⟩, hcoded⟩ := h.of_cons
    obtain ⟨first, rest, hfirst, hrest, rfl⟩ := encodeFrom_cons_eq_ok_iff.1 hc
    cases hfirst.symm.trans hown.encode_eq
    rw [Nat.add_assoc] at hrest
    obtain ⟨columns, hread, rfl⟩ := ih hcoded hrest
    refine ⟨own :: columns, ?_, rfl⟩
    rw [entriesFrom, List.mapM_cons, Item.read_entry hown, hread]
    rfl

end Entries

theorem mem_entriesFrom {assembly : Assembly} {offset : Nat} {items : List Item} {entry : Entry}
    (h : entry ∈ entriesFrom assembly offset items) :
    ∃ before item after, items = before ++ item :: after ∧ item.entry assembly (offset + totalSize before) = entry := by
  induction items generalizing offset with
  | nil => cases h
  | cons item items ih =>
    rcases List.mem_cons.1 h with rfl | h
    · exact ⟨[], item, items, rfl, rfl⟩
    · obtain ⟨before, other, after, rfl, hentry⟩ := ih h
      refine ⟨item :: before, other, after, rfl, ?_⟩
      rw [totalSize_cons, ← Nat.add_assoc]
      exact hentry

theorem Entry.oneLine_lines {entry : Entry} (h : OneLine entry.quoted) : ∀ line ∈ entry.lines, OneLine line := by
  have hblank : OneLine "" := by simp [OneLine]
  cases entry with
  | label address name =>
    have hname : OneLine (placeText address ++ name ++ ":") := by
      rw [oneLine_append, oneLine_append]
      exact ⟨⟨oneLine_placeText address, h⟩, by simp [OneLine]⟩
    simp [lines, hblank, hname]
  | line row => simp [lines, Row.oneLine_line h]

/-! ## Compiled programs -/

section Compiled

variable {items : List Item} {cartridge : Cartridge} {trace after : List Event} {assembly : Assembly}

theorem render_eq_join {origin : Nat} (bytes : Memory) (h : origin + totalSize items < Check.wordLimit) :
    (Program.ofItems items).render bytes origin = .ok (String.join (blocksFrom bytes origin items)) := by
  have hnext : Check.add origin (Program.rootNode items).length = .ok origin :=
    Check.add_eq_ok (show origin + 0 < _ by omega)
  have hroot : (Program.rootNode items).listing bytes (forestFrom 1 items) origin = .ok "" := rfl
  rw [Program.render, Tree.render]
  simp only [node_root_ofItems, under_ofItems, hroot, hnext, ok_bind]
  rw [render_forestFrom h, String.append_empty, String.empty_append]

theorem render_of_compile (h : (Program.ofItems items).compile cartridge trace = .ok assembly after) :
    (Program.ofItems items).render assembly.bytes assembly.origin = .ok assembly.listing := by
  obtain ⟨origin, ho, hf⟩ := compile_checks h
  rw [compile_stages ho (length_of_fits ho hf) hf] at h
  split at h
  · cases h
  · split at h
    · cases h
    · split at h
      case h_3 hrender => cases h; exact hrender
      all_goals cases h

/-- the image of a compiled program begins with the code of its items -/
theorem image_of_compile (h : (Program.ofItems items).compile cartridge trace = .ok assembly after) :
    ∃ code, encodeFrom assembly.labels assembly.origin items = .ok code ∧
      totalSize items ≤ assembly.image.size ∧ assembly.image.toList.take (totalSize items) = code := by
  obtain ⟨code, ho, hf, _, _, hcode, hbytes, hpack⟩ := compile_inv h
  rw [hbytes] at hpack
  exact ⟨code, hcode, take_image ho hf hcode hpack⟩

/-- the code of compiled items is where the listing looks for it -/
theorem coded_of_compile (h : (Program.ofItems items).compile cartridge trace = .ok assembly after) :
    Coded assembly 0 items := by
  intro before item rest hi
  rw [Nat.zero_add]
  obtain ⟨own, hown, hlength, hstored⟩ := (isFlat_of_compile h).item_at before item rest hi
  refine ⟨own, hown, ?_, ?_⟩
  · rw [← hlength] at hstored ⊢
    exact Memory.range_eq hstored
  · obtain ⟨code, hcode, _, htake⟩ := image_of_compile h
    rw [hi] at hcode
    obtain ⟨first, second, hfirst, hsecond, rfl⟩ := encodeFrom_append_eq_ok_iff.1 hcode
    obtain ⟨other, last, hother, _, rfl⟩ := encodeFrom_cons_eq_ok_iff.1 hsecond
    cases hown.symm.trans hother
    have hslice := Assembly.slice_eq htake
    rwa [encodeFrom_length hfirst, hlength] at hslice

theorem listing_of_compile (h : (Program.ofItems items).compile cartridge trace = .ok assembly after) :
    assembly.listing = String.join ((entriesFrom assembly 0 items).map Entry.block) := by
  obtain ⟨_, ho, hf, _⟩ := compile_inv h
  have hrender := render_of_compile h
  rw [render_eq_join assembly.bytes (fits_wordLimit ho hf)] at hrender
  rw [← Except.ok.inj hrender]
  exact congrArg String.join (blocksFrom_eq (coded_of_compile h))

theorem read_of_compile (h : (Program.ofItems items).compile cartridge trace = .ok assembly after) :
    totalSize items ≤ assembly.image.size ∧
      ∃ columns, (entriesFrom assembly 0 items).mapM Entry.read = some columns ∧
        columns.flatten = assembly.image.toList.take (totalSize items) := by
  obtain ⟨code, hcode, hsize, rfl⟩ := image_of_compile h
  exact ⟨hsize, read_entriesFrom (coded_of_compile h) hcode⟩

theorem truthful_of_compile (h : (Program.ofItems items).compile cartridge trace = .ok assembly after) :
    Truthful items assembly := by
  have hcode : ∀ before item rest, items = before ++ item :: rest →
      ∃ own, CodeAt assembly (totalSize before) item own := by
    intro before item rest hi
    have := coded_of_compile h before item rest hi
    rwa [Nat.zero_add] at this
  refine ⟨listing_of_compile h, (isFlat_of_compile h).label_at, ?_, ?_, ?_, ?_, read_of_compile h, ?_⟩
  · intro before value rest hi
    obtain ⟨own, hown⟩ := hcode _ _ _ hi
    cases hown.encode_eq
    exact hown.slice_eq
  · intro before mnemonic opcode form rest hi
    obtain ⟨own, hown⟩ := hcode _ _ _ hi
    obtain ⟨bytes, rfl, hlength, hvalue⟩ := Form.encode_operand hown.encode_eq
    exact ⟨bytes, hown.slice_eq, hlength, hvalue⟩
  · intro before mnemonic opcode operand rest hi
    obtain ⟨own, hown⟩ := hcode _ _ _ hi
    obtain ⟨byte, rfl, hvalue, hdistance⟩ := Form.encode_relative hown.encode_eq
    exact ⟨_, _, hvalue, hdistance, rfl⟩
  · intro row hm
    obtain ⟨before, item, rest, hi, hentry⟩ := mem_entriesFrom hm
    obtain ⟨own, hown⟩ := coded_of_compile h before item rest hi
    have hdecimals := Item.length_decimals_le hown hentry
    exact ⟨hdecimals, Row.drop_start (Nat.le_succ_of_le hdecimals)⟩
  · intro entry _ hquoted
    exact Entry.oneLine_lines hquoted

end Compiled

namespace Console

/-- **The listing tells the truth about the image**, for every program that steps can build and every cartridge. -/
theorem truthful_listing (steps : List Step) (cartridge : Cartridge) (trace after : List Event) (assembly : Assembly)
    (h : (build steps).compile cartridge trace = .ok assembly after) :
    (build steps).length = .ok (totalSize (itemsOf steps)) ∧ Truthful (itemsOf steps) assembly := by
  rw [build_eq] at h ⊢
  obtain ⟨_, ho, hf, _⟩ := compile_inv h
  exact ⟨length_of_fits ho hf, truthful_of_compile h⟩

/-- a branch back, a table, a name too long for its column, and a jump to it -/
def survey : List Step :=
  [.call (.label "top"), .call Call.dex, .call (Call.bne (.label "top")), .call (.data "table" [7, 255]),
    .call (.label "a name that is far too long for forty columns"),
    .call (Call.jmpAbsolute (.label "a name that is far too long for forty columns"))]

theorem truthful_survey :
    ∃ assembly after, (build survey).compile ⟨16, 16⟩ [] = .ok assembly after ∧
      (build survey).length = .ok 8 ∧
      Truthful [.label "top", .instruction "DEX" 0xCA .implied, .instruction "BNE" 0xD0 (.relative (.label "top")),
        .label "table", .data 7, .data 255, .label "a name that is far too long for forty columns",
        .instruction "JMP" 0x4C (.absolute .none (.label "a name that is far too long for forty columns"))]
        assembly := by
  have ho : Cartridge.origin ⟨16, 16⟩ = .ok 0xFFF0 := rfl
  have hd : (labelNames (itemsOf survey)).Nodup := by decide
  have hc : encodeFrom ⟨labelsFrom 0xFFF0 (itemsOf survey)⟩ 0xFFF0 (itemsOf survey) =
      .ok [0xCA, 0xD0, 0xFD, 7, 255, 0x4C, 0xF5, 0xFF] := rfl
  obtain ⟨image, listing, _, h⟩ := compile_ofItems ho rfl hd hc []
  rw [← build_eq] at h
  exact ⟨_, _, h, truthful_listing _ _ _ _ _ h⟩

end Console

end Asm6502
