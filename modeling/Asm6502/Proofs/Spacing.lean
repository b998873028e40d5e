/-
How far the columns of a listing stand apart.

Columns are set apart by padding alone: a text is filled up to forty characters and the decimal bytes to fifteen. The
decimal bytes never fill their fifteen, but a text may have a name of any length in it, and one that fills its forty
characters runs into the first byte.

- `Row.gaps_iff`: a line has one way to be taken apart into its columns, and the gaps between them are the padding.
- `Row.apart_iff`: so the columns are apart just if both are narrower than their padding.
- `length_placeText_le`: an address takes at most 13 characters, which leaves 26 for the text.
- `Item.Brief`: what has no name in it is short enough.
- `spaced_build`: all this for the lines of every compiled program.
- `touching_columns`: the wait for the end of the vertical blank in the demo is a line whose columns touch.
-/
import Asm6502.Proofs.Listing

namespace Asm6502

/-! ## Gaps -/

/-- the line has `first` blanks behind the text and `second` blanks behind the decimal bytes -/
def Row.Gaps (row : Row) (first second : Nat) : Prop :=
  row.line = row.left ++ blanks first ++ row.decimals ++ blanks second ++ row.hexadecimals

/-- there are blanks between the text and the first decimal byte, and between the decimal bytes and the first
hexadecimal one -/
def Row.Apart (row : Row) : Prop :=
  ∃ first second, row.Gaps first second ∧ 0 < first ∧ 0 < second

/-- blanks in front of something else can be counted -/
theorem replicate_blank_inj {first other : Nat} {c d : Char} (hc : c ≠ ' ') (hd : d ≠ ' ') {rest more : List Char}
    (h : List.replicate first ' ' ++ c :: rest = List.replicate other ' ' ++ d :: more) :
    first = other ∧ c :: rest = d :: more := by
  induction first generalizing other with
  | zero =>
    rcases other with _ | other
    · exact ⟨rfl, h⟩
    · rw [List.replicate_succ] at h
      exact absurd (List.cons.inj h).1 hc
  | succ first ih =>
    rcases other with _ | other
    · rw [List.replicate_succ] at h
      exact absurd (List.cons.inj h).1.symm hd
    · rw [List.replicate_succ, List.replicate_succ] at h
      obtain ⟨hcount, hrest⟩ := ih (List.cons.inj h).2
      exact ⟨congrArg (· + 1) hcount, hrest⟩

theorem exists_digit_repr (n : Nat) : ∃ digit digits, (toString n).toList = digit :: digits ∧ digit ≠ ' ' := by
  rw [Nat.toString_eq_repr, Nat.toList_repr]
  rcases hd : Nat.toDigits 10 n with _ | ⟨digit, digits⟩
  · exact absurd hd Nat.toDigits_ne_nil
  · have hmem : digit ∈ Nat.toDigits 10 n := by simp [hd]
    refine ⟨digit, digits, rfl, ?_⟩
    rintro rfl
    exact absurd (Nat.isDigit_of_mem_toDigits (by decide) (by decide) hmem) (by decide)

namespace Row

variable {row : Row} {first second : Nat}

/-- the decimal bytes begin with a digit -/
theorem exists_digit_decimals (h : row.bytes ≠ []) :
    ∃ digit digits, row.decimals.toList = digit :: digits ∧ digit ≠ ' ' := by
  rcases hb : row.bytes with _ | ⟨byte, bytes⟩
  · exact absurd hb h
  · obtain ⟨digit, digits, hdigits, hne⟩ := exists_digit_repr byte.toNat
    rw [decimals, hb]
    rcases bytes with _ | ⟨next, bytes⟩
    · simp only [List.map_cons, List.map_nil, String.intercalate_singleton, String.toList_append, hdigits,
        List.cons_append]
      exact ⟨_, _, rfl, hne⟩
    · simp only [List.map_cons, String.intercalate_cons_cons, String.toList_append, hdigits, List.cons_append]
      exact ⟨_, _, rfl, hne⟩

/-- **The gaps are the padding.** -/
theorem gaps_iff (h : row.bytes ≠ []) :
    row.Gaps first second ↔ first = 40 - row.left.length ∧ second = 15 - row.decimals.length := by
  constructor
  · intro hline
    obtain ⟨digit, digits, hdigits, hne⟩ := exists_digit_decimals h
    have hlist := congrArg String.toList hline
    simp only [line, String.toList_append, List.append_assoc, List.append_cancel_left_eq, blanks,
      String.toList_ofList, hdigits, List.cons_append] at hlist
    obtain ⟨hfirst, hrest⟩ := replicate_blank_inj hne hne hlist
    have hwidth := congrArg List.length hrest
    simp only [List.length_cons, List.length_append, List.length_replicate] at hwidth
    exact ⟨hfirst.symm, by omega⟩
  · rintro ⟨rfl, rfl⟩
    rfl

/-- **The columns are apart just if both leave room in their padding.** -/
theorem apart_iff (h : row.bytes ≠ []) : row.Apart ↔ row.left.length < 40 ∧ row.decimals.length < 15 := by
  constructor
  · rintro ⟨first, second, hgaps, hfirst, hsecond⟩
    obtain ⟨rfl, rfl⟩ := (gaps_iff h).1 hgaps
    omega
  · rintro ⟨hleft, hdecimals⟩
    exact ⟨_, _, rfl, by omega, by omega⟩

end Row

/-! ## Widths of texts -/

theorem length_hexText_le {n : Nat} (h : n < 0x10000) : (hexText n).length ≤ 4 := by
  rw [hexText, String.length_ofList, hexDigits]
  split
  · simp
  · rw [hexDigits]
    split
    · simp
    · rw [hexDigits, if_pos (by omega)]
      simp

theorem length_placeText_le {address : Nat} (h : address < 0x10000) : (placeText address).length ≤ 13 := by
  have hhex := length_hexText_le h
  have hdecimal : (toString address).length ≤ 5 := by
    rw [Nat.toString_eq_repr]
    exact (Nat.length_repr_le_iff (by decide)).2 (by omega)
  have hmarks : " ".length = 1 ∧ " : ".length = 3 := ⟨rfl, rfl⟩
  simp only [placeText, String.length_append]
  omega

theorem Mode.length_suffix_le (mode : Mode) : mode.suffix.length ≤ 10 := by
  rcases mode with _ | _ | _ | index | index | _
  case zeroPage => cases index <;> decide
  case absolute => cases index <;> decide
  all_goals decide

theorem Operand.length_literal_le (value : Int32) : (Operand.literal value).text.length ≤ 11 := by
  have hlow := value.le_toInt
  have hhigh := value.toInt_lt
  have hdigits : value.toInt.natAbs.repr.length ≤ 10 := (Nat.length_repr_le_iff (by omega)).2 (by omega)
  exact (length_int_le value.toInt).trans (by omega)

/-- what is written without a name: data, and an instruction of three letters with a number or nothing behind it -/
def Item.Brief : Item → Prop
  | .label _ => False
  | .data _ => True
  | .instruction mnemonic _ form => mnemonic.length ≤ 3 ∧ ∀ name, form.operand ≠ some (.label name)

theorem Form.length_text_le {mnemonic : String} {form : Form} (hmnemonic : mnemonic.length ≤ 3)
    (h : ∀ name, form.operand ≠ some (.label name)) : (form.text mnemonic).length ≤ 26 := by
  have hsuffix := form.mode.length_suffix_le
  have hempty : "".length = 0 := rfl
  have hblank : " ".length = 1 := rfl
  rw [text, String.length_append, String.length_append]
  rcases ho : form.operand with _ | value | name
  · simp only
    omega
  · have hvalue := Operand.length_literal_le value
    simp only [String.length_append]
    omega
  · exact absurd ho (h name)

/-! ## Compiled programs -/

/-- the columns of a listing's lines, each line being that of an item with bytes -/
structure Spaced (items : List Item) (assembly : Assembly) : Prop where
  /-- the listing is made of labels and of these lines -/
  listing_eq : assembly.listing = String.join ((entriesFrom assembly 0 items).map Entry.block)
  /-- behind the decimal bytes there is always a blank, and behind the text there are as many as it is short of forty
  characters -/
  gaps : ∀ row, .line row ∈ entriesFrom assembly 0 items →
    ∃ second, 0 < second ∧ ∀ first other, row.Gaps first other ↔ first = 40 - row.left.length ∧ other = second
  /-- so the columns are apart just if the text is shorter than forty characters with its address -/
  apart_iff : ∀ row, .line row ∈ entriesFrom assembly 0 items → (row.Apart ↔ row.left.length < 40)
  /-- or if it has 26 characters at most, wherever it stands -/
  short : ∀ row, .line row ∈ entriesFrom assembly 0 items → row.text.length ≤ 26 → row.Apart
  /-- which it has if there is no name in it -/
  brief : ∀ before item after, items = before ++ item :: after → item.Brief →
    ∃ row, item.entry assembly (totalSize before) = .line row ∧ row.Apart

section Entries

variable {assembly : Assembly} {offset : Nat} {item : Item} {own : List UInt8}

theorem Item.bytes_ne_nil (h : CodeAt assembly offset item own) {row : Row}
    (hrow : item.entry assembly offset = .line row) : row.bytes ≠ [] := by
  rcases item with name | value | ⟨mnemonic, opcode, form⟩
  · cases hrow
  · cases h.encode_eq
    have hslice : assembly.slice offset 1 = [value] := h.slice_eq
    rw [entry, hslice] at hrow
    cases hrow
    exact List.cons_ne_nil _ _
  · obtain ⟨bytes, rfl, _⟩ := Form.encode_operand h.encode_eq
    have hslice : assembly.slice offset form.size = opcode :: bytes := h.slice_eq
    rw [entry, hslice] at hrow
    cases hrow
    exact List.cons_ne_nil _ _

theorem Item.apart_iff (h : CodeAt assembly offset item own) {row : Row}
    (hrow : item.entry assembly offset = .line row) : row.Apart ↔ row.left.length < 40 := by
  have hdecimals := Item.length_decimals_le h hrow
  rw [Row.apart_iff (Item.bytes_ne_nil h hrow)]
  omega

/-- an address and 26 characters are shorter than forty -/
theorem Item.apart_of_short (h : CodeAt assembly offset item own) (haddress : assembly.origin + offset < 0x10000)
    {row : Row} (hrow : item.entry assembly offset = .line row) (hshort : row.text.length ≤ 26) : row.Apart := by
  have hplace : (placeText row.address).length ≤ 13 := by
    apply length_placeText_le
    rcases item with name | value | ⟨mnemonic, opcode, form⟩
    · cases hrow
    · cases hrow
      exact haddress
    · cases hrow
      exact haddress
  rw [Item.apart_iff h hrow, Row.left, String.length_append]
  omega

theorem Item.exists_short_row (h : item.Brief) :
    ∃ row, item.entry assembly offset = .line row ∧ row.text.length ≤ 26 := by
  rcases item with name | value | ⟨mnemonic, opcode, form⟩
  · cases h
  · have hbyte := length_repr_byte value
    have hword : ".byte ".length = 6 := rfl
    refine ⟨_, rfl, ?_⟩
    simp only [String.length_append]
    omega
  · exact ⟨_, rfl, Form.length_text_le h.1 h.2⟩

end Entries

theorem spaced_of_compile {items : List Item} {cartridge : Cartridge} {trace after : List Event} {assembly : Assembly}
    (h : (Program.ofItems items).compile cartridge trace = .ok assembly after) : Spaced items assembly := by
  have hcode : ∀ before item rest, items = before ++ item :: rest →
      ∃ own, CodeAt assembly (0 + totalSize before) item own := coded_of_compile h
  have haddress : ∀ before item rest, items = before ++ item :: rest →
      assembly.origin + (0 + totalSize before) < 0x10000 := by
    rintro before item rest rfl
    obtain ⟨_, ho, hf, _⟩ := compile_inv h
    have hbelow := fits_below_vectors ho hf
    rw [totalSize_append] at hbelow
    omega
  refine ⟨listing_of_compile h, ?_, ?_, ?_, ?_⟩
  · intro row hm
    obtain ⟨before, item, rest, hi, hrow⟩ := mem_entriesFrom hm
    obtain ⟨own, hown⟩ := hcode before item rest hi
    have hdecimals := Item.length_decimals_le hown hrow
    exact ⟨15 - row.decimals.length, by omega, fun first other => Row.gaps_iff (Item.bytes_ne_nil hown hrow)⟩
  · intro row hm
    obtain ⟨before, item, rest, hi, hrow⟩ := mem_entriesFrom hm
    obtain ⟨own, hown⟩ := hcode before item rest hi
    exact Item.apart_iff hown hrow
  · intro row hm hshort
    obtain ⟨before, item, rest, hi, hrow⟩ := mem_entriesFrom hm
    obtain ⟨own, hown⟩ := hcode before item rest hi
    exact Item.apart_of_short hown (haddress before item rest hi) hrow hshort
  · intro before item rest hi hbrief
    obtain ⟨own, hown⟩ := hcode before item rest hi
    obtain ⟨row, hrow, hshort⟩ := Item.exists_short_row hbrief
    have happart := Item.apart_of_short hown (haddress before item rest hi) hrow hshort
    rw [Nat.zero_add] at hrow
    exact ⟨row, hrow, happart⟩

namespace Console

/-- **How far the columns of a listing stand apart**, for every program that steps can build and every cartridge. -/
theorem spaced_build (steps : List Step) (cartridge : Cartridge) (trace after : List Event) (assembly : Assembly)
    (h : (build steps).compile cartridge trace = .ok assembly after) : Spaced (itemsOf steps) assembly := by
  rw [build_eq] at h
  exact spaced_of_compile h

/-- the wait for the end of the vertical blank, as the demo has it -/
def blankWait : List Step :=
  [.routine (.waitForEndOfVerticalBlank "HelloWorld")]

theorem compile_blankWait :
    ∃ assembly after, (build blankWait).compile {} [] = .ok assembly after ∧ assembly.origin = 0xF000 ∧
      assembly.labels = ⟨[("WaitForVblankEnd-HelloWorld", 0xF000)]⟩ := by
  have ho : Cartridge.origin {} = .ok 0xF000 := rfl
  have hd : (labelNames (itemsOf blankWait)).Nodup := by decide
  have hc : encodeFrom ⟨labelsFrom 0xF000 (itemsOf blankWait)⟩ 0xF000 (itemsOf blankWait) =
      .ok [0xAD, 0x84, 0x02, 0xD0, 0xFB, 0x85, 0x02, 0x85, 0x01] := rfl
  obtain ⟨image, listing, _, h⟩ := compile_ofItems ho rfl hd hc []
  rw [← build_eq] at h
  exact ⟨_, _, h, rfl, rfl⟩

theorem spaced_blankWait :
    ∃ assembly after, (build blankWait).compile {} [] = .ok assembly after ∧
      Spaced [.label "WaitForVblankEnd-HelloWorld", .instruction "LDA" 0xAD (.absolute .none (.literal 0x284)),
        .instruction "BNE" 0xD0 (.relative (.label "WaitForVblankEnd-HelloWorld")),
        .instruction "STA" 0x85 (.zeroPage .none (.literal 2)), .instruction "STA" 0x85 (.zeroPage .none (.literal 1))]
        assembly := by
  obtain ⟨assembly, after, h, -⟩ := compile_blankWait
  exact ⟨_, _, h, spaced_build _ _ _ _ _ h⟩

/-- the line of its branch -/
def blankRow : Row :=
  ⟨0xF003, "BNE WaitForVblankEnd-HelloWorld", [0xD0, 0xFB], some (-5)⟩

/-- the name at the end of the text runs into the first byte -/
theorem touching_columns :
    ∃ assembly after, (build blankWait).compile {} [] = .ok assembly after ∧
      assembly.listing = String.join ((entriesFrom assembly 0 (itemsOf blankWait)).map Entry.block) ∧
      .line blankRow ∈ entriesFrom assembly 0 (itemsOf blankWait) ∧
      blankRow.left = "F003 61443 : BNE WaitForVblankEnd-HelloWorld" ∧
      blankRow.line = "F003 61443 : BNE WaitForVblankEnd-HelloWorld208 251 [-5]   D0 FB" ∧ ¬ blankRow.Apart := by
  obtain ⟨assembly, after, h, horigin, hlabels⟩ := compile_blankWait
  have hitems := h
  rw [build_eq] at hitems
  -- the two bytes of the branch are those that its encoding gives
  obtain ⟨own, hown⟩ := coded_of_compile hitems
    [.label "WaitForVblankEnd-HelloWorld", .instruction "LDA" 0xAD (.absolute .none (.literal 0x284))]
    (.instruction "BNE" 0xD0 (.relative (.label "WaitForVblankEnd-HelloWorld"))) _ rfl
  have hencode := hown.encode_eq
  rw [horigin, hlabels] at hencode
  cases hencode
  have hslice : assembly.slice 3 2 = [0xD0, 0xFB] := hown.slice_eq
  have hrow : .line blankRow =
      (Item.instruction "BNE" 0xD0 (.relative (.label "WaitForVblankEnd-HelloWorld"))).entry assembly 3 := by
    simp only [Item.entry, Form.size, horigin, hlabels, hslice]
    rfl
  have hleft : blankRow.left = "F003 61443 : BNE WaitForVblankEnd-HelloWorld" := by
    rw [Row.left, ← address_eq]
    rfl
  refine ⟨assembly, after, h, listing_of_compile hitems, ?_, hleft, ?_, ?_⟩
  · rw [hrow]
    exact .tail _ (.tail _ (.head _))
  · rw [← Row.line_eq, hleft]
    rfl
  · rw [Row.apart_iff (List.cons_ne_nil _ _), hleft]
    rintro ⟨hnarrow, -⟩
    exact absurd hnarrow (by decide)

end Console

end Asm6502
