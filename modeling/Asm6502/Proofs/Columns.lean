/-
The lines of a listing: what stands in which column.

A row is the line of an item that has bytes, as a reader sees it: an address in hexadecimal and in decimal with the
item's text, the bytes in decimal with the distance of a branch in brackets, the bytes in hexadecimal. The text takes
forty characters or more and the decimal bytes fifteen or more; a column that is too long pushes the next one to the
right.

- `hexText`: hexadecimal numbers digit by digit, with two digits at least. `hex_eq`: this is how numbers are written.
- `line_eq`: a line written by columns is a row's line.
- `readBytes_hexadecimals`: the hexadecimal column reads back as the bytes it was written from.
- `length_decimals_le`: the decimal column of three bytes, or of a branch, has at most fourteen characters.
- `drop_start`: so the hexadecimal column stands fifteen characters behind the text column.
- `oneLine_line`: a line is broken only where its text is.
-/
import Asm6502.Listing

namespace Asm6502

/-! ## Rows -/

/-- the upper-case hexadecimal digit of a number below sixteen -/
def hexDigit (n : Nat) : Char :=
  (Nat.digitChar n).toUpper

/-- the hexadecimal digits of a number, two at least -/
def hexDigits (n : Nat) : List Char :=
  if n < 256 then [hexDigit (n / 16), hexDigit (n % 16)] else hexDigits (n / 16) ++ [hexDigit (n % 16)]

def hexText (n : Nat) : String :=
  String.ofList (hexDigits n)

/-- an address in hexadecimal and in decimal -/
def placeText (address : Nat) : String :=
  hexText address ++ " " ++ toString address ++ " : "

def blanks (count : Nat) : String :=
  String.ofList (List.replicate count ' ')

/-- the line of an item that has bytes -/
structure Row where
  address : Nat
  /-- the mnemonic with its operand, or the data byte -/
  text : String
  bytes : List UInt8
  /-- how far a branch goes, counted from its end -/
  distance : Option Int
  deriving DecidableEq, Repr

namespace Row

def left (row : Row) : String :=
  placeText row.address ++ row.text

/-- the distance of a branch in brackets -/
def note (row : Row) : String :=
  match row.distance with
  | some distance => " [" ++ toString distance ++ "]"
  | none => ""

def decimals (row : Row) : String :=
  " ".intercalate (row.bytes.map fun byte => toString byte.toNat) ++ row.note

def hexadecimals (row : Row) : String :=
  " ".intercalate (row.bytes.map fun byte => hexText byte.toNat)

def line (row : Row) : String :=
  row.left ++ blanks (40 - row.left.length) ++ row.decimals ++ blanks (15 - row.decimals.length) ++ row.hexadecimals

/-- the character at which the hexadecimal column starts -/
def start (row : Row) : Nat :=
  max 40 row.left.length + 15

end Row

/-! ## Hexadecimal numbers -/

theorem padded_of_le {width : Nat} {digits : List Char} (h : width ≤ digits.length) :
    Digits.padded width digits = String.ofList digits := by
  rw [Digits.padded, Nat.sub_eq_zero_of_le h]
  rfl

theorem two_le_length_toDigits {n : Nat} (h : 16 ≤ n) : 2 ≤ (Nat.toDigits 16 n).length := by
  have hone : ¬ (Nat.toDigits 16 n).length ≤ 1 := by
    rw [Nat.length_toDigits_le_iff (by omega) (by omega)]
    omega
  omega

theorem map_toDigits {n : Nat} (h : 16 ≤ n) : (Nat.toDigits 16 n).map Char.toUpper = hexDigits n := by
  induction n using Nat.strongRecOn with
  | ind n ih =>
    rw [Nat.toDigits_of_base_le (by omega) h, List.map_append, hexDigits]
    split
    · rw [Nat.toDigits_of_lt_base (by omega)]
      rfl
    · rw [ih (n / 16) (by omega) (by omega)]
      rfl

theorem hex_eq (n : Nat) : Digits.hex 2 n = hexText n := by
  by_cases h : 16 ≤ n
  · rw [Digits.hex, padded_of_le (by rw [List.length_map]; exact two_le_length_toDigits h), map_toDigits h, hexText]
  · -- one digit, and a zero in front of it
    have hlow : n < 16 := Nat.lt_of_not_le h
    rw [Digits.hex, Nat.toDigits_of_lt_base hlow, hexText, hexDigits, if_pos (by omega), Nat.div_eq_of_lt hlow,
      Nat.mod_eq_of_lt hlow]
    rfl

theorem address_eq (place : Nat) : Listing.address place = placeText place := by
  rw [Listing.address, hex_eq, placeText]
  simp only [String.append_assoc]
  rfl

theorem hexadecimal_eq (bytes : List UInt8) :
    Listing.hexadecimal bytes = " ".intercalate (bytes.map fun byte => hexText byte.toNat) := by
  simp only [Listing.hexadecimal, Digits.spaced, hex_eq]

/-- a line written by columns is the row's line -/
theorem Row.line_eq (row : Row) : Listing.line row.left row.decimals (Listing.hexadecimal row.bytes) = row.line := by
  rw [Listing.line, hexadecimal_eq, Digits.column, Digits.column, Row.line]
  simp only [String.append_assoc]
  rfl

example : (Row.mk 0xF003 "BNE loop" [208, 253] (some (-3))).line =
    "F003 61443 : BNE loop                   208 253 [-3]   D0 FD" := by
  cbv

/-! ## Reading hexadecimal columns -/

/-- the value of an upper-case hexadecimal digit -/
def digitValue (c : Char) : Option Nat :=
  if '0' ≤ c ∧ c ≤ '9' then some (c.toNat - '0'.toNat)
  else if 'A' ≤ c ∧ c ≤ 'F' then some (c.toNat - 'A'.toNat + 10)
  else none

/-- the bytes in a hexadecimal column: two digits each, blanks between them skipped -/
def readBytes : List Char → Option (List UInt8)
  | [] => some []
  | ' ' :: rest => readBytes rest
  | high :: low :: rest => do
    let high ← digitValue high
    let low ← digitValue low
    let bytes ← readBytes rest
    pure (UInt8.ofNat (16 * high + low) :: bytes)
  | [_] => none

theorem digitValue_hexDigit : ∀ n < 16, digitValue (hexDigit n) = some n := by
  decide

theorem hexDigit_ne_blank : ∀ n < 16, hexDigit n ≠ ' ' := by
  decide

theorem readBytes_hexText_append (byte : UInt8) (rest : List Char) :
    readBytes ((hexText byte.toNat).toList ++ rest) = (readBytes rest).map (byte :: ·) := by
  have hlt := byte.toNat_lt
  have hhigh : byte.toNat / 16 < 16 := Nat.div_lt_of_lt_mul hlt
  have hlow : byte.toNat % 16 < 16 := Nat.mod_lt _ (by omega)
  have hbyte : UInt8.ofNat (16 * (byte.toNat / 16) + byte.toNat % 16) = byte := by
    rw [Nat.div_add_mod]
    exact UInt8.ofNat_toNat
  rw [hexText, String.toList_ofList, hexDigits, if_pos hlt, List.cons_append, List.cons_append, List.nil_append,
    readBytes]
  · rw [digitValue_hexDigit _ hhigh, digitValue_hexDigit _ hlow]
    simp only [Option.bind_eq_bind, Option.bind_some, hbyte]
    cases readBytes rest <;> rfl
  · exact hexDigit_ne_blank _ hhigh

/-- **A hexadecimal column reads back** as the bytes it was written from. -/
theorem readBytes_spaced (bytes : List UInt8) :
    readBytes (" ".intercalate (bytes.map fun byte => hexText byte.toNat)).toList = some bytes := by
  induction bytes with
  | nil => rfl
  | cons byte bytes ih =>
    cases bytes with
    | nil =>
      have h := readBytes_hexText_append byte []
      rwa [List.append_nil] at h
    | cons next bytes =>
      have hsplit : (" ".intercalate ((byte :: next :: bytes).map fun byte => hexText byte.toNat)).toList =
          (hexText byte.toNat).toList ++
            ' ' :: (" ".intercalate ((next :: bytes).map fun byte => hexText byte.toNat)).toList := by
        simp only [List.map_cons, String.intercalate_cons_cons, String.toList_append, List.append_assoc]
        rfl
      rw [hsplit, readBytes_hexText_append, readBytes, ih]
      rfl

theorem Row.readBytes_hexadecimals (row : Row) : readBytes row.hexadecimals.toList = some row.bytes :=
  readBytes_spaced row.bytes

/-! ## Widths -/

@[simp] theorem length_blanks (count : Nat) : (blanks count).length = count := by
  rw [blanks, String.length_ofList, List.length_replicate]

theorem length_repr_byte (byte : UInt8) : (toString byte.toNat).length ≤ 3 := by
  rw [Nat.toString_eq_repr]
  exact (Nat.length_repr_le_iff (by omega)).2 (Nat.lt_trans byte.toNat_lt (by decide))

theorem length_spaced_lt {bytes : List UInt8} (h : bytes ≠ []) :
    (" ".intercalate (bytes.map fun byte => toString byte.toNat)).length < 4 * bytes.length := by
  induction bytes with
  | nil => exact absurd rfl h
  | cons byte bytes ih =>
    have hbyte := length_repr_byte byte
    cases bytes with
    | nil =>
      simp only [List.map_cons, List.map_nil, String.intercalate_singleton, List.length_cons, List.length_nil]
      omega
    | cons next bytes =>
      have hrest := ih (List.cons_ne_nil _ _)
      have hblank : " ".length = 1 := rfl
      simp only [List.map_cons, String.intercalate_cons_cons, String.length_append, List.length_cons] at hrest ⊢
      omega

/-- an integer takes one character more than its digits at most -/
theorem length_int_le (n : Int) : (toString n).length ≤ n.natAbs.repr.length + 1 := by
  rw [Int.toString_eq_repr, Int.repr_eq_if]
  split
  · rw [show n.toNat = n.natAbs by omega]
    omega
  · have hsign : "-".length = 1 := rfl
    rw [String.length_append, show (-n).toNat = n.natAbs by omega]
    omega

namespace Row

variable {row : Row}

/-- **The decimal column is narrow**: three bytes, or two bytes and a signed byte in brackets. -/
theorem length_decimals_le (hbytes : row.bytes ≠ []) (hplain : row.distance = none → row.bytes.length ≤ 3)
    (hbranch : ∀ n, row.distance = some n → row.bytes.length ≤ 2 ∧ -128 ≤ n ∧ n ≤ 127) :
    row.decimals.length ≤ 14 := by
  have hdecimal := length_spaced_lt hbytes
  rw [decimals, String.length_append, note]
  cases hd : row.distance with
  | none =>
    have hlength := hplain hd
    have hempty : "".length = 0 := rfl
    simp only
    omega
  | some n =>
    obtain ⟨hlength, hlow, hhigh⟩ := hbranch n hd
    have hnumber := length_int_le n
    have hdigits : n.natAbs.repr.length ≤ 3 := (Nat.length_repr_le_iff (by omega)).2 (by omega)
    have hbrackets : " [".length = 2 ∧ "]".length = 1 := ⟨rfl, rfl⟩
    simp only [String.length_append]
    omega

/-- the hexadecimal column is all that stands behind its start -/
theorem drop_start (h : row.decimals.length ≤ 15) : row.line.toList.drop row.start = row.hexadecimals.toList := by
  have hwidth : (row.left ++ blanks (40 - row.left.length) ++ row.decimals ++
      blanks (15 - row.decimals.length)).toList.length = row.start := by
    simp only [String.length_toList, String.length_append, length_blanks, start]
    omega
  rw [line, String.toList_append]
  exact List.drop_left' hwidth

end Row

/-! ## Line breaks -/

/-- the text has no line break in it -/
def OneLine (text : String) : Prop :=
  '\n' ∉ text.toList

@[simp] theorem oneLine_append (text more : String) : OneLine (text ++ more) ↔ OneLine text ∧ OneLine more := by
  simp [OneLine, not_or]

theorem oneLine_blanks (count : Nat) : OneLine (blanks count) := by
  rw [OneLine, blanks, String.toList_ofList]
  intro h
  exact absurd (List.eq_of_mem_replicate h) (by decide)

theorem oneLine_repr (n : Nat) : OneLine n.repr := by
  rw [OneLine, Nat.toList_repr]
  intro h
  exact absurd (Nat.isDigit_of_mem_toDigits (by omega) (by omega) h) (by decide)

theorem oneLine_int (n : Int) : OneLine (toString n) := by
  rw [Int.toString_eq_repr, Int.repr_eq_if]
  split
  · exact oneLine_repr _
  · exact (oneLine_append _ _).2 ⟨by simp [OneLine], oneLine_repr _⟩

theorem hexDigit_ne_break : ∀ n < 16, '\n' ≠ hexDigit n := by
  decide

theorem oneLine_hexText (n : Nat) : OneLine (hexText n) := by
  rw [OneLine, hexText, String.toList_ofList]
  fun_induction hexDigits n with
  | case1 n h => simp [hexDigit_ne_break (n / 16) (by omega), hexDigit_ne_break (n % 16) (by omega)]
  | case2 n h ih => simp [ih, hexDigit_ne_break (n % 16) (by omega)]

theorem oneLine_spaced {texts : List String} (h : ∀ text ∈ texts, OneLine text) : OneLine (" ".intercalate texts) := by
  induction texts with
  | nil => simp [OneLine]
  | cons text texts ih =>
    have htext := h text List.mem_cons_self
    have hrest := ih fun other ho => h other (List.mem_cons_of_mem _ ho)
    cases texts with
    | nil => simpa using htext
    | cons next texts =>
      rw [String.intercalate_cons_cons, oneLine_append, oneLine_append]
      exact ⟨⟨htext, by simp [OneLine]⟩, hrest⟩

theorem oneLine_placeText (address : Nat) : OneLine (placeText address) := by
  have hblank : OneLine " " ∧ OneLine " : " := by simp [OneLine]
  rw [placeText, oneLine_append, oneLine_append, oneLine_append]
  exact ⟨⟨⟨oneLine_hexText address, hblank.1⟩, oneLine_repr address⟩, hblank.2⟩

namespace Row

theorem oneLine_decimals (row : Row) : OneLine row.decimals := by
  rw [decimals, oneLine_append]
  constructor
  · apply oneLine_spaced
    intro text h
    obtain ⟨byte, _, rfl⟩ := List.mem_map.1 h
    exact oneLine_repr byte.toNat
  · rw [note]
    split
    · rw [oneLine_append, oneLine_append]
      exact ⟨⟨by simp [OneLine], oneLine_int _⟩, by simp [OneLine]⟩
    · simp [OneLine]

theorem oneLine_hexadecimals (row : Row) : OneLine row.hexadecimals := by
  apply oneLine_spaced
  intro text h
  obtain ⟨byte, _, rfl⟩ := List.mem_map.1 h
  exact oneLine_hexText byte.toNat

/-- a line is broken only where its text is -/
theorem oneLine_line {row : Row} (h : OneLine row.text) : OneLine row.line := by
  simp only [line, left, oneLine_append]
  exact ⟨⟨⟨⟨⟨oneLine_placeText _, h⟩, oneLine_blanks _⟩, row.oneLine_decimals⟩, oneLine_blanks _⟩,
    row.oneLine_hexadecimals⟩

end Row

end Asm6502
