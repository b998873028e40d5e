/-
How numbers and columns are written.

Hexadecimal numbers are padded with zeros on the left to a least width; a longer number is written in full. Program text
has them in upper case, escapes in a log in lower case. A column is padded with blanks on the right to a least width,
counted in characters; a longer text is kept whole.
-/
namespace Asm6502.Digits

/-- digits with zeros in front of them, at least `width` in all -/
def padded (width : Nat) (digits : List Char) : String :=
  String.ofList (List.replicate (width - digits.length) '0' ++ digits)

/-- the number `n` in upper-case hexadecimal, at least `width` digits -/
def hex (width n : Nat) : String :=
  padded width ((Nat.toDigits 16 n).map Char.toUpper)

/-- the number `n` in lower-case hexadecimal, at least `width` digits -/
def lowerHex (width n : Nat) : String :=
  padded width (Nat.toDigits 16 n)

/-- the text followed by as many blanks as it is short of `width` characters -/
def column (width : Nat) (text : String) : String :=
  text ++ String.ofList (List.replicate (width - text.length) ' ')

/-- the written numbers with one blank between neighbours -/
def spaced (texts : List String) : String :=
  " ".intercalate texts

end Asm6502.Digits
