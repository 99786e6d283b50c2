/-! Text as it travels in JSON documents. An escape can name half of a surrogate pair on its own, so
    a text is a list of code points of which some may be no characters. -/

namespace Simplex

/-- A character, or half of a surrogate pair standing alone. -/
inductive CodePoint where
  | char (c : Char)
  | surrogate (unit : Nat)
  deriving DecidableEq, Repr, Inhabited

abbrev Text := List CodePoint

namespace CodePoint

def value : CodePoint → Nat
  | .char c => c.toNat
  | .surrogate unit => unit

/-- The code point of a number: a character unless the number lies in the surrogate range. -/
def ofValue (n : Nat) : CodePoint :=
  if 0xD800 ≤ n ∧ n ≤ 0xDFFF then .surrogate n else .char (Char.ofNat n)

end CodePoint

namespace Text

def ofString (s : String) : Text := s.toList.map .char

/-- The text as a string, with a replacement character for each lone surrogate. -/
def toString (t : Text) : String :=
  String.ofList (t.map fun
    | .char c => c
    | .surrogate _ => Char.ofNat 0xFFFD)

end Text

/-- The digits of a natural number in a base up to sixteen, at least `width` of them. -/
def digitsIn (base width n : Nat) : List Char :=
  let ds := Nat.toDigits base n
  List.replicate (width - ds.length) '0' ++ ds

end Simplex

/-! White space and decimal digits beyond ASCII, as the character database
    of Unicode 14 has them. -/

namespace Simplex.Blank

/-- White space in any script, without the four information separators of ASCII. -/
def isBlank (n : Nat) : Bool :=
  (0x09 ≤ n && n ≤ 0x0D) || (0x2000 ≤ n && n ≤ 0x200A) ||
    [0x20, 0x85, 0xA0, 0x1680, 0x2028, 0x2029, 0x202F, 0x205F, 0x3000].contains n

end Simplex.Blank

namespace Simplex.Digit

/-- The zeros of the decimal scripts; the nine other digits of a script follow its zero. -/
def zeros : List Nat :=
  [0x30, 0x660, 0x6F0, 0x7C0, 0x966, 0x9E6, 0xA66, 0xAE6, 0xB66, 0xBE6, 0xC66, 0xCE6, 0xD66, 0xDE6,
    0xE50, 0xED0, 0xF20, 0x1040, 0x1090, 0x17E0, 0x1810, 0x1946, 0x19D0, 0x1A80, 0x1A90, 0x1B50,
    0x1BB0, 0x1C40, 0x1C50, 0xA620, 0xA8D0, 0xA900, 0xA9D0, 0xA9F0, 0xAA50, 0xABF0, 0xFF10, 0x104A0,
    0x10D30, 0x11066, 0x110F0, 0x11136, 0x111D0, 0x112F0, 0x11450, 0x114D0, 0x11650, 0x116C0,
    0x11730, 0x118E0, 0x11950, 0x11C50, 0x11D50, 0x11DA0, 0x16A60, 0x16AC0, 0x16B50, 0x1D7CE,
    0x1D7D8, 0x1D7E2, 0x1D7EC, 0x1D7F6, 0x1E140, 0x1E2F0, 0x1E950, 0x1FBF0]

/-- The value of a decimal digit of any script. -/
def valueOf? (n : Nat) : Option Nat :=
  zeros.findSome? fun first => if first ≤ n ∧ n < first + 10 then some (n - first) else none

end Simplex.Digit
