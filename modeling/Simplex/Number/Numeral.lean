import Simplex.Number.Binary
import Simplex.Text.CodePoint
/-! Numerals: a decimal with an optional point and an optional exponent, read as the double nearest
    to it or as the exact fraction it is. Digits of any script count, single underscores may stand
    between two digits, and white space around the numeral is no part of it. -/

namespace Simplex

/-- The number `± coefficient · 10 ^ exponent`, with the longest run of digits in its text. -/
structure Numeral where
  negative : Bool
  coefficient : Nat
  exponent : Int
  longestRun : Nat
  deriving Repr, Inhabited

namespace Numeral

/-- The value of a string of digits. -/
def valueOf (ds : List Nat) : Nat := ds.foldl (fun n d => 10 * n + d) 0

/-- From a sign, the digits around the point and an exponent. -/
def ofParts (negative : Bool) (whole fraction : List Nat) (exponentNegative : Bool)
    (exponent : List Nat) : Numeral :=
  let e : Int := valueOf exponent
  { negative
    coefficient := valueOf (whole ++ fraction)
    exponent := (if exponentNegative then -e else e) - fraction.length
    longestRun := max (max whole.length fraction.length) exponent.length }

/-- The nearest double. The magnitude is settled by the position of the first digit when it is far
    outside the range of doubles, so that no huge power is built. -/
def toFloat (x : Numeral) : Float :=
  let position : Int := (Nat.toDigits 10 x.coefficient).length + x.exponent
  if x.coefficient = 0 ∨ position < -330 then Binary.nearest x.negative 0 1
  else if 310 < position then Binary.nearest x.negative (pow10 310) 1
  else Binary.nearest x.negative (x.coefficient * pow10 x.exponent.toNat)
    (pow10 (-x.exponent).toNat)

/-- The exact value. -/
def toRat (x : Numeral) : Rat :=
  let r := mkRat (x.coefficient * pow10 x.exponent.toNat) (pow10 (-x.exponent).toNat)
  if x.negative then -r else r

/-- A code point as the reader sees it: white space of any script is a space, and a digit of any
    script is an ASCII digit. What else lies outside ASCII has no place in a numeral. -/
def asciiOf (p : CodePoint) : Char :=
  let n := p.value
  if n < 127 then Char.ofNat n
  else if Blank.isBlank n then ' '
  else match Digit.valueOf? n with
    | some d => Char.ofNat (48 + d)
    | none => '?'

/-- The text without the white space around it. -/
def trim (cs : List Char) : List Char :=
  let blank := fun (c : Char) => Blank.isBlank c.toNat
  ((cs.dropWhile blank).reverse.dropWhile blank).reverse

/-- Digits, with at most one underscore between two of them, and the rest of the text. -/
def digitRun : List Char → List Nat × List Char
  | [] => ([], [])
  | '_' :: c :: rest =>
    if c.isDigit then
      let (ds, rest) := digitRun rest
      ((c.toNat - 48) :: ds, rest)
    else ([], '_' :: c :: rest)
  | c :: rest =>
    if c.isDigit then
      let (ds, rest) := digitRun rest
      ((c.toNat - 48) :: ds, rest)
    else ([], c :: rest)

/-- A sign, positive if none is written, and the rest of the text. -/
def sign : List Char → Bool × List Char
  | '-' :: rest => (true, rest)
  | '+' :: rest => (false, rest)
  | rest => (false, rest)

/-- Digits that do not begin with an underscore. -/
def run (cs : List Char) : List Nat × List Char :=
  if cs.head? = some '_' then ([], cs) else digitRun cs

/-- The fraction after a point, or nothing. -/
def fraction : List Char → List Nat × List Char
  | '.' :: rest => run rest
  | rest => ([], rest)

/-- The whole text as an exponent: nothing, or a mark with a sign and digits. -/
def exponentPart? (cs : List Char) : Option (Bool × List Nat) :=
  match cs with
  | [] => some (false, [])
  | c :: rest =>
    if c = 'e' ∨ c = 'E' then
      let (negative, rest) := sign rest
      match run rest with
      | ([], _) => none
      | (ds, []) => some (negative, ds)
      | _ => none
    else none

/-- A numeral that takes up the whole text. -/
def parse? (cs : List Char) : Option Numeral := do
  let (negative, rest) := sign cs
  let (whole, rest) := run rest
  let (fraction, rest) := fraction rest
  let (exponentNegative, exponent) ← exponentPart? rest
  if whole = [] ∧ fraction = [] then none
  else some (ofParts negative whole fraction exponentNegative exponent)

/-- Reads a text as a numeral. -/
def ofText? (t : Text) : Option Numeral := parse? (trim (t.map asciiOf))

/-- The words for what is no finite number, in any case and with an optional sign. -/
def wordOf? (t : Text) : Option Float :=
  let (negative, rest) := sign (trim (t.map asciiOf))
  let word := String.ofList (rest.map Char.toLower)
  if word = "inf" ∨ word = "infinity" then some (if negative then -1.0 / 0.0 else 1.0 / 0.0)
  else if word = "nan" then some (0.0 / 0.0)
  else none

end Numeral

/-- Reads a text as a double: a numeral, or a word for an infinity or for no number. -/
def floatOfText? (t : Text) : Option Float :=
  match Numeral.ofText? t with
  | some x => some x.toFloat
  | none => Numeral.wordOf? t

end Simplex
