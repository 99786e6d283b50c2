import Simplex.Json.Value
import Simplex.Number.Numeral
/-! Reading JSON. Beside the standard grammar the reader takes `NaN`, `Infinity` and `-Infinity` for
    numbers and an escaped half of a surrogate pair for a code point. Containers nest to a given
    depth, and an integer has at most 4300 digits. -/

namespace Simplex.Json

/-- Why a text is not read. -/
inductive ReadFault where
  /-- The text is no document. -/
  | malformed
  /-- The containers nest too deeply. -/
  | tooDeep
  /-- An integer has too many digits. -/
  | longInteger
  deriving DecidableEq, Repr

/-- The longest integer that is read. -/
def mostDigits : Nat := 4300

/-- How deeply the containers of a stored document may nest. -/
def mostLevels : Nat := 1000

/-- A value read from the head of a text, with the rest of the text. -/
abbrev Read := Except ReadFault

def isBlank (p : CodePoint) : Bool := [0x20, 0x09, 0x0A, 0x0D].contains p.value

def skipBlank (t : Text) : Text := t.dropWhile isBlank

/-- What follows a word at the head of the text. -/
def after? : List Char → Text → Option Text
  | [], t => some t
  | c :: cs, p :: t => if p = .char c then after? cs t else none
  | _ :: _, [] => none

/-- The value of a hexadecimal digit. -/
def hexValue? : CodePoint → Option Nat
  | .surrogate _ => none
  | .char c =>
    if c.isDigit then some (c.toNat - 48)
    else if 'a' ≤ c ∧ c ≤ 'f' then some (c.toNat - 87)
    else if 'A' ≤ c ∧ c ≤ 'F' then some (c.toNat - 55)
    else none

/-- The unit that four hexadecimal digits name. -/
def unit? (a b c d : CodePoint) : Option Nat := do
  let a ← hexValue? a
  let b ← hexValue? b
  let c ← hexValue? c
  let d ← hexValue? d
  return ((a * 16 + b) * 16 + c) * 16 + d

/-- The second half of an escaped surrogate pair whose first half has just been read, with the rest
    of the text after it. -/
def lowHalf? (high : Nat) : Text → Option (Nat × Text)
  | .char '\\' :: .char 'u' :: a :: b :: c :: d :: rest => do
    let low ← unit? a b c d
    if 0xD800 ≤ high ∧ high ≤ 0xDBFF ∧ 0xDC00 ≤ low ∧ low ≤ 0xDFFF then some (low, rest) else none
  | _ => none

/-- The character of a surrogate pair. -/
def joined (high low : Nat) : Nat := 0x10000 + (high - 0xD800) * 0x400 + (low - 0xDC00)

/-- The character that an escape of one letter stands for. -/
def escaped? : CodePoint → Option Char
  | .char '"' => some '"'
  | .char '\\' => some '\\'
  | .char '/' => some '/'
  | .char 'b' => some '\x08'
  | .char 'f' => some '\x0c'
  | .char 'n' => some '\n'
  | .char 'r' => some '\r'
  | .char 't' => some '\t'
  | _ => none

/-- One code point of a string, written as itself or by an escape, and the rest of the text. -/
def point? : Text → Option (CodePoint × Text)
  | .char '\\' :: .char 'u' :: a :: b :: c :: d :: rest => do
    let n ← unit? a b c d
    match lowHalf? n rest with
    | some (low, rest) => some (.ofValue (joined n low), rest)
    | none => some (.ofValue n, rest)
  | .char '\\' :: p :: rest => do
    let c ← escaped? p
    some (.char c, rest)
  | p :: rest => if p = .char '\\' ∨ p.value < 0x20 then none else some (p, rest)
  | [] => none

/-- The rest of a string after its opening quote. -/
def stringBody : Nat → Text → Read (Text × Text)
  | _, .char '"' :: rest => .ok ([], rest)
  | 0, _ => .error .malformed
  | fuel + 1, t =>
    match point? t with
    | none => .error .malformed
    | some (p, rest) => do
      let (ps, rest) ← stringBody fuel rest
      return (p :: ps, rest)

/-- A string after its opening quote. -/
def string (t : Text) : Read (Text × Text) := stringBody t.length t

/-- A run of digits and the rest of the text. -/
def digits : Text → List Nat × Text
  | [] => ([], [])
  | p :: rest =>
    if 48 ≤ p.value ∧ p.value < 58 then
      let (ds, rest) := digits rest
      ((p.value - 48) :: ds, rest)
    else ([], p :: rest)

/-- The digits after a point; a point without digits is left where it is. -/
def fraction (t : Text) : List Nat × Text :=
  match t with
  | .char '.' :: rest =>
    match digits rest with
    | ([], _) => ([], t)
    | found => found
  | _ => ([], t)

/-- The sign of an exponent, positive if none is written. -/
def exponentSign : Text → Bool × Text
  | .char '-' :: rest => (true, rest)
  | .char '+' :: rest => (false, rest)
  | rest => (false, rest)

/-- The exponent after its mark; a mark without digits is left where it is. -/
def exponent (t : Text) : Bool × List Nat × Text :=
  match t with
  | p :: rest =>
    if p = .char 'e' ∨ p = .char 'E' then
      let (negative, rest) := exponentSign rest
      match digits rest with
      | ([], _) => (false, [], t)
      | (ds, rest) => (negative, ds, rest)
    else (false, [], t)
  | [] => (false, [], t)

/-- A number from its first digit on. Without a point and an exponent it is an integer; a leading
    zero is the whole integer part. -/
def magnitude (negative : Bool) (t : Text) : Read (Value × Text) :=
  let (whole, rest) := match t with
    | .char '0' :: rest => ([0], rest)
    | t => digits t
  let (fractional, rest) := fraction rest
  let (exponentNegative, exponential, rest) := exponent rest
  if whole = [] then .error .malformed
  else if fractional = [] ∧ exponential = [] then
    if mostDigits < whole.length then .error .longInteger
    else
      let n : Int := Numeral.valueOf whole
      .ok (.int (if negative then -n else n), rest)
  else
    .ok (.float (Numeral.ofParts negative whole fractional exponentNegative exponential).toFloat,
      rest)

def infinity : Float := 1.0 / 0.0

/-- A number, or one of the words that stand for what is no finite number. -/
def number (t : Text) : Read (Value × Text) :=
  match after? "-Infinity".toList t, after? "Infinity".toList t, after? "NaN".toList t with
  | some rest, _, _ => .ok (.float (-infinity), rest)
  | _, some rest, _ => .ok (.float infinity, rest)
  | _, _, some rest => .ok (.float (0.0 / 0.0), rest)
  | none, none, none =>
    match t with
    | .char '-' :: rest => magnitude true rest
    | t => magnitude false t

/-- A word or a number. -/
def scalar (t : Text) : Read (Value × Text) :=
  match after? "null".toList t, after? "true".toList t, after? "false".toList t with
  | some rest, _, _ => .ok (.null, rest)
  | _, some rest, _ => .ok (.bool true, rest)
  | _, _, some rest => .ok (.bool false, rest)
  | none, none, none => number t

mutual

/-- A document at the head of the text. Every call takes a unit of fuel. -/
def document : Nat → Nat → Text → Read (Value × Text)
  | 0, _, _ => .error .malformed
  | fuel + 1, levels, t =>
    match t with
    | .char '"' :: rest => do
      let (s, rest) ← string rest
      return (.string s, rest)
    | .char '[' :: rest =>
      match levels with
      | 0 => .error .tooDeep
      | levels + 1 =>
        match skipBlank rest with
        | .char ']' :: rest => .ok (.array [], rest)
        | rest => do
          let (items, rest) ← elements fuel levels rest
          return (.array items, rest)
    | .char '{' :: rest =>
      match levels with
      | 0 => .error .tooDeep
      | levels + 1 =>
        match skipBlank rest with
        | .char '}' :: rest => .ok (.object [], rest)
        | rest => do
          let (members, rest) ← members fuel levels [] rest
          return (.object members, rest)
    | t => scalar t

/-- The elements of an array up to its closing bracket. -/
def elements : Nat → Nat → Text → Read (List Value × Text)
  | 0, _, _ => .error .malformed
  | fuel + 1, levels, t => do
    let (item, rest) ← document fuel levels t
    match skipBlank rest with
    | .char ']' :: rest => return ([item], rest)
    | .char ',' :: rest =>
      let (items, rest) ← elements fuel levels (skipBlank rest)
      return (item :: items, rest)
    | _ => .error .malformed

/-- The members of an object up to its closing brace, added to those before them. -/
def members : Nat → Nat → List (Text × Value) → Text → Read (List (Text × Value) × Text)
  | 0, _, _, _ => .error .malformed
  | fuel + 1, levels, done, t =>
    match t with
    | .char '"' :: rest => do
      let (name, rest) ← string rest
      match skipBlank rest with
      | .char ':' :: rest =>
        let (value, rest) ← document fuel levels (skipBlank rest)
        let done := Value.assign name value done
        match skipBlank rest with
        | .char '}' :: rest => return (done, rest)
        | .char ',' :: rest => members fuel levels done (skipBlank rest)
        | _ => .error .malformed
      | _ => .error .malformed
    | _ => .error .malformed

end

/-- Reads a whole text as one document. A byte order mark at its head is refused. -/
def read (levels : Nat) (t : Text) : Except ReadFault Value := do
  let (v, rest) ← document (2 * t.length + 2) levels (skipBlank t)
  if skipBlank rest = [] then .ok v else .error .malformed

end Simplex.Json
