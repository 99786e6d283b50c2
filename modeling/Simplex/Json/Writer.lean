import Simplex.Json.Value
import Simplex.Number.Shortest
/-! Writing JSON, in ASCII. A document is written on one line, or with every item of a container
    on a line of its own. -/

namespace Simplex.Json

/-- The text of a double in a document. -/
def floatText (x : Float) : String := (Binary.ofFloat x).text "NaN" "Infinity"

/-- An escape by number. -/
def unitEscape (n : Nat) : List Char := '\\' :: 'u' :: digitsIn 16 4 n

/-- A code point inside a string: a visible ASCII character stands for itself, apart from the quote
    and the backslash, and a character beyond the first plane is a pair of escapes. -/
def pointText (p : CodePoint) : List Char :=
  let n := p.value
  if n = 0x22 then ['\\', '"']
  else if n = 0x5C then ['\\', '\\']
  else if 0x20 ≤ n ∧ n < 0x7F then [Char.ofNat n]
  else if n = 0x0A then ['\\', 'n']
  else if n = 0x0D then ['\\', 'r']
  else if n = 0x09 then ['\\', 't']
  else if n = 0x08 then ['\\', 'b']
  else if n = 0x0C then ['\\', 'f']
  else if n < 0x10000 then unitEscape n
  else
    let n := n - 0x10000
    unitEscape (0xD800 + n / 0x400) ++ unitEscape (0xDC00 + n % 0x400)

def stringText (t : Text) : List Char := '"' :: t.flatMap pointText ++ ['"']

/-- Where the items of a container go: on one line, or on lines indented by two more blanks. -/
inductive Layout where
  | line
  | indented (depth : Nat)

namespace Layout

/-- The layout of the items inside a container. -/
def inner : Layout → Layout
  | .line => .line
  | .indented depth => .indented (depth + 2)

/-- What stands before the first and after the last item. -/
def edge : Layout → List Char
  | .line => []
  | .indented depth => '\n' :: List.replicate depth ' '

/-- What stands between two items. -/
def separator : Layout → List Char
  | .line => [',', ' ']
  | l => ',' :: l.edge

end Layout

mutual

/-- A document. -/
def write (l : Layout) : Value → List Char
  | .null => "null".toList
  | .bool b => (if b then "true" else "false").toList
  | .int n => (toString n).toList
  | .float x => (floatText x).toList
  | .string t => stringText t
  | .array [] => ['[', ']']
  | .array (v :: vs) =>
    '[' :: l.inner.edge ++ write l.inner v ++ writeItems l.inner vs ++ l.edge ++ [']']
  | .object [] => ['{', '}']
  | .object ((k, v) :: rest) =>
    '{' :: l.inner.edge ++ stringText k ++ [':', ' '] ++ write l.inner v ++
      writeMembers l.inner rest ++ l.edge ++ ['}']

/-- The elements of an array after the first. -/
def writeItems (l : Layout) : List Value → List Char
  | [] => []
  | v :: vs => l.separator ++ write l v ++ writeItems l vs

/-- The members of an object after the first. -/
def writeMembers (l : Layout) : List (Text × Value) → List Char
  | [] => []
  | (k, v) :: rest => l.separator ++ stringText k ++ [':', ' '] ++ write l v ++ writeMembers l rest

end

/-- A document on one line. -/
def lineText (v : Value) : String := String.ofList (write .line v)

/-- A document with every item on a line of its own. -/
def indentedText (v : Value) : String := String.ofList (write (.indented 0) v)

end Simplex.Json
