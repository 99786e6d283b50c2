import Simplex.Json.Value
import Simplex.Number.Shortest
import Simplex.Text.Printable
/-! Values as messages show them: text in quotes, the constants by name, containers in brackets.
    Text between quotes is one line of visible characters. The quotes are single unless the text
    holds a single quote and no double one. -/

namespace Simplex.Text

/-- A code point between quotes: the quote and the backslash are escaped, a code point without a
    visible form is written by its number. -/
def quotedPoint (quote : Char) (p : CodePoint) : List Char :=
  let n := p.value
  if p = .char quote ∨ p = .char '\\' then ['\\', Char.ofNat n]
  else if p = .char '\n' then ['\\', 'n']
  else if p = .char '\r' then ['\\', 'r']
  else if p = .char '\t' then ['\\', 't']
  else if Printable.isPrintable n then [Char.ofNat n]
  else if n < 0x100 then '\\' :: 'x' :: digitsIn 16 2 n
  else if n < 0x10000 then '\\' :: 'u' :: digitsIn 16 4 n
  else '\\' :: 'U' :: digitsIn 16 8 n

def quoted (t : Text) : String :=
  let quote := if t.contains (.char '\'') && !t.contains (.char '"') then '"' else '\''
  String.ofList (quote :: t.flatMap (quotedPoint quote) ++ [quote])

end Simplex.Text

namespace Simplex.Value

mutual

/-- A value in a message. -/
def shown : Value → String
  | .null => "None"
  | .bool b => if b then "True" else "False"
  | .int n => toString n
  | .float x => floatText x
  | .string t => t.quoted
  | .array items => "[" ++ ", ".intercalate (shownItems items) ++ "]"
  | .object members => "\x7b" ++ ", ".intercalate (shownMembers members) ++ "\x7d"

def shownItems : List Value → List String
  | [] => []
  | v :: vs => v.shown :: shownItems vs

def shownMembers : List (Text × Value) → List String
  | [] => []
  | (k, v) :: rest => (k.quoted ++ ": " ++ v.shown) :: shownMembers rest

end

/-- A value as a text of its own: a text is itself, anything else as it is shown. -/
def asText : Value → Text
  | .string t => t
  | v => Text.ofString v.shown

end Simplex.Value
