import QueryRules.Binary.Decimal
import QueryRules.Binary.Shortest
import QueryRules.Dictionary

/-!
# Structured values

- `Json` is a value of rule properties: JSON with whole numbers and 64-bit floating-point numbers
  apart. A floating-point zero keeps its sign.
- `Json.write` is its compact text: no blanks, members in ascending order of their keys, control
  characters escaped.
- `Json.text` shows a value to a reader: a string as it is, anything else as its compact text.
-/

namespace QueryRules

/-- A structured value. The members of an object stand in ascending order of their keys. -/
inductive Json where
  | null
  | bool (b : Bool)
  | int (n : Int)
  | float (x : Binary .double)
  | string (s : String)
  | array (items : List Json)
  | object (members : List (String × Json))
  deriving Inhabited

namespace Json

/-- Floating-point numbers are positional with at least one decimal from `1e-5` up to below `1e16`,
else scientific; of two equally near numbers the one with the even last digit is written. -/
def floatStyle : DecimalStyle := ⟨fun point => -5 < point ∧ point ≤ 16, ".0", .even⟩

/-- A character of a string between quotes: the quote, the backslash and the control characters
are escaped. -/
def writeChar (c : Char) : List Char :=
  if c = '"' then ['\\', '"']
  else if c = '\\' then ['\\', '\\']
  else if c = '\n' then ['\\', 'n']
  else if c = '\r' then ['\\', 'r']
  else if c = '\t' then ['\\', 't']
  else if c = '\x08' then ['\\', 'b']
  else if c = '\x0c' then ['\\', 'f']
  else if c.toNat < 0x20 then
    ['\\', 'u', '0', '0', Nat.digitChar (c.toNat / 16), Nat.digitChar (c.toNat % 16)]
  else [c]

/-- A string between quotes. -/
def writeString (s : String) : List Char := '"' :: (s.toList.flatMap writeChar ++ ['"'])

mutual

/-- The compact text of a value. -/
def write : Json → List Char
  | .null => ['n', 'u', 'l', 'l']
  | .bool true => ['t', 'r', 'u', 'e']
  | .bool false => ['f', 'a', 'l', 's', 'e']
  | .int n => (toString n).toList
  | .float x => (x.text floatStyle).toList
  | .string s => writeString s
  | .array items => '[' :: (writeItems items ++ [']'])
  | .object members => '{' :: (writeMembers members ++ ['}'])

/-- Values with commas between them. -/
def writeItems : List Json → List Char
  | [] => []
  | [v] => write v
  | v :: w :: vs => write v ++ ',' :: writeItems (w :: vs)

/-- Members with commas between them. -/
def writeMembers : List (String × Json) → List Char
  | [] => []
  | [(k, v)] => writeString k ++ ':' :: write v
  | (k, v) :: m :: ms => writeString k ++ ':' :: (write v ++ ',' :: writeMembers (m :: ms))

end

/-- The compact text of a value. -/
def compact (v : Json) : String := String.ofList v.write

/-- A string as it is, any other value as its compact text. -/
def text : Json → String
  | .string s => s
  | v => v.compact

end Json

end QueryRules
