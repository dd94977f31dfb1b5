import QueryRules.Json.Basic
import QueryRules.Text.Letter
import QueryRules.Text.Reading

/-!
# Reading structured values

Property values are written as JSON, with three liberties: a key may stand without quotes, a string
may stand between single quotes, and a comma may follow the last item.

- `Json.read` reads a whole text as one value, `Json.readObject` as one object. A text that is none
  gives the distance in bytes at which the reading stopped.
- Within an object the later of two members with one key counts.
- In a string a backslash keeps the character after it, except in `\n`, `\r`, `\t` and `\uXXXX`.
-/

namespace QueryRules.Json

open QueryRules.Text

/-- A reading of a text that stops at some place in it. -/
abbrev Scan (α : Type) (cs : List Char) : Type := Reading (List Char) Char α cs

/-- A hexadecimal digit. -/
def isHexDigit (c : Char) : Bool :=
  c.isDigit || ('a' ≤ c && c ≤ 'f') || ('A' ≤ c && c ≤ 'F')

/-- The number that a hexadecimal digit stands for. -/
def hexValue (c : Char) : Nat :=
  if c.isDigit then c.toNat - '0'.toNat else c.toLower.toNat - 'a'.toNat + 10

/-- The character with the code point written in four hexadecimal digits; surrogates are none. -/
def hexChar? (a b c d : Char) : Option Char :=
  let n := ((hexValue a * 16 + hexValue b) * 16 + hexValue c) * 16 + hexValue d
  if n.isValidChar then some (Char.ofNat n) else none

/-- The rest of a string up to the closing quote. -/
def scanString (quote : Char) : (cs : List Char) → Scan (List Char) cs
  | [] => .error []
  | c :: cs =>
    if c = quote then .ok ([], ⟨cs, by simp⟩)
    else if c = '\\' then
      match cs with
      | [] => .error []
      | 'u' :: cs =>
        match cs with
        | x :: y :: z :: w :: rest =>
          if [x, y, z, w].all isHexDigit then
            match hexChar? x y z w with
            | some e => ((scanString quote rest).map (e :: ·)).weaken (by simp; omega)
            | none => .error rest
          else .error (x :: y :: z :: w :: rest)
        | cs => .error cs
      | 'n' :: cs => ((scanString quote cs).map ('\n' :: ·)).past.past
      | 'r' :: cs => ((scanString quote cs).map ('\r' :: ·)).past.past
      | 't' :: cs => ((scanString quote cs).map ('\t' :: ·)).past.past
      | e :: cs => ((scanString quote cs).map (e :: ·)).past.past
    else ((scanString quote cs).map (c :: ·)).past

/-- A character of a key without quotes. -/
def isKeyChar (c : Char) : Bool := isAlphanumeric c || c == '_' || c == '-' || c == '.' || c == '$'

/-- A character of a number. -/
def isNumberChar (c : Char) : Bool :=
  c.isDigit || c == '-' || c == '+' || c == '.' || c == 'e' || c == 'E'

/-- The longest start of a text whose characters satisfy `p`, if it is not empty. -/
def scanRun (p : Char → Bool) : (cs : List Char) → Scan (List Char) cs
  | [] => .error []
  | c :: cs =>
    if p c then
      .ok (c :: cs.takeWhile p,
        ⟨cs.dropWhile p, by simpa [Nat.lt_succ_iff] using length_dropWhile_le p cs⟩)
    else .error (c :: cs)

/-- A key: a string, or a run of letters, digits and `_ - . $`. -/
def scanKey : (cs : List Char) → Scan (List Char) cs
  | [] => .error []
  | c :: cs =>
    if c = '"' ∨ c = '\'' then (scanString c cs).past else scanRun isKeyChar (c :: cs)

/-- A whole number of 64 bits. -/
def isInt64 (n : Int) : Bool := -0x8000000000000000 ≤ n && n < 0x8000000000000000

/-- The number that a run of number characters stands for: a whole number of 64 bits, else a finite
floating-point number. -/
def number? (cs : List Char) : Option Json :=
  match readInteger? cs with
  | some n => if isInt64 n then some (.int n) else float? cs
  | none => float? cs
where
  /-- A finite floating-point number. -/
  float? (cs : List Char) : Option Json :=
    ((Binary.read? .double cs).filter Binary.isFinite).map .float

/-- A number; if the run of number characters is none, the reading stops after it. -/
def scanNumber (cs : List Char) : Scan Json cs := do
  let (run, rest) ← scanRun isNumberChar cs
  match number? run with
  | some v => .ok (v, rest)
  | none => .error rest

/-- A fixed word. -/
def scanWord (word : List Char) (h : 0 < word.length) (value : Json) (cs : List Char) :
    Scan Json cs :=
  if hw : word.isPrefixOf cs then
    .ok (value, ⟨cs.drop word.length, by
      have := (List.isPrefixOf_iff_prefix.1 hw).length_le
      simp only [List.length_drop]; omega⟩)
  else .error cs

/-- One of two characters; the result says whether it is the first one. -/
def scanEither (a b : Char) : (cs : List Char) → Scan Bool cs
  | [] => .error []
  | c :: cs =>
    if c = a then .ok (true, ⟨cs, by simp⟩)
    else if c = b then .ok (false, ⟨cs, by simp⟩)
    else .error (c :: cs)

mutual

/-- A value at the start of a text. -/
def scan (cs : List Char) : Scan Json cs :=
  match cs with
  | '{' :: cs => ((scanMembers (skip cs)).map fun ms => .object (Dictionary.ofList ms)).weaken
      (by have := length_skip_le cs; simp; omega)
  | '[' :: cs => ((scanItems (skip cs)).map .array).weaken
      (by have := length_skip_le cs; simp; omega)
  | '"' :: cs => ((scanString '"' cs).map fun s => .string (String.ofList s)).past
  | '\'' :: cs => ((scanString '\'' cs).map fun s => .string (String.ofList s)).past
  | 't' :: cs => scanWord ['t', 'r', 'u', 'e'] (by decide) (.bool true) ('t' :: cs)
  | 'f' :: cs => scanWord ['f', 'a', 'l', 's', 'e'] (by decide) (.bool false) ('f' :: cs)
  | 'n' :: cs => scanWord ['n', 'u', 'l', 'l'] (by decide) .null ('n' :: cs)
  | cs => scanNumber cs
termination_by 2 * cs.length
decreasing_by
  all_goals
    have := length_skip_le cs
    simp only [List.length_cons]
    omega

/-- The members of an object up to its closing brace. -/
def scanMembers (cs : List Char) : Scan (List (String × Json)) cs :=
  match cs with
  | '}' :: cs => .ok ([], ⟨cs, by simp⟩)
  | cs => do
    let (key, ⟨cs₁, h₁⟩) ← scanKey cs
    let (_, ⟨cs₂, h₂⟩) ← scanEither ':' ':' (skip cs₁)
    let (value, ⟨cs₃, h₃⟩) ← scan (skip cs₂)
    let (more, ⟨cs₄, h₄⟩) ← scanEither ',' '}' (skip cs₃)
    have := length_skip_le cs₁
    have := length_skip_le cs₂
    have := length_skip_le cs₃
    have := length_skip_le cs₄
    if more then
      let (members, ⟨cs₅, h₅⟩) ← scanMembers (skip cs₄)
      .ok ((String.ofList key, value) :: members, ⟨cs₅, by omega⟩)
    else .ok ([(String.ofList key, value)], ⟨cs₄, by omega⟩)
termination_by 2 * cs.length + 1
decreasing_by
  all_goals
    have := length_skip_le cs₁
    have := length_skip_le cs₂
    omega

/-- The items of an array up to its closing bracket. -/
def scanItems (cs : List Char) : Scan (List Json) cs :=
  match cs with
  | ']' :: cs => .ok ([], ⟨cs, by simp⟩)
  | cs => do
    let (value, ⟨cs₁, h₁⟩) ← scan cs
    let (more, ⟨cs₂, h₂⟩) ← scanEither ',' ']' (skip cs₁)
    have := length_skip_le cs₁
    have := length_skip_le cs₂
    if more then
      let (items, ⟨cs₃, h₃⟩) ← scanItems (skip cs₂)
      .ok (value :: items, ⟨cs₃, by omega⟩)
    else .ok ([value], ⟨cs₂, by omega⟩)
termination_by 2 * cs.length + 1
decreasing_by all_goals omega

end

/-- The one value that a text holds between layout, or the offset in bytes where the reading
stopped. -/
def read (cs : List Char) : Except Nat Json :=
  match scan (skip cs) with
  | .error rest => .error (offset cs rest)
  | .ok (v, ⟨rest, _⟩) =>
    match skip rest with
    | [] => .ok v
    | rest => .error (offset cs rest)

/-- The members of the object that a text holds after its opening brace, or the offset in bytes,
counted from that brace, where the reading stopped. -/
def readBraced (cs : List Char) : Except Nat (Dictionary Json) :=
  match read ('{' :: cs) with
  | .ok (.object members) => .ok members
  | .ok _ => .ok []
  | .error n => .error n

end QueryRules.Json
