import QueryRules.Binary.Basic

/-!
# Reading decimal numbers

- `readInteger?` reads a signed whole number.
- `Decimal.read?` reads digits with an optional point and an optional exponent, and
  `Decimal.toBinary` is the value of a format nearest to the number.
- `Binary.read?` also reads the words `inf`, `infinity` and `nan` in any case.
-/

namespace QueryRules

/-- The number that decimal digits stand for. -/
def digitsValue (cs : List Char) : Nat := cs.foldl (fun n c => 10 * n + (c.toNat - '0'.toNat)) 0

/-- A text taken apart into its sign, plus if none is written, and the rest. -/
def splitSign : List Char → Bool × List Char
  | '+' :: cs => (false, cs)
  | '-' :: cs => (true, cs)
  | cs => (false, cs)

/-- The number written with at least one digit and nothing else. -/
def readDigits? (cs : List Char) : Option Nat :=
  if cs.isEmpty || !cs.all Char.isDigit then none else some (digitsValue cs)

/-- The whole number written with an optional sign and digits. -/
def readInteger? (cs : List Char) : Option Int :=
  let (negative, cs) := splitSign cs
  (readDigits? cs).map fun n => if negative then -(n : Int) else n

/-- The number `± digits * 10 ^ exponent`. -/
structure Decimal where
  negative : Bool
  digits : Nat
  exponent : Int
  deriving DecidableEq, Repr

namespace Decimal

/-- The exponent that stands at the end of a number; nothing means zero. -/
def readExponent? : List Char → Option Int
  | [] => some 0
  | c :: cs => if c = 'e' ∨ c = 'E' then readInteger? cs else none

/-- A number without a sign: digits on at least one side of an optional point, then an optional
exponent. -/
def readUnsigned? (negative : Bool) (cs : List Char) : Option Decimal :=
  let whole := cs.takeWhile Char.isDigit
  let (fraction, rest) :=
    match cs.dropWhile Char.isDigit with
    | '.' :: rest => (rest.takeWhile Char.isDigit, rest.dropWhile Char.isDigit)
    | rest => ([], rest)
  if whole.isEmpty && fraction.isEmpty then none
  else (readExponent? rest).map fun e =>
    ⟨negative, digitsValue (whole ++ fraction), e - fraction.length⟩

/-- A decimal number with an optional sign. -/
def read? (cs : List Char) : Option Decimal :=
  let (negative, cs) := splitSign cs
  readUnsigned? negative cs

/-- The value of a format nearest to a decimal number. A number of at least `10 ^ limit` is infinite
and one below `10 ^ -(scale + 1)` is zero in the format, so that neither has to be written out. -/
def toBinary (f : Format) (d : Decimal) : Binary f :=
  let places := (Nat.toDigits 10 d.digits).length
  if d.digits = 0 then .finite d.negative 0
  else if d.exponent + places > f.limit + 1 then .infinite d.negative
  else if d.exponent + places < -(f.scale + 1 : Int) then .finite d.negative 0
  else if 0 ≤ d.exponent then
    .nearest d.negative (d.digits * Nat.pow 10 d.exponent.toNat * Nat.pow 2 f.scale) 1
  else .nearest d.negative (d.digits * Nat.pow 2 f.scale) (Nat.pow 10 (-d.exponent).toNat)

end Decimal

/-- The value of a format that a text stands for: a decimal number or, in any case of its letters,
`inf`, `infinity` or `nan`, each with an optional sign. -/
def Binary.read? (f : Format) (cs : List Char) : Option (Binary f) :=
  let (negative, rest) := splitSign cs
  let word := String.ofList (rest.map Char.toLower)
  if word = "inf" ∨ word = "infinity" then some (.infinite negative)
  else if word = "nan" then some .nan
  else (Decimal.readUnsigned? negative rest).map (·.toBinary f)

end QueryRules
