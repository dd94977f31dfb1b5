import QueryRules.Binary.Basic

/-!
# The shortest decimal text of a binary value

- `Binary.shortest` finds the shortest decimal number among those that round to a value, and of
  those with the fewest digits the one nearest to it.
- `DecimalStyle` says how such digits are laid out, and `Binary.text` writes a value in a style.
-/

namespace QueryRules

/-- Which of two equally near decimal numbers is taken. -/
inductive Tie where
  | up
  | even
  deriving DecidableEq, Repr

/-- The decimals that round to a value: between `low` and `high` in quarters of a unit, the ends
included if `closed`. -/
structure RoundingRange where
  value : Nat
  low : Nat
  high : Nat
  closed : Bool
  deriving Repr

/-- The decimals that round to `units`. The value below a power of two is only half as far away as
the value above. -/
def Format.roundingRange (f : Format) (units : Nat) : RoundingRange :=
  let step := f.step units
  let below := if 1 < step ∧ units = Nat.pow 2 units.log2 then step else 2 * step
  { value := 4 * units, low := 4 * units - below, high := 4 * units + 2 * step
    closed := units / step % 2 == 0 }

/-- The multiple of `10 ^ k` next to the value that lies in its range, if there is one; of two the
nearer one. The result counts the multiples. -/
def RoundingRange.onGrid? (f : Format) (tie : Tie) (r : RoundingRange) (k : Int) : Option Nat :=
  let up := Nat.pow 10 (-k).toNat
  let den := 4 * Nat.pow 2 f.scale * Nat.pow 10 k.toNat
  let n := r.value * up / den
  let inLow := if r.closed then r.low * up ≤ n * den else r.low * up < n * den
  let inHigh := if r.closed then (n + 1) * den ≤ r.high * up else (n + 1) * den < r.high * up
  let down := r.value * up - n * den
  if inLow ∧ inHigh then
    if 2 * down < den then some n
    else if den < 2 * down then some (n + 1)
    else match tie with
      | .up => some (n + 1)
      | .even => some (n + n % 2)
  else if inLow then some n
  else if inHigh then some (n + 1)
  else none

/-- The first of the grids `10 ^ k`, `10 ^ (k - 1)`, … with a point in the range, and that point. -/
def RoundingRange.search (f : Format) (tie : Tie) (r : RoundingRange) : Nat → Int → Nat × Int
  | 0, k => (0, k)
  | fuel + 1, k =>
    match r.onGrid? f tie k with
    | some n => (n, k)
    | none => search f tie r fuel (k - 1)

/-- A decimal number without the zeros at its end. -/
def dropZeros : Nat → Nat → Int → Nat × Int
  | 0, n, k => (n, k)
  | fuel + 1, n, k => if n % 10 = 0 ∧ n ≠ 0 then dropZeros fuel (n / 10) (k + 1) else (n, k)

/-- The exponent of the first digit of a positive count of units. -/
def Format.leadingExponent (f : Format) (units : Nat) : Int :=
  let s := f.scale / 3 + 1
  (Nat.toDigits 10 (units * Nat.pow 10 s / Nat.pow 2 f.scale)).length - 1 - (s : Int)

/-- The shortest decimal `n * 10 ^ k` that rounds to the value. -/
def Binary.shortest (f : Format) (tie : Tie) (units : Nat) : Nat × Int :=
  if units = 0 then (0, 0)
  else
    let (n, k) := (f.roundingRange units).search f tie f.precision (f.leadingExponent units)
    dropZeros f.precision n k

/-- How a decimal number is laid out: for which positions of the point no exponent is written, what
follows a whole number, and which of two equally near numbers is taken. -/
structure DecimalStyle where
  isPositional : Int → Bool
  wholeEnd : String
  tie : Tie

/-- The text of `n * 10 ^ k`. -/
def DecimalStyle.layout (style : DecimalStyle) (n : Nat) (k : Int) : String :=
  let digits := Nat.toDigits 10 n
  let point := digits.length + k
  let zeros (m : Int) : List Char := List.replicate m.toNat '0'
  if style.isPositional point then
    if 0 ≤ k then String.ofList (digits ++ zeros k) ++ style.wholeEnd
    else if 0 < point then
      String.ofList (digits.take point.toNat ++ '.' :: digits.drop point.toNat)
    else String.ofList ('0' :: '.' :: zeros (-point) ++ digits)
  else
    let e := point - 1
    let mantissa := match digits with
      | d :: d' :: ds => d :: '.' :: d' :: ds
      | ds => ds
    String.ofList mantissa ++
      (if 0 ≤ e then "e+" ++ toString e.toNat else "e-" ++ toString (-e).toNat)

/-- The text of a value. -/
def Binary.text {f : Format} (style : DecimalStyle) : Binary f → String
  | .nan => "NaN"
  | .infinite negative => (if negative then "-" else "") ++ "inf"
  | .finite negative units =>
    let (n, k) := Binary.shortest f style.tie units
    (if negative then "-" else "") ++ style.layout n k

end QueryRules
