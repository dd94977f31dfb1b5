/-!
# Binary floating-point values

- `Format` is a binary format: how many significant bits a value keeps, how small its unit is and
  where it ends. `Format.single` and `Format.double` are the formats of 32 and 64 bits.
- `Binary f` is a value of the format `f`. A finite value is a sign and a count of units, so equal
  numbers are equal values, but for the two zeros: they are one number and differ in their sign.
- `Binary.nearest` rounds a fraction of units to the nearest value, a half to the even one.
-/

namespace QueryRules

/-- A binary format. Its finite values are the multiples `n * 2 ^ -scale` below
`2 ^ (limit - scale)` in which at most the first `precision` bits of `n` differ from zero. -/
structure Format where
  precision : Nat
  scale : Nat
  limit : Nat
  deriving DecidableEq, Repr

/-- The format of 32 bits. -/
def Format.single : Format := ⟨24, 149, 277⟩

/-- The format of 64 bits. -/
def Format.double : Format := ⟨53, 1074, 2098⟩

/-- The distance, in units, between `n` units and the next larger value. -/
def Format.step (f : Format) (n : Nat) : Nat :=
  if n < Nat.pow 2 f.precision then 1 else Nat.pow 2 (n.log2 + 1 - f.precision)

/-- A value of a binary format; `units` counts the smallest positive value `2 ^ -scale`. -/
inductive Binary (f : Format) where
  | nan
  | infinite (negative : Bool)
  | finite (negative : Bool) (units : Nat)
  deriving DecidableEq, Repr

namespace Binary

variable {f : Format}

/-- The quotient of two numbers rounded to the nearest number, a half to the even one. -/
def divNearest (n d : Nat) : Nat :=
  let q := n / d
  let r := n % d
  if 2 * r < d then q else if d < 2 * r then q + 1 else q + q % 2

/-- The value nearest to `n / d` units, a half to the one with an even last bit; a value that does
not fit is infinite. -/
def nearest (negative : Bool) (n d : Nat) : Binary f :=
  let step := f.step (n / d)
  let units := divNearest n (d * step) * step
  if units < Nat.pow 2 f.limit then .finite negative units else .infinite negative

/-- The value one. -/
def one : Binary f := .finite false (Nat.pow 2 f.scale)

instance : Inhabited (Binary f) := ⟨one⟩

/-- A finite value that is not below zero; minus zero is none below zero. -/
def isNonNegative : Binary f → Bool
  | .finite negative units => !negative || units == 0
  | _ => false

/-- A finite value. -/
def isFinite : Binary f → Bool
  | .finite .. => true
  | _ => false

/-- The value differs from one by more than `2 ^ (1 - precision)`, the distance from one to the next
larger value; of a value that is no number this never holds. -/
def isFarFromOne : Binary f → Bool
  | .nan => false
  | .infinite _ => true
  | .finite negative units =>
    let one := Nat.pow 2 f.scale
    let distance :=
      if negative then one + units else if units < one then one - units else units - one
    Nat.pow 2 (f.scale + 1 - f.precision) < distance

end Binary

end QueryRules
