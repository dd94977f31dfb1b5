import QueryRules.Binary.Decimal
import QueryRules.Binary.Shortest

/-!
# Weights

A weight multiplies the score of a term or of a boost query; it is a floating-point value of 32
bits.

- `Weight.read?` reads any number, `Weight.readParam?` the ones a rule may carry: finite and not
  below zero.
- `Weight.text` writes the fewest digits that read back, always without an exponent.
- `Weight.isShown` holds for a weight that differs from one.
-/

namespace QueryRules

/-- A weight. -/
abbrev Weight := Binary .single

namespace Weight

/-- Weights are written without an exponent and without a point after whole numbers; of two equally
near numbers the larger is written. -/
def style : DecimalStyle := ⟨fun _ => true, "", .up⟩

/-- The weight that changes nothing. -/
def one : Weight := Binary.one

/-- The weight nearest to a written number. -/
def read? (cs : List Char) : Option Weight := Binary.read? .single cs

/-- A written weight that is finite and not below zero. -/
def readParam? (cs : List Char) : Option Weight :=
  (read? cs).filter fun w => w.isFinite && w.isNonNegative

/-- The shortest text of a weight. -/
def text (w : Weight) : String := Binary.text style w

/-- A weight is written after a term if it differs from one by more than the distance from one to
the next larger weight. -/
def isShown (w : Weight) : Bool := w.isFarFromOne

end Weight

end QueryRules
