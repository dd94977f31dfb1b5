import QueryRules.Rule.Formula
import QueryRules.Rule.Literal

/-!
# Triggers of rules

- `Condition` is a formula over literals.
- `Trigger` is what a rule waits for: a phrase of consecutive literals, or a condition on the whole
  query.
-/

namespace QueryRules

/-- A condition on the terms of a query. -/
abbrev Condition := Formula Literal

/-- What a rule waits for. A condition keeps the text it was written as. -/
inductive Trigger where
  | phrase (literals : List Literal)
  | condition (condition : Condition) (source : String)
  deriving Inhabited

/-- The text of a condition; fields are left out. -/
def Condition.text (c : Condition) : String := Formula.text Literal.valueText c

namespace Trigger

/-- The literals of a trigger from left to right. -/
def literals : Trigger → List Literal
  | .phrase ls => ls
  | .condition c _ => c.literals

/-- The trigger is a condition on the whole query. -/
def isCondition : Trigger → Bool
  | .phrase _ => false
  | .condition .. => true

/-- The trigger with every literal changed. -/
def mapLiterals (g : Literal → Literal) : Trigger → Trigger
  | .phrase ls => .phrase (ls.map g)
  | .condition c source => .condition (c.map g) source

/-- The text of a trigger. -/
def text : Trigger → String
  | .phrase ls => " ".intercalate (ls.map Literal.valueText)
  | .condition c _ => Condition.text c

end Trigger

end QueryRules
