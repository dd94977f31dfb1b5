import QueryRules.FieldSet
import QueryRules.Text.Blank

/-!
# Literals

- `Literal` is a condition on query terms: one or more words, an optional restriction to fields, and
  a mark that the last word only has to start the term.
- `Literal.matchesValue` and `Literal.allowsFields` decide the condition for one term;
  `allowsFields_iff` says when fields are accepted.
-/

namespace QueryRules

/-- A condition on query terms. A value of several words, separated by single spaces, asks for
several consecutive terms. -/
structure Literal where
  value : String
  fields : FieldSet := ∅
  isPrefix : Bool := false
  deriving DecidableEq, Repr, Inhabited

namespace Literal

/-- The same value in the same fields; the prefix mark does not count. -/
def agrees (l k : Literal) : Bool := l.value == k.value && l.fields == k.fields

/-- A term with these fields meets the restriction: there is none or they have a field in common. -/
def allowsFields (l : Literal) (fields : FieldSet) : Bool :=
  l.fields.isEmpty || l.fields.meets fields

/-- A normalized term has the value of the literal or, for a prefix, starts with it and goes on. -/
def matchesValue (l : Literal) (value : String) : Bool :=
  if l.isPrefix then
    l.value.toList.isPrefixOf value.toList && l.value.toList.length < value.toList.length
  else value == l.value

/-- The words that the literal asks for. -/
def words (l : Literal) : List (List Char) := Text.pieces (· == ' ') l.value.toList

/-- The star behind a prefix. -/
def star (l : Literal) : String := if l.isPrefix then "*" else ""

/-- The text of a literal with its fields. -/
def text (l : Literal) : String :=
  "fields=[" ++ l.fields.join "," ++ "] value=" ++ l.value ++ l.star

/-- The text of a literal without its fields. -/
def valueText (l : Literal) : String := l.value ++ l.star

theorem allowsFields_iff {l : Literal} {fields : FieldSet} :
    l.allowsFields fields ↔ (∀ n, n ∉ l.fields) ∨ ∃ n, n ∈ l.fields ∧ n ∈ fields := by
  simp [allowsFields, FieldSet.isEmpty_iff, FieldSet.meets_iff]

end Literal

end QueryRules
