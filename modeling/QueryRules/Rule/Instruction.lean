import QueryRules.Rule.Literal
import QueryRules.Weight

/-!
# Instructions of rules

- `Instruction` is what a rule does to a request: it adds synonyms, boosts or filters, deletes terms
  or attaches decorations.
- `InstructionKind` is the kind of an instruction; `InstructionKind.name` is how rules text writes
  it, `InstructionKind.ofName?` reads that in any case of ASCII letters.
-/

namespace QueryRules

/-- The kinds of instruction. -/
inductive InstructionKind where
  | synonym
  | up
  | down
  | filter
  | delete
  | decorate
  | replace
  deriving DecidableEq, Repr

namespace InstructionKind

/-- Every kind of instruction, in the order of their documentation. -/
def all : List InstructionKind := [synonym, up, down, filter, delete, decorate, replace]

/-- The name that rules text uses. -/
def name : InstructionKind → String
  | synonym => "SYNONYM"
  | up => "UP"
  | down => "DOWN"
  | filter => "FILTER"
  | delete => "DELETE"
  | decorate => "DECORATE"
  | replace => "REPLACE"

/-- The kind with a name, in any case of its ASCII letters. -/
def ofName? (name : List Char) : Option InstructionKind :=
  all.find? fun t => t.name.toList.map Char.toLower == name.map Char.toLower

theorem ofName?_name (t : InstructionKind) : ofName? t.name.toList = some t := by
  cases t <;> decide +kernel

end InstructionKind

/-- Whether a boost raises or lowers the score. -/
inductive Direction where
  | up
  | down
  deriving DecidableEq, Repr

/-- The query of a boost or filter. A raw one goes to the search backend as it is, a parsed one
becomes a query of its own. -/
inductive QueryText where
  | raw (text : String)
  | parsed (text : String)
  deriving DecidableEq, Repr

/-- One step that a rule takes. -/
inductive Instruction where
  | synonym (terms : List Literal) (weight : Weight)
  | boost (direction : Direction) (query : QueryText) (weight : Weight)
  | filter (query : QueryText)
  /-- Deletes the matched terms that meet one of the literals; without a list, all of them. -/
  | delete (terms : Option (List Literal))
  | decorate (value : String) (key : Option String)
  /-- Has no effect on a request. -/
  | replace (value : Option String)
  deriving DecidableEq, Repr

namespace Instruction

/-- The kind of an instruction. -/
def kind : Instruction → InstructionKind
  | synonym .. => .synonym
  | boost .up .. => .up
  | boost .down .. => .down
  | filter _ => .filter
  | delete _ => .delete
  | decorate .. => .decorate
  | replace _ => .replace

/-- The instruction with the literals of its term list changed. -/
def mapLiterals (f : Literal → Literal) : Instruction → Instruction
  | synonym terms weight => .synonym (terms.map f) weight
  | delete terms => .delete (terms.map (·.map f))
  | i => i

/-- The query of a boost or filter. -/
def query? : Instruction → Option QueryText
  | boost _ q _ => some q
  | filter q => some q
  | _ => none

end Instruction

end QueryRules
