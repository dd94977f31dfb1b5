import QueryRules.Query.Tree

/-!
# Sequences of term positions

Rules are matched against sequences of positions, each with the alternative terms that may stand
there.

- `Query.sequences` gives one sequence for each boolean query that no rule has made, an outer one
  before those inside it. A group is one position with those of its terms that no rule has made.
- `Sequence.span` lists the alternatives of some positions, `Sequence.span?` refuses positions
  outside the sequence.
-/

namespace QueryRules

/-- A term of a query as it was when its sequence was taken. -/
structure Candidate where
  id : Nat
  value : String
  fields : FieldSet := ∅
  deriving DecidableEq, Repr

/-- Positions with the alternative terms of each. -/
structure Sequence where
  positions : List (List Candidate)
  deriving DecidableEq, Repr, Inhabited

namespace Sequence

/-- The sequence of single words, numbered in order. -/
def ofValues (values : List String) : Sequence :=
  ⟨values.zipIdx.map fun (v, i) => [{ id := i, value := v }]⟩

/-- The number of positions. -/
def size (s : Sequence) : Nat := s.positions.length

/-- The sequence has no positions. -/
def isEmpty (s : Sequence) : Bool := s.positions.isEmpty

/-- The alternatives of the positions from `start` up to before `stop`. -/
def span (s : Sequence) (start stop : Nat) : List Candidate :=
  ((s.positions.take stop).drop start).flatten

/-- The alternatives of the positions from `start` up to before `stop`, if these are positions of
the sequence. -/
def span? (s : Sequence) (start stop : Nat) : Option (List Candidate) :=
  if start ≤ stop ∧ stop ≤ s.size then some (s.span start stop) else none

end Sequence

namespace QueryTree

/-- The term of a node, unless a rule has made it. -/
def givenTerm? : QueryTree → Option Candidate
  | .term id t => if t.generated then none else some { id, value := t.value, fields := t.fields }
  | _ => none

/-- The position that a clause stands for; only groups do. -/
def position? : QueryTree → Option (List Candidate)
  | .group _ _ _ ds => some (ds.filterMap givenTerm?)
  | _ => none

/-- A boolean query that a rule has made. -/
def isGeneratedBoolean : QueryTree → Bool
  | .boolean _ _ g _ => g
  | _ => false

mutual

/-- The sequences of a node: that of a boolean query, then those of the queries inside it. -/
def sequences : QueryTree → List Sequence
  | .boolean _ _ _ cs => ⟨cs.filterMap position?⟩ :: sequencesOf cs
  | .group _ _ _ ds => sequencesOf ds
  | .term .. => []

/-- The sequences of several nodes, without the boolean queries that rules have made. -/
def sequencesOf : List QueryTree → List Sequence
  | [] => []
  | t :: ts => (if t.isGeneratedBoolean then [] else sequences t) ++ sequencesOf ts

end

end QueryTree

/-- The sequences of a query. -/
def Query.sequences (q : Query) : List Sequence := q.tree.sequences

end QueryRules
