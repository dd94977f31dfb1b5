import QueryRules.Query.Basic

/-!
# Queries as trees

- `QueryTree` is a query with every node in place of its number, and `Query.tree` is that view of a
  query.
- `QueryTree.terms` lists the terms depth first.
- `Query.text` writes a query the way one would type it: alternatives in parentheses, nested boolean
  queries in brackets, a plus for what must hold and a minus for what must not.
-/

namespace QueryRules

/-- A node of a query with its number and the nodes below it. -/
inductive QueryTree where
  | boolean (id : Nat) (occur : Occur) (generated : Bool) (clauses : List QueryTree)
  | group (id : Nat) (occur : Occur) (generated : Bool) (disjuncts : List QueryTree)
  | term (id : Nat) (term : Term)
  deriving Inhabited

/-- The tree below the node behind a number. The number of a child is larger than its parent's. -/
def Query.tree? (q : Query) (id : Nat) : Option QueryTree :=
  let below (c : Nat) := if _h : id < c ∧ c < q.entries.length then q.tree? c else none
  match q.node? id with
  | none => none
  | some (.term t) => some (.term id t)
  | some (.boolean o g cs) => some (.boolean id o g (cs.filterMap below))
  | some (.group o g ds) => some (.group id o g (ds.filterMap below))
termination_by q.entries.length - id
decreasing_by omega

/-- The tree of a query. -/
def Query.tree (q : Query) : QueryTree :=
  (q.tree? Query.root).getD (.boolean Query.root .should false [])

namespace QueryTree

/-- How the node takes part in its boolean query. -/
def occur? : QueryTree → Option Occur
  | .boolean _ o .. => some o
  | .group _ o .. => some o
  | .term .. => none

mutual

/-- The terms of a tree with their numbers, depth first. -/
def terms : QueryTree → List (Nat × Term)
  | .boolean _ _ _ cs => termsOf cs
  | .group _ _ _ ds => termsOf ds
  | .term id t => [(id, t)]

/-- The terms of several trees. -/
def termsOf : List QueryTree → List (Nat × Term)
  | [] => []
  | t :: ts => terms t ++ termsOf ts

end

end QueryTree

/-- The live terms of a query with their numbers, depth first. -/
def Query.terms (q : Query) : List (Nat × Term) := q.tree.terms

/-! ## The text of a query -/

/-- The mark in front of a clause. -/
def Occur.mark : Occur → String
  | .should => ""
  | .must => "+"
  | .mustNot => "-"

/-- The text of a term: its fields, its value, and its boost unless that is one. -/
def Term.text (t : Term) : String :=
  let fields :=
    match t.fields.toList with
    | [] => ""
    | [f] => f ++ ":"
    | _ => "\x7b" ++ t.fields.join "," ++ "\x7d:"
  fields ++ t.value ++ (if t.boost.isShown then "^" ++ t.boost.text else "")

namespace QueryTree

mutual

/-- The text of a node below the root. A group of one alternative looks like the alternative. -/
def text : QueryTree → String
  | .boolean _ _ _ cs => "[" ++ " ".intercalate (clauseTexts cs) ++ "]"
  | .group _ _ _ [d] => d.text
  | .group _ _ _ ds => "(" ++ " | ".intercalate (texts ds) ++ ")"
  | .term _ t => t.text

/-- The texts of alternatives. -/
def texts : List QueryTree → List String
  | [] => []
  | t :: ts => t.text :: texts ts

/-- The texts of clauses with their marks. -/
def clauseTexts : List QueryTree → List String
  | [] => []
  | t :: ts => ((t.occur?.map Occur.mark).getD "" ++ t.text) :: clauseTexts ts

end

/-- The text of a whole query: the outermost boolean query has no brackets. -/
def rootText : QueryTree → String
  | .boolean _ _ _ cs => " ".intercalate (clauseTexts cs)
  | t => t.text

end QueryTree

/-- The text of a query. -/
def Query.text (q : Query) : String := q.tree.rootText

end QueryRules
