import QueryRules.Dictionary
import QueryRules.Query.Basic
import QueryRules.Rule.Instruction

/-!
# Requests

- `Request` is the query of a user with the boosts and filters that rules have attached to it.
- `Decorations` collects what rules attach to the answer; `Decorations.add` takes one decoration.
-/

namespace QueryRules

/-- A query attached to a request. -/
inductive AttachedQuery where
  | raw (text : String)
  | query (q : Query)
  deriving DecidableEq, Repr

/-- A query that raises or lowers scores by a weight. -/
structure Boost where
  query : AttachedQuery
  weight : Weight
  deriving DecidableEq, Repr

/-- The query of a user with its boosts and filters. -/
structure Request where
  query : Query
  ups : List Boost := []
  downs : List Boost := []
  filters : List AttachedQuery := []
  deriving DecidableEq, Repr

namespace Request

/-- The request with one more boost. -/
def addBoost (r : Request) (direction : Direction) (b : Boost) : Request :=
  match direction with
  | .up => { r with ups := r.ups ++ [b] }
  | .down => { r with downs := r.downs ++ [b] }

/-- The request with one more filter. -/
def addFilter (r : Request) (q : AttachedQuery) : Request := { r with filters := r.filters ++ [q] }

end Request

/-- A text for the answer, with or without a key. -/
inductive Decoration where
  | unnamed (value : String)
  | named (key value : String)
  deriving DecidableEq, Repr

/-- Decorations without a key in order, and those with a key grouped by it. -/
structure Decorations where
  unnamed : List String := []
  named : Dictionary (List String) := []
  deriving DecidableEq, Repr

namespace Decorations

/-- There are no decorations. -/
def isEmpty (d : Decorations) : Bool := d.unnamed.isEmpty && d.named.isEmpty

/-- One more decoration. -/
def add (d : Decorations) : Decoration → Decorations
  | .unnamed value => { d with unnamed := d.unnamed ++ [value] }
  | .named key value =>
    let values := (Dictionary.find? d.named key).getD []
    { d with named := Dictionary.insert key (values ++ [value]) d.named }

end Decorations

end QueryRules
