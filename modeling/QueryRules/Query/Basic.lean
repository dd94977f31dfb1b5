import QueryRules.FieldSet
import QueryRules.Weight

/-!
# Queries

A query is a tree of boolean queries, groups of alternatives and terms. Its nodes are numbered in
the order in which they were added, and a number is never used again, so that whoever holds the
number of a removed node finds nothing behind it.

- `Query.addChild` adds a node where one of its kind may stand, `Query.attach` is the same without
  the checks.
- `Query.eraseTerm?` removes a term together with the groups and boolean queries that it leaves
  empty.
- `Query.requireAll` and `Query.asGenerated` change the flags of nodes.
- `Query.lookup?` is the view in which the operations are described: `lookup?_attach`,
  `lookup?_erase` and `lookup?_modify` say what stands behind each number afterwards.
-/

namespace QueryRules

/-- How a clause takes part in its boolean query. -/
inductive Occur where
  | should
  | must
  | mustNot
  deriving DecidableEq, Repr, Inhabited

/-- A word that the query asks for. Without fields it may stand in any field. -/
structure Term where
  value : String
  fields : FieldSet := ∅
  generated : Bool := false
  boost : Weight := .one
  deriving DecidableEq, Repr

/-- A node with the numbers of its children. A boolean query holds clauses, a group of alternatives
holds disjuncts and stands at one position of its boolean query. -/
inductive Node where
  | boolean (occur : Occur) (generated : Bool) (clauses : List Nat)
  | group (occur : Occur) (generated : Bool) (disjuncts : List Nat)
  | term (term : Term)
  deriving DecidableEq, Repr

namespace Node

/-- The children of a node; a term has none. -/
def children : Node → List Nat
  | .boolean _ _ cs => cs
  | .group _ _ ds => ds
  | .term _ => []

/-- The node with other children; a term stays as it is. -/
def withChildren (ids : List Nat) : Node → Node
  | .boolean o g _ => .boolean o g ids
  | .group o g _ => .group o g ids
  | .term t => .term t

/-- The kinds of node that may stand under each other: boolean queries and groups in a boolean
query, terms and boolean queries in a group. -/
def admits : Node → Node → Bool
  | .boolean .., .boolean .. => true
  | .boolean .., .group .. => true
  | .group .., .term _ => true
  | .group .., .boolean .. => true
  | _, _ => false

/-- How the node takes part in its boolean query. -/
def occur? : Node → Option Occur
  | .boolean o .. => some o
  | .group o .. => some o
  | .term _ => none

/-- The node was made by a rule. -/
def isGenerated : Node → Bool
  | .boolean _ g _ => g
  | .group _ g _ => g
  | .term t => t.generated

/-- The node as one made by a rule. -/
def asGenerated : Node → Node
  | .boolean o _ cs => .boolean o true cs
  | .group o _ ds => .group o true ds
  | .term t => .term { t with generated := true }

/-- The node as a clause that must hold if it was one that should hold. -/
def require : Node → Node
  | .boolean .should g cs => .boolean .must g cs
  | .group .should g ds => .group .must g ds
  | n => n

end Node

/-- A node and the number of its parent. -/
structure Entry where
  parent : Option Nat
  node : Node
  deriving DecidableEq, Repr

/-- A query. The node with number `n` stands at index `n`, or nothing once it is removed. -/
structure Query where
  entries : List (Option Entry)
  deriving DecidableEq, Repr

/-- Why a node cannot be added. -/
inductive AddFault where
  | carriesChildren
  | deadParent
  | wrongKind
  deriving DecidableEq, Repr

namespace Query

/-- The number of the outermost boolean query. -/
def root : Nat := 0

/-- The query without clauses. -/
def empty : Query := ⟨[some ⟨none, .boolean .should false []⟩]⟩

instance : Inhabited Query := ⟨empty⟩

/-- What stands behind a number. -/
def lookup? (q : Query) (id : Nat) : Option Entry := q.entries[id]?.join

/-- The node behind a number. -/
def node? (q : Query) (id : Nat) : Option Node := (q.lookup? id).map (·.node)

/-- The parent of the node behind a number. -/
def parent? (q : Query) (id : Nat) : Option Nat := (q.lookup? id).bind (·.parent)

/-- A node stands behind the number. -/
def isLive (q : Query) (id : Nat) : Bool := (q.lookup? id).isSome

/-- The term behind a number. -/
def term? (q : Query) (id : Nat) : Option Term :=
  match q.node? id with
  | some (.term t) => some t
  | _ => none

/-- The children of the node behind a number; none if there is no node. -/
def children (q : Query) (id : Nat) : List Nat := ((q.node? id).map Node.children).getD []

/-- The outermost boolean query has no clauses. -/
def isEmpty (q : Query) : Bool := (q.children root).isEmpty

/-- The query with the node behind a number changed. -/
def modify (q : Query) (id : Nat) (f : Node → Node) : Query :=
  ⟨q.entries.modify id (Option.map fun s => { s with node := f s.node })⟩

/-- The query with nothing behind a number. -/
def erase (q : Query) (id : Nat) : Query := ⟨q.entries.set id none⟩

/-- The query with a new node as the last child of `parent`, and the number of the new node. -/
def attach (q : Query) (parent : Nat) (node : Node) : Query × Nat :=
  let id := q.entries.length
  let q := q.modify parent fun n => n.withChildren (n.children ++ [id])
  (⟨q.entries ++ [some ⟨some parent, node⟩]⟩, id)

/-- The query with a new childless node as the last child of `parent`, and the number of the new
node. -/
def addChild (q : Query) (parent : Nat) (node : Node) : Except AddFault (Query × Nat) :=
  if node.children ≠ [] then .error .carriesChildren
  else match q.node? parent with
    | none => .error .deadParent
    | some p => if p.admits node then .ok (q.attach parent node) else .error .wrongKind

/-- The query with a new group of alternatives under a boolean query. -/
def addGroup (q : Query) (parent : Nat) (occur : Occur) (generated : Bool) :
    Except AddFault (Query × Nat) := q.addChild parent (.group occur generated [])

/-- The query with a new boolean query under a boolean query or a group. -/
def addNested (q : Query) (parent : Nat) (occur : Occur) (generated : Bool) :
    Except AddFault (Query × Nat) := q.addChild parent (.boolean occur generated [])

/-- The query with a new term in a group. -/
def addTerm (q : Query) (parent : Nat) (t : Term) : Except AddFault (Query × Nat) :=
  q.addChild parent (.term t)

/-- The query with one more group that holds one term. -/
def pushTerm (q : Query) (occur : Occur) (t : Term) : Query :=
  let (q, group) := q.attach root (.group occur false [])
  (q.attach group (.term t)).1

/-- The query of single terms, each in a group of its own. -/
def ofTerms (terms : List (Occur × Term)) : Query :=
  terms.foldl (fun q t => q.pushTerm t.1 t.2) empty

/-- The query in which `child` is no child of `parent`. -/
def detach (q : Query) (parent child : Nat) : Query :=
  q.modify parent fun n => n.withChildren (n.children.filter (· ≠ child))

/-- The query without a childless node and without the ancestors below the root that this leaves
childless. A parent's number is smaller than its child's. -/
def prune (q : Query) (id : Nat) : Query :=
  match q.parent? id with
  | none => q.erase id
  | some p =>
    let q' := (q.erase id).detach p id
    if p = root ∨ q'.children p ≠ [] ∨ id ≤ p then q' else prune q' p
termination_by id
decreasing_by simp_all only [not_or, Nat.not_le]

/-- The query without a term and without the ancestors below the root that this leaves childless, if
there is a term behind the number. -/
def eraseTerm? (q : Query) (id : Nat) : Option Query :=
  if (q.term? id).isSome then some (q.prune id) else none

/-- The query without a term; nothing happens if there is no term behind the number. -/
def eraseTerm (q : Query) (id : Nat) : Query := (q.eraseTerm? id).getD q

/-- The query in which the clauses of the root that should hold must hold. -/
def requireAll (q : Query) : Query :=
  (q.children root).foldl (fun q id => q.modify id Node.require) q

/-- The query in which every node counts as made by a rule. -/
def asGenerated (q : Query) : Query :=
  ⟨q.entries.map (Option.map fun s => { s with node := s.node.asGenerated })⟩

/-! ## The view of a query by its numbers -/

@[simp] theorem lookup?_modify (q : Query) (id i : Nat) (f : Node → Node) :
    (q.modify id f).lookup? i =
      if i = id then (q.lookup? i).map fun s => { s with node := f s.node } else q.lookup? i := by
  simp only [lookup?, modify, List.getElem?_modify]
  by_cases h : id = i
  · subst h
    cases q.entries[id]? <;> simp
  · simp [h, Ne.symm h]

@[simp] theorem length_modify (q : Query) (id : Nat) (f : Node → Node) :
    (q.modify id f).entries.length = q.entries.length := by
  simp [modify]

@[simp] theorem lookup?_erase (q : Query) (id i : Nat) :
    (q.erase id).lookup? i = if i = id then none else q.lookup? i := by
  simp only [lookup?, erase, List.getElem?_set]
  by_cases h : id = i
  · subst h
    by_cases hl : id < q.entries.length <;> simp [hl]
  · simp [h, Ne.symm h]

theorem lookup?_eq_none_of_le (q : Query) {id : Nat} (h : q.entries.length ≤ id) :
    q.lookup? id = none := by
  simp [lookup?, List.getElem?_eq_none h]

theorem lt_length_of_lookup? {q : Query} {id : Nat} {s : Entry} (h : q.lookup? id = some s) :
    id < q.entries.length := by
  rcases Nat.lt_or_ge id q.entries.length with hl | hl
  · exact hl
  · simp [lookup?_eq_none_of_le q hl] at h

@[simp] theorem snd_attach (q : Query) (parent : Nat) (node : Node) :
    (q.attach parent node).2 = q.entries.length := rfl

/-- A new node stands behind the next number, and its parent has it as the last child. -/
theorem lookup?_attach (q : Query) (parent : Nat) (node : Node) (i : Nat) :
    (q.attach parent node).1.lookup? i =
      if i = q.entries.length then some ⟨some parent, node⟩
      else if i = parent then (q.lookup? i).map fun s =>
        { s with node := s.node.withChildren (s.node.children ++ [q.entries.length]) }
      else q.lookup? i := by
  have hm := lookup?_modify q parent i fun n => n.withChildren (n.children ++ [q.entries.length])
  simp only [lookup?] at hm
  simp only [attach, lookup?, List.getElem?_append, length_modify]
  rcases Nat.lt_trichotomy i q.entries.length with h | h | h
  · simp only [h, if_true, hm, Nat.ne_of_lt h, if_false]
  · subst h
    simp
  · have h1 : ¬ i < q.entries.length := by omega
    have h2 : i ≠ q.entries.length := by omega
    have h3 : i - q.entries.length ≠ 0 := by omega
    cases hk : i - q.entries.length with
    | zero => exact absurd hk h3
    | succ k => simp [h1, h2]

end Query

end QueryRules
