import QueryRules.Match.Action
import QueryRules.Request.Basic

/-!
# Steps

An action is applied in two passes over the instructions of its rules. The first one reads the
queries of all boosts and filters into one queue, so that nothing has changed if one of them cannot
be read. In the second one every instruction becomes a step, where a boost or a filter takes the next
query of the queue, and the step changes the request.

- `Rule.readQueries` is the first pass over one rule; `UnreadableQuery` says why it fails.
- `Step.next` is the step of an instruction with the queue that it leaves; `Progress.take` is what a
  step changes.
- `Progress.performRule` is the second pass over one rule.
-/

namespace QueryRules

/-- A query of an instruction that cannot be read while its rule is applied. -/
structure UnreadableQuery where
  ruleId : String
  instruction : InstructionKind
  text : String
  fault : QueryFault
  deriving DecidableEq, Repr

/-- The message for a query that cannot be read. -/
def UnreadableQuery.message (e : UnreadableQuery) : String :=
  "rule " ++ e.ruleId ++ ": cannot build " ++ e.instruction.name ++ " query '" ++ e.text ++ "': " ++
    e.fault.message

/-! ## Queues and steps -/

namespace Rule

/-- The query of an instruction, with every node marked as made by a rule. The clauses of a filter
must hold. -/
def readQuery (parse : String → Except QueryFault Query) (rule : Rule) (i : Instruction) :
    QueryText → Except UnreadableQuery AttachedQuery
  | .raw text => .ok (.raw text)
  | .parsed text =>
    match parse text with
    | .error fault => .error ⟨rule.label, i.kind, text, fault⟩
    | .ok q =>
      let q := if i.kind = .filter then q.requireAll else q
      .ok (.query q.asGenerated)

/-- The queue with the query of an instruction, if that is a boost or a filter. -/
def enqueue (parse : String → Except QueryFault Query) (rule : Rule) (queue : List AttachedQuery)
    (i : Instruction) : Except UnreadableQuery (List AttachedQuery) :=
  match i.query? with
  | some text => return queue ++ [← rule.readQuery parse i text]
  | none => .ok queue

/-- The queue with the queries of all boosts and filters of a rule. -/
def readQueries (parse : String → Except QueryFault Query) (queue : List AttachedQuery)
    (rule : Rule) : Except UnreadableQuery (List AttachedQuery) :=
  rule.instructions.foldlM (rule.enqueue parse) queue

end Rule

/-- What an instruction does to a request, with the query that it has taken. -/
inductive Step where
  | addSynonyms (terms : List Literal) (weight : Weight)
  | addBoost (direction : Direction) (query : Boost)
  | addFilter (query : AttachedQuery)
  | deleteTerms (terms : Option (List Literal))
  | decorate (decoration : Decoration)
  | nothing
  deriving DecidableEq, Repr

/-- The step of an instruction, with the queue that it leaves. A boost or a filter takes the next
query of the queue; if there is none it does nothing. -/
def Step.next (queue : List AttachedQuery) : Instruction → Step × List AttachedQuery
  | .synonym terms weight => (.addSynonyms terms weight, queue)
  | .boost direction _ weight =>
    match queue with
    | q :: queue => (.addBoost direction ⟨q, weight⟩, queue)
    | [] => (.nothing, [])
  | .filter _ =>
    match queue with
    | q :: queue => (.addFilter q, queue)
    | [] => (.nothing, [])
  | .delete terms => (.deleteTerms terms, queue)
  | .decorate value none => (.decorate (.unnamed value), queue)
  | .decorate value (some key) => (.decorate (.named key value), queue)
  | .replace _ => (.nothing, queue)

/-! ## Synonyms -/

/-- A text with the suffix of the matched term in place of every `$1`. -/
def fillSuffix (suffix : List Char) : List Char → List Char
  | [] => []
  | '$' :: '1' :: cs => suffix ++ fillSuffix suffix cs
  | c :: cs => c :: fillSuffix suffix cs

/-- The term that a synonym adds. -/
def synonymTerm (suffix : Option String) (weight : Weight) (l : Literal) : Term :=
  { value := match suffix with
      | some s => String.ofList (fillSuffix s.toList l.value.toList)
      | none => l.value
    fields := l.fields
    generated := true
    boost := weight }

namespace Query

/-- The group of a term that is still there. -/
def groupOf? (q : Query) (id : Nat) : Option Nat := (q.term? id).bind fun _ => q.parent? id

/-- The query with one more alternative in a group: the term of a single synonym, or a boolean query
in which each of several terms must occur. -/
def addAlternative (q : Query) (group : Nat) (terms : List Term) : Except AddFault Query :=
  match terms with
  | [t] => (q.addTerm group t).map (·.1)
  | terms => do
    let (q, clause) ← q.addNested group .should true
    terms.foldlM (fun q t => do
      let (q, g) ← q.addGroup clause .must true
      let (q, _) ← q.addTerm g t
      return q) q

/-- The query with an alternative in the group of a matched term, and the groups that have got one.
A term that is gone and a group that has got one add nothing. -/
def addSynonym (terms : List Term) (s : Query × List Nat) (matched : Nat) :
    Except AddFault (Query × List Nat) :=
  match s.1.groupOf? matched with
  | none => .ok s
  | some group =>
    if group ∈ s.2 then .ok s
    else (s.1.addAlternative group terms).map (·, group :: s.2)

/-- The query with an alternative in the group of every matched term that is still there, one for
each group. -/
def addSynonyms (q : Query) (matched : List Nat) (terms : List Term) : Except AddFault Query :=
  (matched.foldlM (addSynonym terms) (q, [])).map (·.1)

end Query

/-! ## Applying instructions -/

/-- A request while rules are applied to it, with the messages of the rules applied so far, the
number of actions left out and the decorations in order. -/
structure Progress where
  request : Request
  applied : List String := []
  skipped : Nat := 0
  cutShort : Bool := false
  decorations : List Decoration := []

namespace Progress

/-- The progress with another query of the user. -/
def setQuery (p : Progress) (q : Query) : Progress :=
  { p with request := { p.request with query := q } }

/-- The query without the matched terms that a delete instruction names. -/
def deleteTerms (config : Config) (matched : List Candidate) (terms : Option (List Literal))
    (q : Query) : Query :=
  let isNamed (t : Candidate) : Bool :=
    match terms with
    | none => true
    | some literals =>
      let value := config.normalize t.value
      literals.any fun l => l.matchesValue value && l.allowsFields t.fields
  (matched.filter isNamed).foldl (fun q t => q.eraseTerm t.id) q

/-- The progress after one step of an action. -/
def take (config : Config) (action : Action) (p : Progress) : Step → Except AddFault Progress
  | .addSynonyms terms weight => do
    let terms := terms.map (synonymTerm action.suffix weight)
    return p.setQuery (← p.request.query.addSynonyms (action.terms.map (·.id)) terms)
  | .addBoost direction query =>
    .ok { p with request := p.request.addBoost direction query }
  | .addFilter query => .ok { p with request := p.request.addFilter query }
  | .deleteTerms terms =>
    .ok (p.setQuery (deleteTerms config action.terms terms p.request.query))
  | .decorate decoration => .ok { p with decorations := p.decorations ++ [decoration] }
  | .nothing => .ok p

/-- The progress after one instruction of an action, and the queue that it leaves. -/
def perform (config : Config) (action : Action) (s : Progress × List AttachedQuery)
    (i : Instruction) : Except AddFault (Progress × List AttachedQuery) :=
  let (step, queue) := Step.next s.2 i
  (s.1.take config action step).map (·, queue)

/-- The progress after the instructions of one rule, and the queue that they leave. -/
def performRule (config : Config) (action : Action) (s : Progress × List AttachedQuery)
    (rule : Rule) : Except AddFault (Progress × List AttachedQuery) := do
  let (p, queue) ← rule.instructions.foldlM (perform config action) s
  return ({ p with applied := p.applied ++ [rule.message] }, queue)

end Progress

end QueryRules
