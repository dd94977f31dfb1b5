import QueryRules.Request.Step

/-!
# The engine

- `Engine.run` finds the actions of a request and applies them one after the other. An action is
  applied wholly or, if a query of it cannot be read, not at all.
- `Outcome` is the request afterwards with the decorations and the `Report`, or the fault that ended
  the run.
-/

namespace QueryRules

/-- How a rule set is applied to requests. -/
structure Engine where
  ruleset : Ruleset
  /-- Reads the queries of boosts and filters. -/
  readQuery : String → Except QueryFault Query
  /-- A query that cannot be read ends the run. -/
  haltOnFault : Bool := false
  /-- Time is up before the action with this number. -/
  isTimeUp : Nat → Bool := fun _ => false

/-- The engine that reads queries as its rule set does. -/
def Engine.ofRuleset (s : Ruleset) : Engine := { ruleset := s, readQuery := s.config.readQuery }

/-- What an engine did: the messages of the rules that it applied, the number of actions that it
left out, whether time was up before the last action, and the decorations. -/
structure Report where
  applied : List String
  skipped : Nat
  cutShort : Bool
  decorations : Decorations
  deriving DecidableEq, Repr

/-- The text of a report. -/
def Report.text (r : Report) : String :=
  "applied: [" ++ ", ".intercalate r.applied ++ "]" ++
    (if 0 < r.skipped then ", skipped: " ++ toString r.skipped else "") ++
    (if r.cutShort then ", truncated" else "")

/-- Why a run ended early. A node that cannot be added ends it too; this never happens. -/
inductive Halt where
  | unreadable (fault : UnreadableQuery)
  | add (fault : AddFault)
  deriving DecidableEq, Repr

/-- The end of a run: what was reached, and why it ended early if it did. -/
structure Outcome where
  progress : Progress
  halt : Option Halt := none

namespace Outcome

/-- The request after the run. -/
def request (o : Outcome) : Request := o.progress.request

/-- The decorations by key. -/
def decorations (o : Outcome) : Decorations := o.progress.decorations.foldl Decorations.add {}

/-- The report of a run that did not end early. -/
def report (o : Outcome) : Except Halt Report :=
  match o.halt with
  | some h => .error h
  | none =>
    .ok
      { applied := o.progress.applied
        skipped := o.progress.skipped
        cutShort := o.progress.cutShort
        decorations := o.decorations }

end Outcome

namespace Engine

/-- The actions of a request: those of its sequences one after the other, without the rules with a
condition that an earlier sequence has reported. -/
def actionsFrom (s : Ruleset) (reported : List Nat) : List Sequence → List Action
  | [] => []
  | sequence :: sequences =>
    let (actions, reported) := s.scan sequence reported
    actions ++ actionsFrom s reported sequences

/-- The actions of a request. -/
def actions (e : Engine) (r : Request) : List Action :=
  actionsFrom e.ruleset [] r.query.sequences

/-- The queries of all boosts and filters of an action. -/
def prepare (e : Engine) (action : Action) : Except UnreadableQuery (List AttachedQuery) :=
  action.rules.foldlM (Rule.readQueries e.readQuery) []

/-- One action applied, or left out if a query of it cannot be read. -/
def apply (e : Engine) (action : Action) (p : Progress) : Except Halt Progress :=
  match e.prepare action with
  | .error fault =>
    if e.haltOnFault then .error (.unreadable fault) else .ok { p with skipped := p.skipped + 1 }
  | .ok queue =>
    ((action.rules.foldlM (Progress.performRule e.ruleset.config action) (p, queue)).map
      (·.1)).mapError .add

/-- The actions from the one with a given number on applied one after the other, as long as there is
time and nothing halts the run. -/
def applyAll (e : Engine) (n : Nat) (p : Progress) : List Action → Outcome
  | [] => { progress := p }
  | action :: actions =>
    if e.isTimeUp n then { progress := { p with cutShort := true } }
    else match e.apply action p with
      | .ok p => applyAll e (n + 1) p actions
      | .error halt => { progress := p, halt := some halt }

/-- The rules of the engine applied to a request. -/
def run (e : Engine) (r : Request) : Outcome := e.applyAll 0 { request := r } (e.actions r)

end Engine

end QueryRules
