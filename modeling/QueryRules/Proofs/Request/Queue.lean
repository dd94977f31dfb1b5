import QueryRules.Proofs.Except
import QueryRules.Request.Engine

/-!
# The queue of an action

The first pass over the instructions of an action queues the queries of boosts and filters, and the
second one takes them off again. Both skip the other instructions, each by a test of its own.

- `Step.ofInstruction` is the step that carries the query of its own instruction.
  `Step.next_ofInstruction`: with that query at the front of the queue, the second pass makes this
  step and takes just that query.
- `Engine.prepare_eq`: the first pass queues the queries of these steps in their order.
  `Progress.foldlM_performRule`: so the second pass makes these steps and leaves no query.
- `Engine.apply_eq`: an action is applied as if every step carried the query of its instruction.
-/

namespace QueryRules

variable {parse : String → Except QueryFault Query} {rule : Rule} {i : Instruction}

/-! ## Steps with their own queries -/

namespace Step

/-- The step that an instruction of a rule asks for, with the query that its own text makes. -/
def ofInstruction (parse : String → Except QueryFault Query) (rule : Rule) (i : Instruction) :
    Except UnreadableQuery Step :=
  match i with
  | .synonym terms weight => .ok (.addSynonyms terms weight)
  | .boost direction query weight =>
    (rule.readQuery parse i query).map fun q => .addBoost direction ⟨q, weight⟩
  | .filter query => (rule.readQuery parse i query).map .addFilter
  | .delete terms => .ok (.deleteTerms terms)
  | .decorate value none => .ok (.decorate (.unnamed value))
  | .decorate value (some key) => .ok (.decorate (.named key value))
  | .replace _ => .ok .nothing

/-- The steps that a rule asks for. -/
def ofRule (parse : String → Except QueryFault Query) (rule : Rule) :
    Except UnreadableQuery (List Step) := rule.instructions.mapM (ofInstruction parse rule)

/-- The query that a step attaches to a request. -/
def queries : Step → List AttachedQuery
  | addBoost _ b => [b.query]
  | addFilter q => [q]
  | _ => []

/-- A step whose query is the next one of the queue is made, and the queries behind it are left. -/
theorem next_ofInstruction {step : Step} (h : ofInstruction parse rule i = .ok step)
    (rest : List AttachedQuery) : next (step.queries ++ rest) i = (step, rest) := by
  cases i with
  | boost direction text weight =>
    obtain ⟨q, -, rfl⟩ := exists_of_map_eq_ok h
    rfl
  | filter text =>
    obtain ⟨q, -, rfl⟩ := exists_of_map_eq_ok h
    rfl
  | decorate value key => cases key <;> (obtain rfl := Except.ok.inj h; rfl)
  | _ =>
    obtain rfl := Except.ok.inj h
    rfl

end Step

/-! ## The first pass -/

namespace Rule

/-- An instruction queues the query of its step. -/
theorem enqueue_eq (queue : List AttachedQuery) (i : Instruction) :
    rule.enqueue parse queue i =
      (Step.ofInstruction parse rule i).map fun step => queue ++ step.queries := by
  cases i with
  | boost direction text weight =>
    dsimp only [enqueue, Instruction.query?, Step.ofInstruction]
    cases rule.readQuery parse (.boost direction text weight) text <;> rfl
  | filter text =>
    dsimp only [enqueue, Instruction.query?, Step.ofInstruction]
    cases rule.readQuery parse (.filter text) text <;> rfl
  | decorate value key => cases key <;> exact congrArg Except.ok (List.append_nil queue).symm
  | _ => exact congrArg Except.ok (List.append_nil queue).symm

/-- A rule queues the queries of its steps. -/
theorem readQueries_eq (queue : List AttachedQuery) (rule : Rule) :
    readQueries parse queue rule =
      (Step.ofRule parse rule).map fun steps => queue ++ steps.flatMap Step.queries :=
  foldlM_append enqueue_eq queue rule.instructions

end Rule

/-- The rules of an action with the steps that they ask for. -/
def Action.steps (parse : String → Except QueryFault Query) (a : Action) :
    Except UnreadableQuery (List (Rule × List Step)) :=
  a.rules.mapM fun rule => (Step.ofRule parse rule).map (rule, ·)

/-- The queries that the steps of a rule attach. -/
def stepQueries (prepared : Rule × List Step) : List AttachedQuery :=
  prepared.2.flatMap Step.queries

/-- The queue of an action holds the queries of its steps in their order. -/
theorem Engine.prepare_eq (e : Engine) (a : Action) :
    e.prepare a = (a.steps e.readQuery).map (List.flatMap stepQueries) := by
  have hrule (queue : List AttachedQuery) (rule : Rule) : Rule.readQueries e.readQuery queue rule =
      ((Step.ofRule e.readQuery rule).map (rule, ·)).map fun r => queue ++ stepQueries r := by
    rw [Rule.readQueries_eq]
    cases Step.ofRule e.readQuery rule <;> rfl
  exact foldlM_append hrule [] a.rules

/-! ## The second pass -/

namespace Progress

variable {config : Config} {a : Action}

/-- The progress after the steps of one rule. -/
def takeRule (config : Config) (action : Action) (p : Progress) (rule : Rule × List Step) :
    Except AddFault Progress := do
  let p ← rule.2.foldlM (take config action) p
  return { p with applied := p.applied ++ [rule.1.message] }

/-- An instruction whose query is the next one makes its step and leaves the other queries. -/
theorem perform_ofInstruction {step : Step} (h : Step.ofInstruction parse rule i = .ok step)
    (p : Progress) (rest : List AttachedQuery) :
    perform config a (p, step.queries ++ rest) i = (p.take config a step).map (·, rest) := by
  rw [perform, Step.next_ofInstruction h]

/-- So does a rule. -/
theorem performRule_ofRule {steps : List Step} (h : Step.ofRule parse rule = .ok steps)
    (p : Progress) (rest : List AttachedQuery) :
    performRule config a (p, stepQueries (rule, steps) ++ rest) rule =
      (p.takeRule config a (rule, steps)).map (·, rest) := by
  have hsteps := foldlM_queue (f := perform config a) (h := Step.queries)
    ((mapM_eq_ok_iff.1 h).imp fun _ _ => perform_ofInstruction) p rest
  rw [performRule, stepQueries, hsteps, takeRule]
  cases steps.foldlM (take config a) p <;> rfl

/-- The rules of an action make all their steps, and no query is left. -/
theorem foldlM_performRule {rules : List Rule} {prepared : List (Rule × List Step)}
    (h : List.Forall₂ (fun r s => (Step.ofRule parse r).map (r, ·) = .ok s) rules prepared)
    (p : Progress) : rules.foldlM (performRule config a) (p, prepared.flatMap stepQueries) =
      (prepared.foldlM (takeRule config a) p).map (·, []) := by
  have hrule (rule : Rule) (r : Rule × List Step)
      (hr : (Step.ofRule parse rule).map (rule, ·) = .ok r) (p : Progress)
      (rest : List AttachedQuery) : performRule config a (p, stepQueries r ++ rest) rule =
        (p.takeRule config a r).map (·, rest) := by
    obtain ⟨steps, hsteps, rfl⟩ := exists_of_map_eq_ok hr
    exact performRule_ofRule hsteps p rest
  have hrules := foldlM_queue (f := performRule config a) (h.imp hrule) p []
  rwa [List.append_nil] at hrules

end Progress

/-- An action is applied as if every step carried the query of its own instruction. -/
theorem Engine.apply_eq (e : Engine) (a : Action) (p : Progress) : e.apply a p =
    match a.steps e.readQuery with
    | .error fault =>
      if e.haltOnFault then .error (.unreadable fault) else .ok { p with skipped := p.skipped + 1 }
    | .ok rules => (rules.foldlM (Progress.takeRule e.ruleset.config a) p).mapError .add := by
  unfold apply
  rw [prepare_eq]
  cases hsteps : a.steps e.readQuery with
  | error fault => rfl
  | ok rules =>
    dsimp only [Except.map]
    rw [Progress.foldlM_performRule (mapM_eq_ok_iff.1 hsteps)]
    cases rules.foldlM (Progress.takeRule e.ruleset.config a) p <;> rfl

end QueryRules
