import QueryRules.RuleText.Draft
import QueryRules.RuleText.Literal

/-!
# Instructions in rules text

- `readBody` reads an instruction whose line has been taken apart: which parameters and values each
  kind admits, and what they mean.
- A rule with a condition has no words that its instructions could name, so it may neither add
  synonyms nor delete terms.
-/

namespace QueryRules.RuleText

open QueryRules.Text

/-- The value of an instruction that needs one. -/
def requiredValue (d : DraftInstruction) : Except RuleFault (List Char) :=
  match d.value with
  | some value => .ok value.toList
  | none => .error (.missingValue d.kind)

/-- An instruction that has no parameter. -/
def refuseParam (d : DraftInstruction) : Except RuleFault Unit :=
  if d.param.isSome then .error (.paramNotAllowed d.kind) else .ok ()

/-- The weight that an instruction gives as its parameter, one if it gives none. -/
def readWeight (d : DraftInstruction) : Except RuleFault Weight :=
  match d.param with
  | none => .ok .one
  | some param =>
    match Weight.readParam? (trim param.toList) with
    | some w => .ok w
    | none => .error (.invalidParam d.kind param)

/-- The query of a boost or filter: a star and a space before it make it a raw one, any other has to
be a query. -/
def readQueryText (config : Config) (kind : InstructionKind) (value : List Char) :
    Except RuleFault QueryText :=
  match value with
  | '*' :: ' ' :: raw =>
    let raw := trim raw
    if raw = [] then .error (.missingValue kind) else .ok (.raw (String.ofList raw))
  | value =>
    let text := String.ofList value
    match config.readQuery text with
    | .ok _ => .ok (.parsed text)
    | .error fault => .error (.invalidQuery kind text fault)

/-- The literals of a trigger that the terms of a delete instruction name. The literal of the
trigger is taken, since it knows whether it is a prefix. -/
def resolveTerms (trigger : Trigger) (terms : List Literal) : Except RuleFault (List Literal) :=
  terms.mapM fun term =>
    match trigger.literals.find? (·.agrees term) with
    | some literal => .ok literal
    | none => .error (.unknownDeleteTerm term)

/-- The instruction that a line is written as, for a rule with a given trigger. -/
def readBody (config : Config) (trigger : Trigger) (d : DraftInstruction) :
    Except RuleFault Instruction :=
  if trigger.isCondition ∧ (d.kind = .synonym ∨ d.kind = .delete) then
    .error (.notForConditions d.kind)
  else match d.kind with
    | .synonym => do
      let weight ← readWeight d
      let terms ← readLiterals config (← requiredValue d)
      return .synonym terms weight
    | .up => boost .up
    | .down => boost .down
    | .filter => do
      refuseParam d
      return .filter (← readQueryText config d.kind (← requiredValue d))
    | .delete => do
      refuseParam d
      match d.value with
      | none => return .delete none
      | some value =>
        let terms ← readLiterals config value.toList
        return .delete (some (← resolveTerms trigger terms))
    | .decorate => return .decorate (String.ofList (← requiredValue d)) d.param
    | .replace => return .replace d.value
where
  /-- A boost in one direction. -/
  boost (direction : Direction) : Except RuleFault Instruction := do
    let weight ← readWeight d
    let query ← readQueryText config d.kind (← requiredValue d)
    return .boost direction query weight

/-- The instructions of a rule, up to the first that has a fault. -/
def readInstructions (config : Config) (trigger : Trigger) (ds : List DraftInstruction) :
    Except RuleError (List Instruction) :=
  ds.mapM fun d => (readBody config trigger d).mapError fun fault => ⟨some d.line, fault⟩

end QueryRules.RuleText
