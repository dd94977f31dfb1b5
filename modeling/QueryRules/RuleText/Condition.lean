import QueryRules.Rule.Fault
import QueryRules.Rule.Formula
import QueryRules.RuleText.Literal
import QueryRules.RuleText.Token

/-!
# Conditions in rules text

A disjunction is made of conjunctions with `OR` between them, a conjunction of negations with `AND`
between them, a negation of any number of `NOT` before a disjunction in parentheses or before a
literal, and a literal of one or more words.

- `readFormula` reads a formula over literals of words; it stops at the byte where no formula can
  go on.
- `readTrigger` reads the trigger of a rule: a condition if the text has an operator or a
  parenthesis, else a phrase.
-/

namespace QueryRules.RuleText

open QueryRules.Text

/-- Where the reading of a formula stopped. It is `final` once a part of the formula was read that
nothing else can begin with. -/
structure Stop where
  final : Bool
  rest : List Placed

/-- A reading of tokens. -/
abbrev TokenReading (α : Type) (ts : List Placed) : Type := Reading Stop Placed α ts

/-- The reading with every stop final. -/
def insist {α : Type} {ts : List Placed} : TokenReading α ts → TokenReading α ts
  | .ok r => .ok r
  | .error stop => .error { stop with final := true }

/-- The word of a token that is no operator. -/
def Placed.plainWord? : Placed → Option (List Char)
  | ⟨.word w, _⟩ => if isOperator w then none else some w
  | _ => none

/-- A literal: as many words without operators as there are. -/
def readWords : (ts : List Placed) → TokenReading (List (List Char)) ts
  | [] => .error ⟨false, []⟩
  | t :: ts =>
    match t.plainWord? with
    | none => .error ⟨false, t :: ts⟩
    | some w =>
      .ok (w :: (ts.takeWhile (·.plainWord?.isSome)).filterMap Placed.plainWord?,
        ⟨ts.dropWhile (·.plainWord?.isSome), by
          simpa [Nat.lt_succ_iff] using length_dropWhile_le _ ts⟩)

/-- One operand stands for itself. -/
def disjunction {α : Type} : List (Formula α) → Formula α
  | [f] => f
  | fs => .any fs

/-- One operand stands for itself. -/
def conjunction {α : Type} : List (Formula α) → Formula α
  | [f] => f
  | fs => .all fs

/-- What follows a token, if that is the next one. -/
def after? (token : Token) :
    (ts : List Placed) → Option { rest : List Placed // rest.length < ts.length }
  | [] => none
  | t :: ts => if t.token = token then some ⟨ts, by simp⟩ else none

mutual

/-- The operands of a disjunction. -/
def readDisjuncts (ts : List Placed) : TokenReading (List (Formula (List (List Char)))) ts := do
  let (fs, ⟨ts₁, h₁⟩) ← readConjuncts ts
  match after? (.word orWord) ts₁ with
  | none => .ok ([conjunction fs], ⟨ts₁, h₁⟩)
  | some ⟨ts₂, h₂⟩ =>
    let (gs, ⟨ts₃, h₃⟩) ← insist (readDisjuncts ts₂)
    .ok (conjunction fs :: gs, ⟨ts₃, by omega⟩)
termination_by 4 * ts.length + 3
decreasing_by all_goals omega

/-- The operands of a conjunction. -/
def readConjuncts (ts : List Placed) : TokenReading (List (Formula (List (List Char)))) ts := do
  let (f, ⟨ts₁, h₁⟩) ← readNegation ts
  match after? (.word andWord) ts₁ with
  | none => .ok ([f], ⟨ts₁, h₁⟩)
  | some ⟨ts₂, h₂⟩ =>
    let (gs, ⟨ts₃, h₃⟩) ← insist (readConjuncts ts₂)
    .ok (f :: gs, ⟨ts₃, by omega⟩)
termination_by 4 * ts.length + 2
decreasing_by all_goals omega

/-- A formula with any number of negations before it. -/
def readNegation (ts : List Placed) : TokenReading (Formula (List (List Char))) ts :=
  match after? (.word notWord) ts with
  | none => readPrimary ts
  | some ⟨ts₁, h₁⟩ => ((insist (readNegation ts₁)).map .not).weaken (Nat.le_of_lt h₁)
termination_by 4 * ts.length + 1
decreasing_by all_goals omega

/-- A disjunction in parentheses or a literal. If nothing that a formula begins with follows the
parenthesis, the reading stops at the parenthesis. -/
def readPrimary (ts : List Placed) : TokenReading (Formula (List (List Char))) ts :=
  match after? .opening ts with
  | none => (readWords ts).map .literal
  | some ⟨ts₁, h₁⟩ =>
    match readDisjuncts ts₁ with
    | .error stop => .error (if stop.final then stop else ⟨false, ts⟩)
    | .ok (fs, ⟨ts₂, h₂⟩) =>
      match after? .closing ts₂ with
      | none => .error ⟨true, ts₂⟩
      | some ⟨ts₃, h₃⟩ => .ok (disjunction fs, ⟨ts₃, by omega⟩)
termination_by 4 * ts.length
decreasing_by all_goals omega

end

/-- The formula that a text is written as, or the offset in bytes where it cannot go on. -/
def readFormula (cs : List Char) : Except Nat (Formula (List (List Char))) :=
  let place : List Placed → Nat
    | [] => byteSize cs
    | t :: _ => t.offset
  match readDisjuncts (tokens cs) with
  | .error stop => .error (place stop.rest)
  | .ok (fs, ⟨rest, _⟩) => if rest = [] then .ok (disjunction fs) else .error (place rest)

/-- The condition that a text is written as. -/
def readCondition (config : Config) (cs : List Char) : Except RuleFault Condition := do
  let raw ← (readFormula cs).mapError (.conditionSyntax (String.ofList cs))
  let condition ← raw.traverse fun ws => readLiteral config (unwords ws)
  if condition.hasPositive then .ok condition else .error .noPositiveLiteral

/-- The phrase that a text is written as. -/
def readPhrase (config : Config) (cs : List Char) : Except RuleFault (List Literal) := do
  let literals ← readLiterals config cs
  if literals.dropLast.any Literal.isPrefix then .error .prefixNotLast else .ok literals

/-- The trigger that a text is written as. -/
def readTrigger (config : Config) (text : String) : Except RuleFault Trigger :=
  let cs := trim text.toList
  if cs = [] then .error .emptyInput
  else if config.conditions ∧ (tokens cs).any (·.token.isConditional) then
    (readCondition config cs).map (.condition · (String.ofList cs))
  else (readPhrase config cs).map .phrase

end QueryRules.RuleText
