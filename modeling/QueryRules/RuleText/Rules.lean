import QueryRules.RuleText.Condition
import QueryRules.RuleText.Instruction

/-!
# Rules from rules text

- `readRules` reads the rules of a text in order. A rule without the property `_id` is called after
  its input and its place, and no two rules have one id.
-/

namespace QueryRules.RuleText

/-- The id of a rule that declares none. -/
def defaultId (input : String) (order : Nat) : Json := .string (input ++ "#" ++ toString order)

/-- The rule that a draft describes, as the rule with a given place in its text. -/
def readRule (config : Config) (draft : Draft) (order : Nat) : Except RuleError Rule := do
  let trigger ← (readTrigger config draft.input).mapError fun fault => ⟨some draft.line, fault⟩
  let instructions ← readInstructions config trigger draft.instructions
  let id := (Dictionary.find? draft.properties idKey).getD (defaultId draft.input order)
  return .make trigger order id instructions (Dictionary.erase idKey draft.properties)

/-- The rules that drafts describe, from the given place on; `taken` are the ids before it. -/
def readRulesFrom (config : Config) (order : Nat) (taken : List String) :
    List Draft → Except RuleError (List Rule)
  | [] => .ok []
  | draft :: drafts => do
    let rule ← readRule config draft order
    let key := rule.id.compact
    if key ∈ taken then throw ⟨some draft.line, .duplicateId rule.label⟩
    return rule :: (← readRulesFrom config (order + 1) (key :: taken) drafts)

/-- The rules of a text in order. -/
def readRules (config : Config) (text : String) : Except RuleError (List Rule) := do
  readRulesFrom config 0 [] (← readDrafts config text)

end QueryRules.RuleText
