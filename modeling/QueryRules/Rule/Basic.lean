import QueryRules.Json.Basic
import QueryRules.Query.Reader
import QueryRules.Rule.Condition
import QueryRules.Rule.Instruction
import QueryRules.Text.Case

/-!
# Rules

- `Rule` is a trigger with the instructions that it sets off. Its properties hold its id and the
  message that is reported when it is applied; `Rule.make` fills in the latter if it is missing.
- `Config` says which instructions rules text may use and how words and queries are read.
-/

namespace QueryRules

/-- The property that holds the id of a rule. -/
def idKey : String := "_id"

/-- The property that holds the message of a rule. -/
def logKey : String := "_log"

/-- A trigger and the instructions that it sets off. Of two rules whose matches start at one place
the one with the smaller `order` comes first. -/
structure Rule where
  trigger : Trigger
  order : Nat
  id : Json
  instructions : List Instruction
  properties : Dictionary Json
  deriving Inhabited

namespace Rule

/-- A rule whose properties also hold its id and, unless they have one, a message equal to it. -/
def make (trigger : Trigger) (order : Nat) (id : Json) (instructions : List Instruction)
    (properties : Dictionary Json) : Rule :=
  let properties := Dictionary.insert idKey id properties
  let properties :=
    if Dictionary.hasKey properties logKey then properties
    else Dictionary.insert logKey id properties
  { trigger, order, id, instructions, properties }

/-- The id as plain text. -/
def label (r : Rule) : String := r.id.text

/-- The message that is reported when the rule is applied. -/
def message (r : Rule) : String := ((Dictionary.find? r.properties logKey).getD r.id).text

/-- The rule with every literal of its trigger and of its instructions changed. -/
def mapLiterals (f : Literal → Literal) (r : Rule) : Rule :=
  { r with
    trigger := r.trigger.mapLiterals f
    instructions := r.instructions.map (·.mapLiterals f) }

end Rule

/-- How rules are read and matched. -/
structure Config where
  /-- The instructions that rules text may use. -/
  supports : InstructionKind → Bool := fun _ => true
  /-- Triggers with operators or parentheses are conditions. -/
  conditions : Bool := true
  /-- Brings the words of rules and of queries into one form. -/
  normalize : String → String := Text.lowerIfUpper
  /-- Reads the queries of boosts and filters. -/
  readQuery : String → Except QueryFault Query := Query.ofWords

/-- The literal with its value normalized. -/
def Config.normalizeLiteral (config : Config) (l : Literal) : Literal :=
  { l with value := config.normalize l.value }

end QueryRules
