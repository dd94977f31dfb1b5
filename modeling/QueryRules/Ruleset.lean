import QueryRules.Match.Circuit
import QueryRules.Match.Trie
import QueryRules.RuleText.Rules

/-!
# Rule sets

- `Ruleset` is a list of rules made ready for matching: their phrases and literals in a trie, their
  conditions in a circuit.
- `Ruleset.compile` checks rules and makes them ready, `Ruleset.ofText` does so with rules text and
  `Ruleset.ofBytes` with the bytes of a file.
-/

namespace QueryRules

/-- What a text of the trie belongs to: the rule whose phrase it is, or a literal of conditions. -/
inductive Target where
  | rule (index : Nat)
  | literal (id : Nat)
  deriving DecidableEq, Repr

/-- Rules made ready for matching. -/
structure Ruleset where
  config : Config
  rules : List Rule
  trie : Trie Target := .empty
  register : Register := {}
  circuit : Circuit := {}

namespace Ruleset

/-- Refuses two rules with one id; ids are equal if their compact texts are. -/
def checkIds (taken : List String) : List Rule → Except RuleError Unit
  | [] => .ok ()
  | rule :: rules =>
    let key := rule.id.compact
    if key ∈ taken then .error ⟨none, .duplicateId rule.label⟩
    else checkIds (key :: taken) rules

/-- Refuses a trigger that could not be matched: a phrase needs literals with a value, of which only
the last may be a prefix, and a condition needs a literal outside every not. -/
def checkTrigger : Trigger → Except RuleFault Unit
  | .phrase literals =>
    if literals = [] then .error .emptyInput
    else if literals.any (·.value.isEmpty) then .error .blankLiteral
    else if literals.dropLast.any Literal.isPrefix then .error .prefixNotLast
    else .ok ()
  | .condition c _ => if c.hasPositive then .ok () else .error .noPositiveLiteral

/-- The rule with every literal normalized, if it can be matched. -/
def prepare (config : Config) (rule : Rule) : Except RuleError Rule := do
  let rule := rule.mapLiterals config.normalizeLiteral
  (checkTrigger rule.trigger).mapError fun fault => ⟨none, fault⟩
  return rule

/-- The text under which a phrase is stored. -/
def phraseKey (literals : List Literal) : List Char :=
  Text.unwords (literals.map (·.value.toList))

/-- The last literal of a phrase is a prefix. -/
def endsInPrefix (literals : List Literal) : Bool :=
  (literals.getLast?.map Literal.isPrefix).getD false

/-- The rule set with the trigger of one more rule made ready. Literals that the register did not
have before are stored in the trie. -/
def add (s : Ruleset) (rule : Rule × Nat) : Ruleset :=
  match rule.1.trigger with
  | .phrase literals =>
    let target := .rule rule.2
    { s with trie := s.trie.insert (endsInPrefix literals) target (phraseKey literals) }
  | .condition condition _ =>
    let (circuit, register) := s.circuit.withRule s.register rule.2 condition
    let fresh := register.literals.zipIdx.drop s.register.size
    let trie := fresh.foldl
      (fun trie (l, id) => trie.insert l.isPrefix (.literal id) l.value.toList) s.trie
    { s with trie, register, circuit }

/-- The rule set of checked rules. -/
def build (config : Config) (rules : List Rule) : Ruleset :=
  rules.zipIdx.foldl add { config, rules }

/-- The rule set of a list of rules. -/
def compile (config : Config) (rules : List Rule) : Except RuleError Ruleset := do
  checkIds [] rules
  return build config (← rules.mapM (prepare config))

/-- The rule set of rules text. -/
def ofText (config : Config) (text : String) : Except RuleError Ruleset := do
  compile config (← RuleText.readRules config text)

/-- Why the bytes of a file are no rules. -/
inductive LoadError where
  | notUtf8
  | rule (error : RuleError)
  deriving DecidableEq, Repr

/-- The rule set of the bytes of a file. -/
def ofBytes (config : Config) (bytes : ByteArray) : Except LoadError Ruleset :=
  match String.fromUTF8? bytes with
  | none => .error .notUtf8
  | some text => (ofText config text).mapError .rule

/-- The text of a rule set: one line for each rule with its id, its trigger and the kinds of its
instructions. -/
def text (s : Ruleset) : String :=
  let line (r : Rule) :=
    "  [" ++ r.label ++ "] " ++ r.trigger.text ++ " => " ++
      ", ".intercalate (r.instructions.map (·.kind.name)) ++ "\n"
  "RulesCollection (" ++ toString s.rules.length ++ " rules):\n" ++ String.join (s.rules.map line)

end Ruleset

end QueryRules
