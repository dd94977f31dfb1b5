import QueryRules.Rule.Basic

/-!
# Faults in rules

- `RuleFault` lists what can be wrong with a rule, `RuleError` adds the line of the rules text where
  it shows.
- `RuleFault.message` and `RuleError.message` are the texts shown to the author of the rules.
-/

namespace QueryRules

/-- What can be wrong with a property. -/
inductive PropertyFault where
  | noColon
  | emptyKey
  | emptyValue
  | unexpected (offset : Nat)
  deriving DecidableEq, Repr

/-- The message for an input that cannot go on at an offset in bytes. -/
def unexpectedMessage (offset : Nat) : String := "unexpected input at offset " ++ toString offset

/-- The message for a property that is none. -/
def PropertyFault.message : PropertyFault → String
  | .noColon => "expected '@key: value'"
  | .emptyKey => "property key is empty"
  | .emptyValue => "property value is empty"
  | .unexpected offset => unexpectedMessage offset

/-- What can be wrong with a rule. -/
inductive RuleFault where
  | malformedLine (line : String)
  | missingInput
  | emptyInput
  | unsupportedInstruction (name : String)
  | duplicateId (id : String)
  | duplicateProperty (key : String)
  | invalidProperty (fault : PropertyFault)
  | unclosedBlock
  | blankLiteral
  | unclosedFields (literal : String)
  | repeatedStar (literal : String)
  | misplacedStar (literal : String)
  | prefixNotLast
  | conditionSyntax (input : String) (offset : Nat)
  | noPositiveLiteral
  | notForConditions (instruction : InstructionKind)
  | unknownDeleteTerm (term : Literal)
  | missingValue (instruction : InstructionKind)
  | paramNotAllowed (instruction : InstructionKind)
  | invalidParam (instruction : InstructionKind) (param : String)
  | invalidQuery (instruction : InstructionKind) (query : String) (fault : QueryFault)
  deriving DecidableEq, Repr

/-- The message for a fault. -/
def RuleFault.message : RuleFault → String
  | .malformedLine line => "cannot parse line: '" ++ line ++ "'"
  | .missingInput => "instruction or property before the first input line"
  | .emptyInput => "rule input is empty"
  | .unsupportedInstruction name => "unsupported instruction type '" ++ name ++ "'"
  | .duplicateId id => "duplicate rule id " ++ id
  | .duplicateProperty key => "duplicate property '" ++ key ++ "'"
  | .invalidProperty fault => "invalid property: " ++ fault.message
  | .unclosedBlock => "property block is not terminated with '\x7d@'"
  | .blankLiteral => "literal value must not be blank"
  | .unclosedFields literal => "field block is not closed in '" ++ literal ++ "'"
  | .repeatedStar literal => "more than one wildcard in '" ++ literal ++ "'"
  | .misplacedStar literal => "wildcard is only allowed at the end of '" ++ literal ++ "'"
  | .prefixNotLast => "wildcard is only allowed in the last input term"
  | .conditionSyntax input offset =>
    "invalid boolean input '" ++ input ++ "': " ++ unexpectedMessage offset
  | .noPositiveLiteral => "boolean input needs at least one literal outside NOT"
  | .notForConditions t => t.name ++ " is not allowed for boolean input"
  | .unknownDeleteTerm term => "Condition doesn't contain the term to delete: " ++ term.text
  | .missingValue t => t.name ++ " requires a value"
  | .paramNotAllowed t => t.name ++ " does not take a parameter"
  | .invalidParam t param =>
    "invalid parameter '" ++ param ++ "' for " ++ t.name ++ ": expected a non-negative number"
  | .invalidQuery t query fault =>
    "invalid query '" ++ query ++ "' in " ++ t.name ++ ": " ++ fault.message

/-- A fault and, if the rule comes from rules text, the number of the line, counted from one. -/
structure RuleError where
  line : Option Nat
  fault : RuleFault
  deriving DecidableEq, Repr

/-- The message for a fault with its line. -/
def RuleError.message (e : RuleError) : String :=
  match e.line with
  | some n => "rule error at line " ++ toString n ++ ": " ++ e.fault.message
  | none => "rule error: " ++ e.fault.message

end QueryRules
