import QueryRules.Json.Relaxed
import QueryRules.Rule.Fault

/-!
# Drafts of rules

Rules text is a list of lines. A line that ends in `=>` begins a rule; under it stand instructions,
such as `UP(2): cheap`, and properties, such as `@_id: 7`, or several of them in a block between
`@{` and `}@`. Blank lines and lines that begin with `#` mean nothing.

- `Draft` is a rule as written, with its trigger and instructions still text.
- `readDrafts` takes rules text apart; `Reader.step` is what one line does.
- A property may be given once for each rule (`addProperty`).
-/

namespace QueryRules.RuleText

open QueryRules.Text

/-- An instruction as written, with the number of its line. -/
structure DraftInstruction where
  kind : InstructionKind
  param : Option String
  value : Option String
  line : Nat
  deriving DecidableEq, Repr

/-- A rule as written, with the number of the line that it begins on. -/
structure Draft where
  input : String
  line : Nat
  instructions : List DraftInstruction := []
  properties : Dictionary Json := []
  deriving Inhabited

/-! ## Instructions -/

/-- An ASCII letter. -/
def isAsciiLetter (c : Char) : Bool := ('a' ≤ c && c ≤ 'z') || ('A' ≤ c && c ≤ 'Z')

/-- The text between parentheses at the start of a text and what follows it. -/
def cutParam (cs : List Char) : Option (List Char) × List Char :=
  match cs.dropWhile isSpace with
  | '(' :: inside =>
    match cutAt? ')' inside with
    | some (param, rest) => (some param, rest)
    | none => (none, cs)
  | _ => (none, cs)

/-- The name, the parameter and the value of an instruction line; nothing if the line is none. -/
def cutInstruction? (cs : List Char) :
    Option (List Char × Option (List Char) × Option (List Char)) :=
  let name := cs.takeWhile isAsciiLetter
  let (param, rest) := cutParam (cs.dropWhile isAsciiLetter)
  if name = [] then none
  else match rest.dropWhile isSpace with
    | [] => some (name, param, none)
    | ':' :: value => some (name, param, some value)
    | _ => none

/-- A text without the blanks at its ends, if anything is left of it. -/
def nonBlank (cs : Option (List Char)) : Option String :=
  ((cs.map trim).filter (!·.isEmpty)).map String.ofList

/-- The instruction that a line is written as. -/
def readInstruction (config : Config) (n : Nat) (line : List Char) :
    Except RuleError DraftInstruction :=
  let malformed : RuleError := ⟨some n, .malformedLine (String.ofList line)⟩
  match cutInstruction? line with
  | none => .error malformed
  | some (name, param, value) =>
    match InstructionKind.ofName? name with
    | none => .error malformed
    | some kind =>
      if config.supports kind then
        .ok { kind, param := nonBlank param, value := nonBlank value, line := n }
      else .error ⟨some n, .unsupportedInstruction (String.ofList name)⟩

/-! ## Properties -/

/-- The draft with one more property; a property that it has already is refused. -/
def addProperty (n : Nat) (draft : Draft) (property : String × Json) : Except RuleError Draft :=
  if Dictionary.hasKey draft.properties property.1 then
    .error ⟨some n, .duplicateProperty property.1⟩
  else
    .ok { draft with properties := Dictionary.insert property.1 property.2 draft.properties }

/-- A quote of either kind. -/
def isQuote (c : Char) : Bool := c == '"' || c == '\''

/-- The property that a line is written as after its at sign. A value that is no structured value
stands for itself. -/
def readProperty (cs : List Char) : Except PropertyFault (String × Json) :=
  match cutAt? ':' cs with
  | none => .error .noColon
  | some (key, value) =>
    let key := trimBy isQuote (trim key)
    let value := trim value
    if key = [] then .error .emptyKey
    else if value = [] then .error .emptyValue
    else match Json.read value with
      | .ok v => .ok (String.ofList key, v)
      | .error _ => .ok (String.ofList key, .string (String.ofList value))

/-- What a line of a block holds, and whether the line ends the block. A backslash before the
closing mark takes its meaning away. -/
def cutBlockLine (line : List Char) : List Char × Bool :=
  match ['\\', '}', '@'].isSuffixOf? line with
  | some head => (head ++ ['}', '@'], false)
  | none =>
    match ['}', '@'].isSuffixOf? line with
    | some head => (head, true)
    | none => (line, false)

/-! ## Lines -/

/-- An open block of properties: the number of the line that it begins on and its lines so far. -/
structure OpenBlock where
  line : Nat
  text : List Char

/-- What has been read: the drafts, the latest first, and the open block if there is one. -/
structure Reader where
  drafts : List Draft := []
  block : Option OpenBlock := none

namespace Reader

/-- The properties of a complete block added to the latest draft. -/
def closeBlock (opened : OpenBlock) (drafts : List Draft) : Except RuleError Reader :=
  match drafts with
  | [] => .error ⟨some opened.line, .missingInput⟩
  | draft :: drafts => do
    let properties ← (Json.readBraced (opened.text ++ ['}'])).mapError fun offset =>
      ⟨some opened.line, .invalidProperty (.unexpected offset)⟩
    let draft ← properties.foldlM (addProperty opened.line) draft
    return { drafts := draft :: drafts }

/-- One more line of a block. -/
def stepBlock (opened : OpenBlock) (drafts : List Draft) (line : List Char) :
    Except RuleError Reader :=
  let (content, closed) := cutBlockLine line
  let opened := { opened with text := opened.text ++ content ++ ['\n'] }
  if closed then closeBlock opened drafts else .ok { drafts, block := some opened }

/-- A line under the latest draft: a block of properties, a property or an instruction. -/
def stepRule (config : Config) (n : Nat) (line : List Char) (draft : Draft)
    (drafts : List Draft) : Except RuleError Reader :=
  match line with
  | '@' :: '{' :: rest => stepBlock ⟨n, []⟩ (draft :: drafts) rest
  | '@' :: rest => do
    let property ← (readProperty rest).mapError fun fault => ⟨some n, .invalidProperty fault⟩
    let draft ← addProperty n draft property
    return { drafts := draft :: drafts }
  | line => do
    let instruction ← readInstruction config n line
    let draft := { draft with instructions := draft.instructions ++ [instruction] }
    return { drafts := draft :: drafts }

/-- A line outside blocks. -/
def stepLine (config : Config) (n : Nat) (line : List Char) (drafts : List Draft) :
    Except RuleError Reader :=
  if line = [] ∨ line.head? = some '#' then .ok { drafts }
  else match ['=', '>'].isSuffixOf? line with
    | some input =>
      let input := trim input
      if input = [] then .error ⟨some n, .emptyInput⟩
      else .ok { drafts := { input := String.ofList input, line := n } :: drafts }
    | none =>
      match drafts with
      | [] => .error ⟨some n, .missingInput⟩
      | draft :: drafts => stepRule config n line draft drafts

/-- One more line, with its number. -/
def step (config : Config) (reader : Reader) (line : List Char × Nat) : Except RuleError Reader :=
  match reader.block with
  | some opened => stepBlock opened reader.drafts (trim line.1)
  | none => stepLine config line.2 (trim line.1) reader.drafts

end Reader

/-- The drafts of rules text. -/
def readDrafts (config : Config) (text : String) : Except RuleError (List Draft) := do
  let reader ← ((lines text.toList).zipIdx 1).foldlM (Reader.step config) {}
  match reader.block with
  | some opened => .error ⟨some opened.line, .unclosedBlock⟩
  | none => .ok reader.drafts.reverse

end QueryRules.RuleText
