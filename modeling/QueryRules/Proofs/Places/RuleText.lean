import QueryRules.Proofs.Formula
import QueryRules.Proofs.Places.Literal
import QueryRules.RuleText.Rules

/-!
# Rules text by places

The readers of rules text with every slice checked: what stands behind the at sign of a property,
what stands before the end of a block, all literals of a phrase but the last.

- `Places.readTrigger_eq`, `Places.readBody_eq`: a trigger and an instruction. A phrase is read from
  a trimmed text, so it has a last literal.
- `Places.readDrafts_eq`, `Places.readRules_eq`: the rules of a text are read as they are without
  places, so no slice ever lies outside its text.
-/

namespace QueryRules.Places

open QueryRules.Text

/-! ## Triggers -/

/-- Literals are replaced from left to right, so a formula looks at places where its literals do. -/
theorem traverse_lift {α β ε : Type} (g : α → Except ε β) (f : Formula α) :
    f.traverse (fun a => Checked.lift (g a)) = Checked.lift (f.traverse g) := by
  have hlist {fs : List (Formula α)}
      (ih : ∀ f ∈ fs, f.traverse (fun a => Checked.lift (g a)) = Checked.lift (f.traverse g)) :
      Formula.traverseList (fun a => Checked.lift (g a)) fs =
        Checked.lift (Formula.traverseList g fs) := by
    induction fs with
    | nil => rfl
    | cons f fs ihs =>
      obtain ⟨hf, hfs⟩ := List.forall_mem_cons.1 ih
      simp only [Formula.traverseList, hf, ihs hfs, Checked.lift_bind, Checked.lift_pure]
  induction f using Formula.induct with
  | literal a => simp only [Formula.traverse, Checked.lift_map]
  | all fs ih => simp only [Formula.traverse, hlist ih, Checked.lift_map]
  | any fs ih => simp only [Formula.traverse, hlist ih, Checked.lift_map]
  | not f ih => simp only [Formula.traverse, ih, Checked.lift_map]

/-- The condition that a text is written as. -/
def readCondition (config : Config) (cs : List Char) : Checked RuleFault Condition := do
  let raw ← .lift ((RuleText.readFormula cs).mapError (.conditionSyntax (String.ofList cs)))
  let condition ← raw.traverse fun ws => readLiteral config (unwords ws)
  if condition.hasPositive then .ok condition else .error (.fault .noPositiveLiteral)

theorem readCondition_eq (config : Config) (cs : List Char) :
    readCondition config cs = .lift (RuleText.readCondition config cs) := by
  simp only [readCondition, RuleText.readCondition, readLiteral_eq, traverse_lift,
    Checked.lift_bind, Checked.lift_ite, Checked.lift_ok, Checked.lift_error]

/-- All literals of a phrase but the last. -/
def withoutLast {ε : Type} (literals : List Literal) : Checked ε (List Literal) := do
  let last ← Checked.sub literals.length 1
  Checked.take literals last

/-- A list that is not empty has a last element. -/
theorem withoutLast_eq {ε : Type} {literals : List Literal} (h : literals ≠ []) :
    withoutLast literals = (.ok literals.dropLast : Checked ε _) := by
  have hpos : 1 ≤ literals.length := List.length_pos_iff.2 h
  rw [withoutLast, Checked.sub_eq_ok hpos, List.dropLast_eq_take]
  exact Checked.take_eq_ok (Nat.sub_le _ _)

example : (withoutLast [] : Checked RuleFault _) = .error .outside := rfl

/-- The phrase that a text is written as. -/
def readPhrase (config : Config) (cs : List Char) : Checked RuleFault (List Literal) := do
  let literals ← readLiterals config cs
  let init ← withoutLast literals
  if init.any Literal.isPrefix then .error (.fault .prefixNotLast) else .ok literals

/-- A text that does not begin with a blank has a term, so its phrase has a last literal. -/
theorem readPhrase_eq (config : Config) {cs : List Char} (hne : cs ≠ [])
    (hfront : StopsAt isBlank cs) :
    readPhrase config cs = .lift (RuleText.readPhrase config cs) := by
  rw [readPhrase, RuleText.readPhrase, readLiterals_eq, Checked.lift_bind]
  cases hread : RuleText.readLiterals config cs with
  | error fault => rfl
  | ok literals =>
    have hliterals : literals ≠ [] := by
      rintro rfl
      have hlength := (mapM_eq_ok_iff.1 hread).length_eq
      exact RuleText.cutTerms_ne_nil hne hfront (List.length_eq_zero_iff.1 hlength)
    change withoutLast literals >>= _ = Checked.lift _
    rw [withoutLast_eq hliterals, Checked.lift_ite]
    rfl

/-- The trigger that a text is written as. -/
def readTrigger (config : Config) (text : String) : Checked RuleFault Trigger :=
  let cs := trim text.toList
  if cs = [] then .error (.fault .emptyInput)
  else if config.conditions ∧ (RuleText.tokens cs).any (·.token.isConditional) then
    (readCondition config cs).map (.condition · (String.ofList cs))
  else (readPhrase config cs).map .phrase

theorem readTrigger_eq (config : Config) (text : String) :
    readTrigger config text = .lift (RuleText.readTrigger config text) := by
  unfold readTrigger RuleText.readTrigger
  dsimp only
  rw [Checked.lift_ite, Checked.lift_ite, Checked.lift_map, Checked.lift_map, readCondition_eq]
  split
  · rfl
  · rename_i hne
    rw [readPhrase_eq config hne (stopsAt_trim _)]

/-! ## Instructions -/

/-- The instruction that a line is written as, for a rule with a given trigger. -/
def readBody (config : Config) (trigger : Trigger) (d : RuleText.DraftInstruction) :
    Checked RuleFault Instruction :=
  if trigger.isCondition ∧ (d.kind = .synonym ∨ d.kind = .delete) then
    .error (.fault (.notForConditions d.kind))
  else match d.kind with
    | .synonym => do
      let weight ← .lift (RuleText.readWeight d)
      let value ← .lift (RuleText.requiredValue d)
      let terms ← readLiterals config value
      return .synonym terms weight
    | .delete => do
      .lift (RuleText.refuseParam d)
      match d.value with
      | none => return .delete none
      | some value =>
        let terms ← readLiterals config value.toList
        let resolved ← .lift (RuleText.resolveTerms trigger terms)
        return .delete (some resolved)
    | _ => .lift (RuleText.readBody config trigger d)

theorem readBody_eq (config : Config) (trigger : Trigger) (d : RuleText.DraftInstruction) :
    readBody config trigger d = .lift (RuleText.readBody config trigger d) := by
  unfold readBody
  split
  · rename_i h
    rw [RuleText.readBody, if_pos h]
    rfl
  · rename_i h
    split
    · rename_i hk
      rw [RuleText.readBody, if_neg h]
      simp only [hk, readLiterals_eq, Checked.lift_bind, Checked.lift_pure]
    · rename_i hk
      rw [RuleText.readBody, if_neg h]
      simp only [hk, readLiterals_eq, Checked.lift_bind]
      refine congrArg _ (funext fun _ => ?_)
      cases d.value with
      | none => rfl
      | some value => simp only [Checked.lift_bind, Checked.lift_pure]
    · rfl

/-- The instructions of a rule, up to the first that has a fault. -/
def readInstructions (config : Config) (trigger : Trigger) (ds : List RuleText.DraftInstruction) :
    Checked RuleError (List Instruction) :=
  ds.mapM fun d => (readBody config trigger d).mapFault fun fault => ⟨some d.line, fault⟩

theorem readInstructions_eq (config : Config) (trigger : Trigger)
    (ds : List RuleText.DraftInstruction) :
    readInstructions config trigger ds = .lift (RuleText.readInstructions config trigger ds) :=
  Checked.mapM_eq_lift (fun d => by rw [readBody_eq, Checked.mapFault_lift]) ds

/-! ## Lines -/

/-- A line of a block ends it if it ends in the closing mark without a backslash before that. -/
def closesBlock (line : List Char) : Bool :=
  ['}', '@'].isSuffixOf line && !(['\\', '}', '@'].isSuffixOf line)

/-- What a line of a block holds, and whether the line ends the block. -/
def cutBlockLine {ε : Type} (line : List Char) : Checked ε (List Char × Bool) :=
  if closesBlock line then do
    let stop ← Checked.sub (byteSize line) (byteSize ['}', '@'])
    let content ← sliceTo line stop
    return (content, true)
  else match ['\\', '}', '@'].isSuffixOf? line with
    | some head => .ok (head ++ ['}', '@'], false)
    | none => .ok (line, false)

theorem cutBlockLine_eq {ε : Type} (line : List Char) :
    cutBlockLine line = (.ok (RuleText.cutBlockLine line) : Checked ε _) := by
  unfold cutBlockLine closesBlock RuleText.cutBlockLine
  simp only [← List.isSome_isSuffixOf?_eq_isSuffixOf]
  cases hescaped : ['\\', '}', '@'].isSuffixOf? line with
  | some head => simp
  | none =>
    cases hclosed : ['}', '@'].isSuffixOf? line with
    | none => simp
    | some content =>
      have hline : content ++ ['}', '@'] = line :=
        List.isSuffixOf?_eq_some_iff_append_eq.1 hclosed
      have hsize : byteSize line = byteSize content + byteSize ['}', '@'] := by
        rw [← hline, byteSize_append]
      have hstop : Checked.sub (byteSize line) (byteSize ['}', '@']) =
          (.ok (byteSize content) : Checked ε _) := by
        rw [Checked.sub_eq_ok (hsize ▸ Nat.le_add_left _ _), hsize, Nat.add_sub_cancel]
      have hcontent : sliceTo line (byteSize content) = (.ok content : Checked ε _) :=
        hline ▸ sliceTo_append content _
      simp [hstop, hcontent, bind, Except.bind, pure, Except.pure]

open RuleText (Draft OpenBlock Reader)

/-- One more line of a block. -/
def stepBlock (opened : OpenBlock) (drafts : List Draft) (line : List Char) :
    Checked RuleError Reader := do
  let (content, closed) ← cutBlockLine line
  let opened := { opened with text := opened.text ++ content ++ ['\n'] }
  if closed then .lift (RuleText.Reader.closeBlock opened drafts)
  else .ok { drafts, block := some opened }

theorem stepBlock_eq (opened : OpenBlock) (drafts : List Draft) (line : List Char) :
    stepBlock opened drafts line = .lift (RuleText.Reader.stepBlock opened drafts line) := by
  rw [stepBlock, cutBlockLine_eq, RuleText.Reader.stepBlock, Checked.lift_ite]
  rfl

/-- A line under the latest draft: a block of properties, a property or an instruction. -/
def stepRule (config : Config) (n : Nat) (line : List Char) (draft : Draft)
    (drafts : List Draft) : Checked RuleError Reader :=
  match line with
  | '@' :: '{' :: rest => stepBlock ⟨n, []⟩ (draft :: drafts) rest
  | '@' :: _ => do
    let body ← sliceFrom line 1
    let property ← .lift ((RuleText.readProperty body).mapError fun fault =>
      ⟨some n, .invalidProperty fault⟩)
    let draft ← .lift (RuleText.addProperty n draft property)
    return { drafts := draft :: drafts }
  | line => .lift (RuleText.Reader.stepRule config n line draft drafts)

theorem stepRule_eq (config : Config) (n : Nat) (line : List Char) (draft : Draft)
    (drafts : List Draft) : stepRule config n line draft drafts =
      .lift (RuleText.Reader.stepRule config n line draft drafts) := by
  unfold stepRule
  split
  · exact stepBlock_eq _ _ _
  · rename_i rest hopen
    have hbody : sliceFrom ('@' :: rest) 1 = (.ok rest : Checked RuleError _) :=
      sliceFrom_append ['@'] rest
    rw [hbody, RuleText.Reader.stepRule]
    · simp only [Checked.lift_bind]
      rfl
    · exact hopen
  · rfl

/-- A line outside blocks. -/
def stepLine (config : Config) (n : Nat) (line : List Char) (drafts : List Draft) :
    Checked RuleError Reader :=
  if line = [] ∨ line.head? = some '#' then .ok { drafts }
  else match ['=', '>'].isSuffixOf? line with
    | some input =>
      let input := trim input
      if input = [] then .error (.fault ⟨some n, .emptyInput⟩)
      else .ok { drafts := { input := String.ofList input, line := n } :: drafts }
    | none =>
      match drafts with
      | [] => .error (.fault ⟨some n, .missingInput⟩)
      | draft :: drafts => stepRule config n line draft drafts

theorem stepLine_eq (config : Config) (n : Nat) (line : List Char) (drafts : List Draft) :
    stepLine config n line drafts = .lift (RuleText.Reader.stepLine config n line drafts) := by
  unfold stepLine RuleText.Reader.stepLine
  rw [Checked.lift_ite]
  split
  · rfl
  · cases ['=', '>'].isSuffixOf? line with
    | some input =>
      dsimp only
      rw [Checked.lift_ite]
      rfl
    | none =>
      cases drafts with
      | nil => rfl
      | cons draft drafts => exact stepRule_eq config n line draft drafts

/-- One more line, with its number. -/
def step (config : Config) (reader : Reader) (line : List Char × Nat) : Checked RuleError Reader :=
  match reader.block with
  | some opened => stepBlock opened reader.drafts (trim line.1)
  | none => stepLine config line.2 (trim line.1) reader.drafts

theorem step_eq (config : Config) (reader : Reader) (line : List Char × Nat) :
    step config reader line = .lift (RuleText.Reader.step config reader line) := by
  unfold step RuleText.Reader.step
  cases reader.block with
  | some opened => exact stepBlock_eq opened _ _
  | none => exact stepLine_eq config _ _ _

/-- The drafts of rules text. -/
def readDrafts (config : Config) (text : String) : Checked RuleError (List RuleText.Draft) := do
  let reader ← ((lines text.toList).zipIdx 1).foldlM (step config) {}
  match reader.block with
  | some opened => .error (.fault ⟨some opened.line, .unclosedBlock⟩)
  | none => .ok reader.drafts.reverse

theorem readDrafts_eq (config : Config) (text : String) :
    readDrafts config text = .lift (RuleText.readDrafts config text) := by
  rw [readDrafts, RuleText.readDrafts, Checked.lift_bind,
    Checked.foldlM_eq_lift (step_eq config)]
  refine congrArg _ (funext fun reader => ?_)
  cases reader.block <;> rfl

/-! ## Rules -/

/-- The rule that a draft describes, as the rule with a given place in its text. -/
def readRule (config : Config) (draft : RuleText.Draft) (order : Nat) : Checked RuleError Rule := do
  let trigger ← (readTrigger config draft.input).mapFault fun fault => ⟨some draft.line, fault⟩
  let instructions ← readInstructions config trigger draft.instructions
  let id :=
    (Dictionary.find? draft.properties idKey).getD (RuleText.defaultId draft.input order)
  return .make trigger order id instructions (Dictionary.erase idKey draft.properties)

theorem readRule_eq (config : Config) (draft : RuleText.Draft) (order : Nat) :
    readRule config draft order = .lift (RuleText.readRule config draft order) := by
  simp only [readRule, RuleText.readRule, readTrigger_eq, readInstructions_eq,
    Checked.mapFault_lift, Checked.lift_bind, Checked.lift_pure]

/-- The rules that drafts describe, from the given place on; `taken` are the ids before it. -/
def readRulesFrom (config : Config) (order : Nat) (taken : List String) :
    List RuleText.Draft → Checked RuleError (List Rule)
  | [] => .ok []
  | draft :: drafts => do
    let rule ← readRule config draft order
    let key := rule.id.compact
    if key ∈ taken then .error (.fault ⟨some draft.line, .duplicateId rule.label⟩)
    else
      let rules ← readRulesFrom config (order + 1) (key :: taken) drafts
      return rule :: rules

theorem readRulesFrom_eq (config : Config) (order : Nat) (taken : List String)
    (drafts : List RuleText.Draft) : readRulesFrom config order taken drafts =
      .lift (RuleText.readRulesFrom config order taken drafts) := by
  induction drafts generalizing order taken with
  | nil => rfl
  | cons draft drafts ih =>
    rw [readRulesFrom, RuleText.readRulesFrom, readRule_eq, Checked.lift_bind]
    refine congrArg _ (funext fun rule => ?_)
    dsimp only
    split
    · rfl
    · rw [ih, Checked.lift_bind]
      rfl

/-- The rules of a text in order. -/
def readRules (config : Config) (text : String) : Checked RuleError (List Rule) := do
  let drafts ← readDrafts config text
  readRulesFrom config 0 [] drafts

theorem readRules_eq (config : Config) (text : String) :
    readRules config text = .lift (RuleText.readRules config text) := by
  simp only [readRules, RuleText.readRules, readDrafts_eq, readRulesFrom_eq, Checked.lift_bind]

end QueryRules.Places
