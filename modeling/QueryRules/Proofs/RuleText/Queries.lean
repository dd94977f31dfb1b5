import QueryRules.Proofs.Except
import QueryRules.Proofs.Ruleset.Compile

/-!
# Queries in rules text

- `Instruction.IsReadable`: the query of an instruction, if it has one that is parsed, can be read.
- `RuleText.isReadable_of_readBody`: so it is for every instruction that is read from rules text.
- `Ruleset.isReadable_of_ofText`: and for the instructions of a rule set of rules text, which are
  read again when a request is made.
-/

namespace QueryRules

/-- The query of an instruction, if it has one that is parsed, can be read. -/
def Instruction.IsReadable (config : Config) (i : Instruction) : Prop :=
  ∀ text, i.query? = some (.parsed text) → ∃ q, config.readQuery text = .ok q

theorem Instruction.query?_mapLiterals (f : Literal → Literal) (i : Instruction) :
    (i.mapLiterals f).query? = i.query? := by
  cases i <;> rfl

namespace RuleText

variable {config : Config}

/-- A query of rules text that is parsed has been read once. -/
theorem exists_readQuery {kind : InstructionKind} {value : List Char} {text : String}
    (h : readQueryText config kind value = .ok (.parsed text)) :
    ∃ q, config.readQuery text = .ok q := by
  unfold readQueryText at h
  split at h
  · dsimp only at h
    split at h
    · exact nomatch h
    · exact nomatch h
  · dsimp only at h
    split at h
    · rename_i q hq
      obtain rfl := QueryText.parsed.inj (Except.ok.inj h)
      exact ⟨q, hq⟩
    · exact nomatch h

/-- An instruction without a query has none that cannot be read. -/
theorem isReadable_of_none {i : Instruction} (h : i.query? = none) : i.IsReadable config := by
  intro text hquery
  rw [h] at hquery
  exact nomatch hquery

/-- An instruction with a query of rules text has one that can be read. -/
theorem isReadable_of_readQueryText {i : Instruction} {kind : InstructionKind} {value : List Char}
    {query : QueryText} (hquery : readQueryText config kind value = .ok query)
    (hi : i.query? = some query) : i.IsReadable config := by
  intro text htext
  rw [Option.some.inj (hi.symm.trans htext)] at hquery
  exact exists_readQuery hquery

theorem isReadable_boost {d : DraftInstruction} {direction : Direction} {i : Instruction}
    (h : readBody.boost config d direction = .ok i) : i.IsReadable config := by
  unfold readBody.boost at h
  obtain ⟨weight, -, h⟩ := bind_eq_ok_iff.1 h
  obtain ⟨value, -, h⟩ := bind_eq_ok_iff.1 h
  obtain ⟨query, hquery, h⟩ := bind_eq_ok_iff.1 h
  obtain rfl := Except.ok.inj h
  exact isReadable_of_readQueryText hquery rfl

/-- The query of an instruction of rules text can be read. -/
theorem isReadable_of_readBody {trigger : Trigger} {d : DraftInstruction} {i : Instruction}
    (h : readBody config trigger d = .ok i) : i.IsReadable config := by
  unfold readBody at h
  split at h
  · exact nomatch h
  · cases hk : d.kind with
    | synonym =>
      rw [hk] at h
      obtain ⟨weight, -, h⟩ := bind_eq_ok_iff.1 h
      obtain ⟨value, -, h⟩ := bind_eq_ok_iff.1 h
      obtain ⟨terms, -, h⟩ := bind_eq_ok_iff.1 h
      obtain rfl := Except.ok.inj h
      exact isReadable_of_none rfl
    | up =>
      rw [hk] at h
      exact isReadable_boost h
    | down =>
      rw [hk] at h
      exact isReadable_boost h
    | filter =>
      rw [hk] at h
      obtain ⟨_, -, h⟩ := bind_eq_ok_iff.1 h
      obtain ⟨value, -, h⟩ := bind_eq_ok_iff.1 h
      obtain ⟨query, hquery, h⟩ := bind_eq_ok_iff.1 h
      obtain rfl := Except.ok.inj h
      exact isReadable_of_readQueryText hquery rfl
    | delete =>
      rw [hk] at h
      obtain ⟨_, -, h⟩ := bind_eq_ok_iff.1 h
      split at h
      · obtain rfl := Except.ok.inj h
        exact isReadable_of_none rfl
      · obtain ⟨terms, -, h⟩ := bind_eq_ok_iff.1 h
        obtain ⟨named, -, h⟩ := bind_eq_ok_iff.1 h
        obtain rfl := Except.ok.inj h
        exact isReadable_of_none rfl
    | decorate =>
      rw [hk] at h
      obtain ⟨value, -, h⟩ := bind_eq_ok_iff.1 h
      obtain rfl := Except.ok.inj h
      exact isReadable_of_none rfl
    | replace =>
      rw [hk] at h
      obtain rfl := Except.ok.inj h
      exact isReadable_of_none rfl

theorem isReadable_of_readInstructions {trigger : Trigger} {ds : List DraftInstruction}
    {is : List Instruction} (h : readInstructions config trigger ds = .ok is) :
    ∀ i ∈ is, i.IsReadable config := by
  intro i hi
  obtain ⟨d, -, hd⟩ := exists_of_mem_mapM h hi
  exact isReadable_of_readBody (mapError_eq_ok_iff.1 hd)

theorem isReadable_of_readRule {draft : Draft} {order : Nat} {r : Rule}
    (h : readRule config draft order = .ok r) : ∀ i ∈ r.instructions, i.IsReadable config := by
  obtain ⟨trigger, -, h⟩ := bind_eq_ok_iff.1 h
  obtain ⟨is, his, h⟩ := bind_eq_ok_iff.1 h
  obtain rfl := Except.ok.inj h
  exact isReadable_of_readInstructions his

/-- The rules of a text are read from its drafts, one from each with its place. -/
theorem forall₂_of_readRulesFrom {drafts : List Draft} {order : Nat} {taken : List String}
    {rules : List Rule} (h : readRulesFrom config order taken drafts = .ok rules) :
    List.Forall₂ (fun p r => readRule config p.1 p.2 = .ok r) (drafts.zipIdx order) rules := by
  induction drafts generalizing order taken rules with
  | nil =>
    obtain rfl := Except.ok.inj h
    exact .nil
  | cons draft drafts ih =>
    obtain ⟨r, hr, h⟩ := bind_eq_ok_iff.1 h
    dsimp only at h
    split at h
    · exact nomatch h
    · obtain ⟨rs, hrs, h⟩ := bind_eq_ok_iff.1 h
      obtain rfl := Except.ok.inj h
      exact .cons hr (ih hrs)

/-- The queries of the rules of a text can be read. -/
theorem isReadable_of_readRules {text : String} {rules : List Rule}
    (h : readRules config text = .ok rules) :
    ∀ r ∈ rules, ∀ i ∈ r.instructions, i.IsReadable config := by
  obtain ⟨drafts, -, hrules⟩ := bind_eq_ok_iff.1 h
  intro r hr
  obtain ⟨p, -, hp⟩ := exists_mem_of_forall₂ (forall₂_of_readRulesFrom hrules) hr
  exact isReadable_of_readRule hp

end RuleText

/-- So can those of its rule set: normalizing literals has not changed them. -/
theorem Ruleset.isReadable_of_ofText {config : Config} {text : String} {s : Ruleset}
    (h : ofText config text = .ok s) : ∀ r ∈ s.rules, ∀ i ∈ r.instructions,
      i.IsReadable s.config := by
  obtain ⟨rules, hrules, hs⟩ := bind_eq_ok_iff.1 h
  rw [rules_of_compile hs, config_of_compile hs]
  intro r hr i hi
  obtain ⟨q, hq, rfl⟩ := List.mem_map.1 hr
  obtain ⟨j, hj, rfl⟩ := List.mem_map.1 hi
  intro text hquery
  rw [Instruction.query?_mapLiterals] at hquery
  exact RuleText.isReadable_of_readRules hrules q hq j hj text hquery

end QueryRules
