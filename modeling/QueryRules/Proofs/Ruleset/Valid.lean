import QueryRules.Proofs.Json.Zeros
import QueryRules.Proofs.RuleText.Delete
import QueryRules.Proofs.RuleText.Positions

/-!
# Rules of rules text are valid

- `Trigger.Valid`, `Instruction.Valid` and `Rule.Valid` say what a rule set may rely on.
- `RuleText.valid_of_readBody`: an instruction that is read is valid for the trigger of its rule, and
  stays so when all literals are normalized (`Instruction.Valid.mapLiterals`).
- `Ruleset.valid_of_ofText`: so every rule of the rule set of a text is valid, and no two ids have
  one text. Only ids with floating-point zeros in them can be the same value nevertheless.
-/

namespace QueryRules

open QueryRules.Text

/-! ## What is valid -/

/-- A phrase has literals, all of them with a value, and only the last one may be a prefix. A
condition has a literal outside every not. -/
def Trigger.Valid : Trigger → Prop
  | .phrase literals => literals ≠ [] ∧ (∀ l ∈ literals, l.value ≠ "") ∧
      ∀ l ∈ literals.dropLast, l.isPrefix = false
  | .condition c _ => ∃ l, l ∈ c.positiveLiterals

/-- What a rule with a given trigger may do. -/
structure Instruction.Valid (config : Config) (trigger : Trigger) (i : Instruction) : Prop where
  supported : config.supports i.kind
  readable : i.IsReadable config
  /-- No instruction of a condition is about words. -/
  allowed : trigger.isCondition → i.kind ≠ .synonym ∧ i.kind ≠ .delete
  /-- The terms of a list are literals of the trigger: value, fields and prefix mark. -/
  terms : ∀ terms, i = .delete (some terms) → ∀ l ∈ terms, l ∈ trigger.literals

/-- A rule that a rule set may rely on. -/
structure Rule.Valid (config : Config) (r : Rule) : Prop where
  id : Dictionary.find? r.properties idKey = some r.id
  message : Dictionary.hasKey r.properties logKey
  trigger : r.trigger.Valid
  instructions : ∀ i ∈ r.instructions, i.Valid config r.trigger

theorem Ruleset.checkTrigger_eq_ok_iff {trigger : Trigger} :
    checkTrigger trigger = .ok () ↔ trigger.Valid := by
  cases trigger with
  | phrase literals => exact checkTrigger_phrase_iff
  | condition c source => exact checkTrigger_condition_iff.trans Formula.hasPositive_iff

/-! ## Literals that change together -/

variable {config : Config}

theorem Trigger.isCondition_mapLiterals (f : Literal → Literal) (trigger : Trigger) :
    (trigger.mapLiterals f).isCondition = trigger.isCondition := by
  cases trigger <;> rfl

theorem Trigger.literals_mapLiterals (f : Literal → Literal) (trigger : Trigger) :
    (trigger.mapLiterals f).literals = trigger.literals.map f := by
  cases trigger with
  | phrase literals => rfl
  | condition c source => exact Formula.literals_map f c

theorem Instruction.kind_mapLiterals (f : Literal → Literal) (i : Instruction) :
    (i.mapLiterals f).kind = i.kind := by
  cases i <;> rfl

/-- A list of terms whose literals change is a list of terms. -/
theorem Instruction.exists_of_mapLiterals_eq_delete {f : Literal → Literal} {i : Instruction}
    {terms : List Literal} (h : i.mapLiterals f = .delete (some terms)) :
    ∃ named, i = .delete (some named) ∧ terms = named.map f := by
  cases i with
  | delete terms =>
    cases terms with
    | none => exact nomatch h
    | some named => exact ⟨named, rfl, (Option.some.inj (Instruction.delete.inj h)).symm⟩
  | _ => exact nomatch h

/-- An instruction stays valid if its literals and those of the trigger change in the same way. -/
theorem Instruction.Valid.mapLiterals {trigger : Trigger} {i : Instruction}
    (h : i.Valid config trigger) (f : Literal → Literal) :
    (i.mapLiterals f).Valid config (trigger.mapLiterals f) where
  supported := by
    rw [kind_mapLiterals]
    exact h.supported
  readable text htext := by
    rw [query?_mapLiterals] at htext
    exact h.readable text htext
  allowed hcondition := by
    rw [Trigger.isCondition_mapLiterals] at hcondition
    rw [kind_mapLiterals]
    exact h.allowed hcondition
  terms terms he l hl := by
    obtain ⟨named, rfl, rfl⟩ := exists_of_mapLiterals_eq_delete he
    obtain ⟨k, hk, rfl⟩ := List.mem_map.1 hl
    rw [Trigger.literals_mapLiterals]
    exact List.mem_map_of_mem (h.terms named rfl k hk)

theorem Rule.make_properties_id (trigger : Trigger) (order : Nat) (id : Json)
    (instructions : List Instruction) (properties : Dictionary Json) :
    Dictionary.find? (make trigger order id instructions properties).properties idKey =
      some id := by
  unfold make
  dsimp only
  split
  · simp
  · simp [show idKey ≠ logKey by decide]

theorem Rule.make_properties_message (trigger : Trigger) (order : Nat) (id : Json)
    (instructions : List Instruction) (properties : Dictionary Json) :
    Dictionary.hasKey (make trigger order id instructions properties).properties logKey := by
  unfold make
  dsimp only
  split
  · assumption
  · simp [Dictionary.hasKey]

namespace RuleText

/-! ## Instructions -/

/-- The drafts of a text have instructions of supported kinds. -/
theorem draftInvariant_supported (config : Config) (count : Nat) :
    DraftInvariant config count fun d => ∀ i ∈ d.instructions, config.supports i.kind where
  begin _ _ _ := nofun
  instruction _ _ _ _ hd _ hi :=
    List.forall_mem_append.2 ⟨hd, List.forall_mem_singleton.2 (readInstruction_spec hi).2⟩
  properties _ _ hd := hd

theorem kind_of_boost {d : DraftInstruction} {direction : Direction} {i : Instruction}
    (h : readBody.boost config d direction = .ok i) :
    ∃ query weight, i = .boost direction query weight := by
  unfold readBody.boost at h
  obtain ⟨weight, -, h⟩ := bind_eq_ok_iff.1 h
  obtain ⟨value, -, h⟩ := bind_eq_ok_iff.1 h
  obtain ⟨query, -, h⟩ := bind_eq_ok_iff.1 h
  exact ⟨query, weight, (Except.ok.inj h).symm⟩

/-- An instruction is of the kind that its line names. A list of terms is made of literals of the
trigger. -/
theorem readBody_spec {trigger : Trigger} {d : DraftInstruction} {i : Instruction}
    (h : readBody config trigger d = .ok i) : i.kind = d.kind ∧
      (trigger.isCondition → d.kind ≠ .synonym ∧ d.kind ≠ .delete) ∧
      ∀ terms, i = .delete (some terms) → ∃ named, resolveTerms trigger named = .ok terms := by
  unfold readBody at h
  split at h
  · exact nomatch h
  · rename_i hallowed
    refine and_left_comm.1 ⟨fun hcondition => ?_, ?_⟩
    · simpa [hcondition] using hallowed
    clear hallowed
    cases hk : d.kind with
    | synonym =>
      rw [hk] at h
      obtain ⟨weight, -, h⟩ := bind_eq_ok_iff.1 h
      obtain ⟨value, -, h⟩ := bind_eq_ok_iff.1 h
      obtain ⟨terms, -, h⟩ := bind_eq_ok_iff.1 h
      obtain rfl := Except.ok.inj h
      exact ⟨rfl, nofun⟩
    | up =>
      rw [hk] at h
      obtain ⟨query, weight, rfl⟩ := kind_of_boost h
      exact ⟨rfl, nofun⟩
    | down =>
      rw [hk] at h
      obtain ⟨query, weight, rfl⟩ := kind_of_boost h
      exact ⟨rfl, nofun⟩
    | filter =>
      rw [hk] at h
      obtain ⟨_, -, h⟩ := bind_eq_ok_iff.1 h
      obtain ⟨value, -, h⟩ := bind_eq_ok_iff.1 h
      obtain ⟨query, -, h⟩ := bind_eq_ok_iff.1 h
      obtain rfl := Except.ok.inj h
      exact ⟨rfl, nofun⟩
    | delete =>
      rw [hk] at h
      obtain ⟨_, -, h⟩ := bind_eq_ok_iff.1 h
      split at h
      · obtain rfl := Except.ok.inj h
        exact ⟨rfl, nofun⟩
      · obtain ⟨named, -, h⟩ := bind_eq_ok_iff.1 h
        obtain ⟨resolved, hresolved, h⟩ := bind_eq_ok_iff.1 h
        obtain rfl := Except.ok.inj h
        refine ⟨rfl, fun terms he => ⟨named, ?_⟩⟩
        rw [hresolved, Option.some.inj (Instruction.delete.inj he)]
    | decorate =>
      rw [hk] at h
      obtain ⟨value, -, h⟩ := bind_eq_ok_iff.1 h
      obtain rfl := Except.ok.inj h
      exact ⟨rfl, nofun⟩
    | replace =>
      rw [hk] at h
      obtain rfl := Except.ok.inj h
      exact ⟨rfl, nofun⟩

/-- The terms that a list of terms stands for are literals of the trigger. -/
theorem mem_literals_of_resolveTerms {trigger : Trigger} {named resolved : List Literal}
    (h : resolveTerms trigger named = .ok resolved) : ∀ l ∈ resolved, l ∈ trigger.literals := by
  intro l hl
  obtain ⟨k, -, hfind⟩ := exists_mem_of_forall₂ (forall₂_of_resolveTerms h) hl
  exact List.mem_of_find?_eq_some hfind

/-- An instruction that is read is valid for the trigger of its rule. -/
theorem valid_of_readBody {trigger : Trigger} {d : DraftInstruction} {i : Instruction}
    (hd : config.supports d.kind) (h : readBody config trigger d = .ok i) :
    i.Valid config trigger := by
  obtain ⟨hkind, hallowed, hterms⟩ := readBody_spec h
  refine ⟨hkind ▸ hd, isReadable_of_readBody h, hkind ▸ hallowed, fun terms he => ?_⟩
  obtain ⟨named, hnamed⟩ := hterms terms he
  exact mem_literals_of_resolveTerms hnamed

/-! ## Rules -/

/-- What is read as a rule is valid but for its trigger. -/
theorem valid_of_readRule {draft : Draft} (hd : ∀ d ∈ draft.instructions, config.supports d.kind)
    {order : Nat} {r : Rule} (h : readRule config draft order = .ok r) :
    Dictionary.find? r.properties idKey = some r.id ∧ Dictionary.hasKey r.properties logKey ∧
      ∀ i ∈ r.instructions, i.Valid config r.trigger := by
  obtain ⟨trigger, -, h⟩ := bind_eq_ok_iff.1 h
  obtain ⟨is, his, h⟩ := bind_eq_ok_iff.1 h
  obtain rfl := Except.ok.inj h
  refine ⟨Rule.make_properties_id .., Rule.make_properties_message .., fun i hi => ?_⟩
  obtain ⟨d, hmem, hbody⟩ := exists_of_mem_mapM his hi
  exact valid_of_readBody (hd d hmem) (mapError_eq_ok_iff.1 hbody)

end RuleText

namespace Ruleset

/-- The rules of the rule set of a text are valid. No two of them have ids with one text, and so no
two have ids that are the same value, unless a floating-point zero stands in both. -/
theorem valid_of_ofText {text : String} {s : Ruleset} (h : ofText config text = .ok s) :
    (s.rules.Pairwise fun r q => r.id.compact ≠ q.id.compact ∧
        (r.id.Same q.id → r.id.hasZero ∧ q.id.hasZero)) ∧
      ∀ r ∈ s.rules, r.Valid config := by
  obtain ⟨rules, hrules, hs⟩ := bind_eq_ok_iff.1 h
  refine ⟨?_, fun r hr => ?_⟩
  · have hnodup := nodup_ids_of_compile hs
    rw [List.nodup_iff_pairwise_ne, List.pairwise_map] at hnodup
    refine hnodup.imp fun {r q} hne => ⟨hne, fun hsame => ?_⟩
    cases hzero : r.id.hasZero with
    | true => exact ⟨rfl, hsame.hasZero_eq ▸ hzero⟩
    | false => exact absurd (congrArg Json.compact (hsame.eq hzero)) hne
  · have htrigger := checkTrigger_eq_ok_iff.1 (checkTrigger_of_mem hs hr)
    rw [rules_of_compile hs] at hr
    obtain ⟨q, hq, rfl⟩ := List.mem_map.1 hr
    obtain ⟨drafts, hdrafts, hread⟩ := bind_eq_ok_iff.1 hrules
    obtain ⟨p, hp, hrule⟩ := exists_mem_of_forall₂ (RuleText.forall₂_of_readRulesFrom hread) hq
    have hdraft := (RuleText.ends_readDrafts (RuleText.draftInvariant_supported config _)).of_ok
      hdrafts p.1 (List.fst_mem_of_mem_zipIdx hp)
    obtain ⟨hid, hmessage, hinstructions⟩ := RuleText.valid_of_readRule hdraft hrule
    exact ⟨hid, hmessage, htrigger,
      List.forall_mem_map.2 fun i hi => (hinstructions i hi).mapLiterals _⟩

/-- A phrase with an id of its own that deletes its prefix, and a condition with queries. -/
theorem valid_of_ofText_delete :
    let text := "Running shoe* =>\n  SYNONYM(2): jog\n  DELETE: SHOE\n  @_id: 7\n" ++
      "tv AND NOT radio =>\n  UP(3): oled\n  FILTER: +new"
    ∃ s, ofText {} text = .ok s ∧ s.rules.map Rule.label = ["7", "tv AND NOT radio#1"] ∧
      (s.rules.Pairwise fun r q => r.id.compact ≠ q.id.compact ∧
        (r.id.Same q.id → r.id.hasZero ∧ q.id.hasZero)) ∧
      ∀ r ∈ s.rules, r.Valid {} := by
  intro text
  have hlabels : (ofText {} text).map (fun s => s.rules.map Rule.label) =
      .ok ["7", "tv AND NOT radio#1"] := by decide +kernel
  obtain ⟨s, hs, hlabels⟩ := exists_of_map_eq_ok hlabels
  exact ⟨s, hs, hlabels, valid_of_ofText hs⟩

/-- Both zeros are accepted as ids, since their texts differ, although they are the same value. -/
theorem valid_of_ofText_zeros :
    ∃ s, ofText {} "a =>\n@_id: 0.0\nb =>\n@_id: -0.0" = .ok s ∧
      s.rules.map Rule.label = ["0.0", "-0.0"] ∧ ¬ s.rules.Pairwise fun r q => ¬ r.id.Same q.id := by
  have hread : (ofText {} "a =>\n@_id: 0.0\nb =>\n@_id: -0.0").map (fun s =>
      s.rules.map fun r => (r.label, r.id.isZero)) = .ok [("0.0", true), ("-0.0", true)] := by
    decide +kernel
  obtain ⟨s, hs, hrules⟩ := exists_of_map_eq_ok hread
  obtain ⟨r, _, hr, hzero, hrest⟩ := List.map_eq_cons_iff.1 hrules
  obtain ⟨q, _, hq, hzero', hnil⟩ := List.map_eq_cons_iff.1 hrest
  obtain rfl := List.map_eq_nil_iff.1 hnil
  obtain ⟨hlabel, hzero⟩ := Prod.mk.inj hzero
  obtain ⟨hlabel', hzero'⟩ := Prod.mk.inj hzero'
  rw [hq] at hr
  refine ⟨s, hs, by rw [hr, List.map_cons, List.map_singleton, hlabel, hlabel'], fun hdifferent => ?_⟩
  rw [hr, List.pairwise_pair] at hdifferent
  exact hdifferent (Json.same_of_isZero hzero hzero')

end Ruleset

end QueryRules
