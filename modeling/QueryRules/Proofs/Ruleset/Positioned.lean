import QueryRules.Proofs.RuleText.Positions
import QueryRules.Proofs.RuleText.Queries
import QueryRules.Proofs.RuleText.Triggers
import QueryRules.Proofs.Ruleset.Compile
import QueryRules.Proofs.Text.Lowercase

/-!
# Faults of rules text have a line

The rules of a text are checked twice: where they are read, with a line at hand, and where they are
compiled, without one.

- `RuleText.matchable_of_readRule`, `RuleText.nodup_ids_of_readRulesFrom`: what has been read passes
  the second check, if normalizing leaves nothing empty that was not.
- `Ruleset.ofText_positioned`: so every fault of a text shows in one of its lines.
-/

namespace QueryRules

open QueryRules.Text

/-- Normalizing makes no text empty. -/
def Config.KeepsNonempty (config : Config) : Prop :=
  ∀ s : String, s ≠ "" → config.normalize s ≠ ""

theorem Config.keepsNonempty_default : KeepsNonempty {} := fun _ h => lowerIfUpper_ne_empty h

namespace RuleText

variable {config : Config}

/-- The trigger of a rule that is read can be matched, although its literals are normalized once
more. -/
theorem checkTrigger_of_readTrigger (hc : config.KeepsNonempty) {text : String} {trigger : Trigger}
    (h : readTrigger config text = .ok trigger) :
    Ruleset.checkTrigger (trigger.mapLiterals config.normalizeLiteral) = .ok () := by
  obtain ⟨hne, ⟨literals, hphrase, rfl⟩ | ⟨c, hcondition, rfl⟩⟩ := exists_of_readTrigger h
  · obtain ⟨hliterals, hread, hstars⟩ := readPhrase_spec hne (stopsAt_trim _) hphrase
    refine Ruleset.checkTrigger_phrase_iff.2 ⟨by simpa using hliterals, ?_, ?_⟩
    · rw [List.forall_mem_map]
      intro l hl
      obtain ⟨value, hvalue, he⟩ := exists_isWords_of_readLiterals hread l hl
      have hvalue' : value ≠ "" := by
        rintro rfl
        exact absurd hvalue (by decide)
      show config.normalize l.value ≠ ""
      rw [he]
      exact hc _ (hc _ hvalue')
    · rw [← List.map_dropLast, List.forall_mem_map]
      exact hstars
  · refine Ruleset.checkTrigger_condition_iff.2 ?_
    rw [Formula.hasPositive_map]
    exact hasPositive_of_readCondition hcondition

theorem matchable_of_readRule (hc : config.KeepsNonempty) {draft : Draft} {order : Nat} {r : Rule}
    (h : readRule config draft order = .ok r) : Ruleset.Matchable config r := by
  obtain ⟨trigger, htrigger, h⟩ := bind_eq_ok_iff.1 h
  obtain ⟨is, -, h⟩ := bind_eq_ok_iff.1 h
  obtain rfl := Except.ok.inj h
  exact checkTrigger_of_readTrigger hc (mapError_eq_ok_iff.1 htrigger)

/-- Rules that are read have ids that differ from one another and from those before them. -/
theorem nodup_ids_of_readRulesFrom {drafts : List Draft} {order : Nat} {taken : List String}
    {rules : List Rule} (h : readRulesFrom config order taken drafts = .ok rules) :
    (rules.map fun r => r.id.compact).Nodup ∧ ∀ r ∈ rules, r.id.compact ∉ taken := by
  induction drafts generalizing order taken rules with
  | nil =>
    obtain rfl := Except.ok.inj h
    simp
  | cons draft drafts ih =>
    obtain ⟨r, -, h⟩ := bind_eq_ok_iff.1 h
    dsimp only at h
    split at h
    · exact nomatch h
    · rename_i hr
      obtain ⟨rs, hrs, h⟩ := bind_eq_ok_iff.1 h
      obtain rfl := Except.ok.inj h
      obtain ⟨hnodup, hfresh⟩ := ih hrs
      rw [List.map_cons, List.nodup_cons, List.forall_mem_cons]
      refine ⟨⟨fun hmem => ?_, hnodup⟩, hr, fun q hq hmem => ?_⟩
      · obtain ⟨q, hq, he⟩ := List.mem_map.1 hmem
        exact hfresh q hq (he ▸ List.mem_cons_self)
      · exact hfresh q hq (List.mem_cons_of_mem _ hmem)

end RuleText

namespace Ruleset

variable {config : Config}

/-- The rules that are read from a text can be compiled. -/
theorem exists_compile_of_readRules (hc : config.KeepsNonempty) {text : String} {rules : List Rule}
    (h : RuleText.readRules config text = .ok rules) : ∃ s, compile config rules = .ok s := by
  obtain ⟨drafts, -, hrules⟩ := bind_eq_ok_iff.1 h
  refine ⟨_, compile_eq_ok_iff.2 ⟨(RuleText.nodup_ids_of_readRulesFrom hrules).1, ?_, rfl⟩⟩
  intro r hr
  obtain ⟨p, -, hp⟩ := exists_mem_of_forall₂ (RuleText.forall₂_of_readRulesFrom hrules) hr
  exact RuleText.matchable_of_readRule hc hp

/-- If normalizing makes no text empty, the fault of a text shows in one of its lines: what is read
from it can be compiled. -/
theorem ofText_positioned (hc : config.KeepsNonempty) (text : String) :
    (∀ e, ofText config text = .error e →
        ∃ n, e.line = some n ∧ 1 ≤ n ∧ n ≤ (lines text.toList).length) ∧
      ∀ rules, RuleText.readRules config text = .ok rules → ∃ s, compile config rules = .ok s := by
  refine ⟨fun e he => ?_, fun rules hrules => exists_compile_of_readRules hc hrules⟩
  cases hread : RuleText.readRules config text with
  | error fault =>
    rw [ofText, hread] at he
    obtain rfl := Except.error.inj he
    exact (RuleText.ends_readRules config text).of_error hread
  | ok rules =>
    obtain ⟨s, hs⟩ := exists_compile_of_readRules hc hread
    rw [ofText, hread] at he
    exact nomatch hs.symm.trans he

/-- A parameter that is no number shows in its line, and without it the rules can be compiled. -/
theorem ofText_positioned_weight :
    let faulty := "red shoe =>\n  UP: cheap\ntv* =>\n  UP(x): oled\n"
    let sound := "red shoe =>\n  UP: cheap\ntv* =>\n  UP(2): oled\n"
    (∃ e, ofText {} faulty = .error e ∧ e.line = some 4 ∧
      ∃ n, e.line = some n ∧ 1 ≤ n ∧ n ≤ (lines faulty.toList).length) ∧
    ∃ rules, RuleText.readRules {} sound = .ok rules ∧ ∃ s, compile {} rules = .ok s := by
  intro faulty sound
  have hfaulty : fault? (ofText {} faulty) = some ⟨some 4, .invalidParam .up "x"⟩ := by
    decide +kernel
  have hsound : (RuleText.readRules {} sound).map List.length = .ok 2 := by decide +kernel
  obtain ⟨rules, hrules, -⟩ := exists_of_map_eq_ok hsound
  have hfaulty := fault?_eq_some_iff.1 hfaulty
  exact ⟨⟨_, hfaulty, rfl, (ofText_positioned Config.keepsNonempty_default faulty).1 _ hfaulty⟩,
    rules, hrules, (ofText_positioned Config.keepsNonempty_default sound).2 rules hrules⟩

end Ruleset

end QueryRules
