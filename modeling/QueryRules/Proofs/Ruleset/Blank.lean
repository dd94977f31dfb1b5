import QueryRules.Proofs.Match.Conditions
import QueryRules.Proofs.Ruleset.Valid

/-!
# Blank literals

Blank literals are looked for where literals are read from rules text and once more when rules are
compiled, but there only in phrases, and only those without any character.

- `checkTrigger_eq_blankLiteral_iff`, `compile_eq_blankLiteral_iff`: which rules are refused for a
  blank literal.
- `Config.metBefore_of_value_eq_empty`: a literal without any character is never met, as no walk
  spells an empty text (`text_ne_nil_of_mem_walks`).
- `Ruleset.compile_blank_spec`: which blank literals a rule set may have, and what becomes of them.
- `Ruleset.hasText_of_ofText`: the rule set of a text has none, unless the normalizer makes them.
-/

namespace QueryRules

open QueryRules.Text

/-! ## Literals that are never met -/

/-- A walk spells at least one character. -/
theorem text_ne_nil_of_mem_walks {β : Type} {word : β → List Char} {positions : List (List β)}
    {w : Walk β} (h : w ∈ walks word positions) : w.text ≠ [] := by
  cases positions with
  | nil => simp [walks] at h
  | cons alternatives positions =>
    obtain ⟨b, -, h⟩ := List.mem_flatMap.1 h
    split at h
    · simp at h
    · rename_i hne
      simp only [stops, List.mem_append, List.mem_map, List.mem_singleton] at h
      rcases h with (⟨⟨front, rest⟩, hcut, rfl⟩ | rfl) | ⟨w, -, rfl⟩
      · exact (mem_cuts.1 hcut).2.1
      · exact hne
      · exact List.append_ne_nil_of_right_ne_nil _ (List.cons_ne_nil _ _)

/-- A literal without any character is never met. -/
theorem Config.metBefore_of_value_eq_empty {l : Literal} (h : l.value = "") (config : Config)
    (sequence : Sequence) (n : Nat) : config.metBefore sequence n l = false := by
  rw [Bool.eq_false_iff, Ne, metBefore_iff]
  rintro ⟨start, -, w, hw, hmeets⟩
  have htext := (Walk.meets_singleton.1 hmeets).1.1
  rw [h] at htext
  exact text_ne_nil_of_mem_walks hw htext

namespace Ruleset

variable {config : Config} {rules : List Rule}

/-! ## Rules that are refused for a blank literal -/

/-- Among the faults of a trigger, a blank literal is one of a phrase, and has no character. -/
theorem checkTrigger_eq_blankLiteral_iff {trigger : Trigger} :
    checkTrigger trigger = .error .blankLiteral ↔
      ∃ literals, trigger = .phrase literals ∧ ∃ l ∈ literals, l.value = "" := by
  cases trigger with
  | phrase literals =>
    have hany : literals.any (·.value.isEmpty) ↔ ∃ l ∈ literals, l.value = "" := by
      simp [List.any_eq_true, String.isEmpty_iff]
    have hexists : (∃ literals', Trigger.phrase literals = .phrase literals' ∧
        ∃ l ∈ literals', l.value = "") ↔ ∃ l ∈ literals, l.value = "" := by simp
    rw [hexists, ← hany]
    unfold checkTrigger
    dsimp only
    split
    · simp [*]
    · split
      · simp [*]
      · split <;> simp [*]
  | condition c source =>
    simp only [reduceCtorEq, false_and, exists_const, iff_false]
    unfold checkTrigger
    dsimp only
    split <;> simp

theorem fault?_prepare (config : Config) (r : Rule) : fault? (prepare config r) =
    (fault? (checkTrigger (normalized config r).trigger)).map (RuleError.mk none) := by
  unfold prepare normalized
  dsimp only
  cases checkTrigger (r.mapLiterals config.normalizeLiteral).trigger <;> rfl

/-- Ids are refused for nothing but being repeated. -/
theorem checkIds_ne_blankLiteral (taken : List String) (rules : List Rule) (line : Option Nat) :
    checkIds taken rules ≠ .error ⟨line, .blankLiteral⟩ := by
  induction rules generalizing taken with
  | nil => exact nofun
  | cons r rules ih =>
    rw [checkIds]
    split
    · simp
    · exact ih _

/-- Rules are refused for their ids or as the first of them is that cannot be matched. -/
theorem fault?_compile (config : Config) (rules : List Rule) : fault? (compile config rules) =
    (fault? (checkIds [] rules)).or (rules.findSome? fun r => fault? (prepare config r)) := by
  rw [← fault?_mapM]
  unfold compile
  cases checkIds [] rules <;> cases rules.mapM (prepare config) <;> rfl

theorem fault?_prepare_eq_blankLiteral_iff {r : Rule} :
    fault? (prepare config r) = some ⟨none, .blankLiteral⟩ ↔
      ∃ literals, r.trigger = .phrase literals ∧ ∃ l ∈ literals, config.normalize l.value = "" := by
  rw [fault?_prepare, Option.map_eq_some_iff]
  simp only [fault?_eq_some_iff, RuleError.mk.injEq, true_and, exists_eq_right]
  rw [checkTrigger_eq_blankLiteral_iff, normalized, Rule.mapLiterals]
  cases r.trigger with
  | phrase literals => simp [Trigger.mapLiterals, Config.normalizeLiteral]
  | condition c source => simp [Trigger.mapLiterals]

/-- Rules are refused for a blank literal if their ids differ and the first of them that cannot be
matched has a phrase with a literal that is normalized to nothing. -/
theorem compile_eq_blankLiteral_iff : compile config rules = .error ⟨none, .blankLiteral⟩ ↔
    (rules.map fun r => r.id.compact).Nodup ∧
      ∃ before r after, rules = before ++ r :: after ∧ (∀ q ∈ before, Matchable config q) ∧
        ∃ literals, r.trigger = .phrase literals ∧
          ∃ l ∈ literals, config.normalize l.value = "" := by
  have hids : fault? (checkIds [] rules) ≠ some ⟨none, .blankLiteral⟩ :=
    mt fault?_eq_some_iff.1 (checkIds_ne_blankLiteral [] rules none)
  have hnodup : fault? (checkIds [] rules) = none ↔ (rules.map fun r => r.id.compact).Nodup := by
    have hok : checkIds [] rules = .ok () ↔ (rules.map fun r => r.id.compact).Nodup := by
      simp [checkIds_eq_ok_iff]
    rw [fault?_eq_none_iff, ← hok]
    exact Unique.exists_iff
  have hmatchable (r : Rule) : fault? (prepare config r) = none ↔ Matchable config r := by
    simp [fault?_eq_none_iff, prepare_eq_ok_iff]
  rw [← fault?_eq_some_iff, fault?_compile, Option.or_eq_some_iff, or_iff_right hids, hnodup,
    List.findSome?_eq_some_iff]
  simp only [fault?_prepare_eq_blankLiteral_iff, hmatchable]
  refine and_congr_right fun _ => exists_congr fun before => exists_congr fun r =>
    exists_congr fun after => and_congr_right fun _ => and_comm

/-! ## The blank literals of a rule set -/

/-- A blank literal of a rule that is not looked for: it stands in a condition, or normalizing has
left blanks of it. -/
def Overlooked (config : Config) (r : Rule) (l : Literal) : Prop :=
  l ∈ r.trigger.literals ∧ ¬ HasText (config.normalize l.value) ∧
    (r.trigger.isCondition ∨ config.normalize l.value ≠ "")

theorem literals_normalized (config : Config) (r : Rule) :
    (normalized config r).trigger.literals = r.trigger.literals.map config.normalizeLiteral :=
  Trigger.literals_mapLiterals _ _

/-- A literal without any character stands in a condition. -/
theorem isCondition_of_matchable {r : Rule} (hr : Matchable config r) {l : Literal}
    (hl : l ∈ r.trigger.literals) (he : config.normalize l.value = "") :
    r.trigger.isCondition := by
  have hvalid := checkTrigger_eq_ok_iff.1 hr
  rw [normalized, Rule.mapLiterals] at hvalid
  cases htrigger : r.trigger with
  | phrase literals =>
    rw [htrigger] at hvalid hl
    exact absurd he (hvalid.2.1 _ (List.mem_map_of_mem hl))
  | condition c source => rfl

/-- Rules are refused for a blank literal only if it has no character and stands in a phrase. So the
literals of a rule set have text but for those that were overlooked, and a literal without any
character stands in a condition, where it is never met. -/
theorem compile_blank_spec (config : Config) (rules : List Rule) :
    (compile config rules = .error ⟨none, .blankLiteral⟩ ↔
      (rules.map fun r => r.id.compact).Nodup ∧
        ∃ before r after, rules = before ++ r :: after ∧ (∀ q ∈ before, Matchable config q) ∧
          ∃ literals, r.trigger = .phrase literals ∧
            ∃ l ∈ literals, config.normalize l.value = "") ∧
    ∀ s, compile config rules = .ok s →
      ((∀ r ∈ s.rules, ∀ l ∈ r.trigger.literals, HasText l.value) ↔
        ∀ r ∈ rules, ∀ l, ¬ Overlooked config r l) ∧
      ∀ r ∈ s.rules, ∀ l ∈ r.trigger.literals, l.value = "" → r.trigger.isCondition ∧
        ∀ sequence n, s.config.metBefore sequence n l = false := by
  refine ⟨compile_eq_blankLiteral_iff, fun s hs => ?_⟩
  obtain ⟨-, hmatchable, -⟩ := compile_eq_ok_iff.1 hs
  simp only [rules_of_compile hs, List.forall_mem_map, literals_normalized]
  refine ⟨forall₂_congr fun r hr => forall_congr' fun l => ?_, fun r hr l hl he => ?_⟩
  · constructor
    · exact fun htext ⟨hl, hblank, _⟩ => hblank (htext hl)
    · -- a blank literal that was looked for would have been found
      intro hlooked hl
      by_contra hblank
      obtain ⟨hphrase, he⟩ := not_or.1 fun h => hlooked ⟨hl, hblank, h⟩
      exact hphrase (isCondition_of_matchable (hmatchable r hr) hl (not_not.1 he))
  · refine ⟨?_, s.config.metBefore_of_value_eq_empty he⟩
    rw [normalized, Rule.mapLiterals, Trigger.isCondition_mapLiterals]
    exact isCondition_of_matchable (hmatchable r hr) hl he

/-- The rule set of a gift without anything, a literal that no query meets. -/
theorem compile_blank_spec_gift :
    let rules := [Rule.bare "gift" (.condition
      (.all [.literal { value := "gift" }, .not (.literal { value := "" })]) "gift AND NOT")]
    ∃ s, compile {} rules = .ok s ∧
      (s.rules.map fun r => r.trigger.literals.map Literal.value) = [["gift", ""]] ∧
      ∀ r ∈ s.rules, ∀ l ∈ r.trigger.literals, l.value = "" → r.trigger.isCondition ∧
        ∀ sequence n, s.config.metBefore sequence n l = false := by
  intro rules
  have hvalues : (compile {} rules).map
      (fun s => s.rules.map fun r => r.trigger.literals.map Literal.value) =
      .ok [["gift", ""]] := by decide +kernel
  obtain ⟨s, hs, hvalues⟩ := exists_of_map_eq_ok hvalues
  exact ⟨s, hs, hvalues, ((compile_blank_spec {} rules).2 s hs).2⟩

/-- A literal without any character is taken in a condition, and one of blanks in a phrase. -/
theorem compile_blank_taken :
    let rules := [
      Rule.bare "gift" (.condition
        (.all [.literal { value := "gift" }, .not (.literal { value := "" })]) "gift AND NOT"),
      Rule.bare "space" (.phrase [{ value := " " }])]
    ∃ s, compile {} rules = .ok s ∧
      (s.rules.map fun r => r.trigger.literals.map Literal.value) = [["gift", ""], [" "]] ∧
      ¬ ∀ r ∈ s.rules, ∀ l ∈ r.trigger.literals, HasText l.value := by
  intro rules
  have hvalues : (compile {} rules).map (fun s =>
        (s.rules.map fun r => r.trigger.literals.map Literal.value,
          decide (∀ r ∈ s.rules, ∀ l ∈ r.trigger.literals, HasText l.value))) =
      .ok ([["gift", ""], [" "]], false) := by decide +kernel
  obtain ⟨s, hs, hvalues⟩ := exists_of_map_eq_ok hvalues
  obtain ⟨hvalues, htext⟩ := Prod.mk.inj hvalues
  exact ⟨s, hs, hvalues, of_decide_eq_false htext⟩

end Ruleset

/-! ## Rules text -/

/-- Text that is not blank is not blank once it is normalized. -/
def Config.KeepsText (config : Config) : Prop :=
  ∀ value, HasText value → HasText (config.normalize value)

theorem Config.keepsText_default : KeepsText {} := fun _ h => hasText_lowerIfUpper h

variable {config : Config}

namespace RuleText

theorem hasText_of_readLiteral (hc : config.KeepsText) {cs : List Char} {l : Literal}
    (h : readLiteral config cs = .ok l) : HasText l.value := by
  obtain ⟨value, hne, hl⟩ := exists_words_of_readLiteral h
  rw [hl]
  exact hc _ (hasText_unwords_words hne)

/-- The literals of a trigger that is read have text, in conditions as well as in phrases. -/
theorem hasText_of_readTrigger (hc : config.KeepsText) {text : String} {trigger : Trigger}
    (h : readTrigger config text = .ok trigger) : ∀ l ∈ trigger.literals, HasText l.value := by
  obtain ⟨-, ⟨literals, hphrase, rfl⟩ | ⟨c, hcondition, rfl⟩⟩ := exists_of_readTrigger h
  · obtain ⟨read, hread, hphrase⟩ := bind_eq_ok_iff.1 hphrase
    split at hphrase
    · exact nomatch hphrase
    · obtain rfl := Except.ok.inj hphrase
      intro l hl
      obtain ⟨cs, -, hcs⟩ := exists_of_mem_mapM hread hl
      exact hasText_of_readLiteral hc hcs
  · obtain ⟨raw, -, hcondition⟩ := bind_eq_ok_iff.1 hcondition
    obtain ⟨read, hread, hcondition⟩ := bind_eq_ok_iff.1 hcondition
    split at hcondition
    · obtain rfl := Except.ok.inj hcondition
      refine (Formula.ends_traverse (E := fun _ => True) (fun ws => ?_) raw).of_ok hread
      cases hl : readLiteral config (unwords ws) with
      | error fault => trivial
      | ok l => exact hasText_of_readLiteral hc hl
    · exact nomatch hcondition

end RuleText

/-- The literals of the rule set of a text have text. -/
theorem Ruleset.hasText_of_ofText (hc : config.KeepsText) {text : String} {s : Ruleset}
    (h : ofText config text = .ok s) :
    ∀ r ∈ s.rules, ∀ l ∈ r.trigger.literals, HasText l.value := by
  obtain ⟨rules, hread, hs⟩ := bind_eq_ok_iff.1 h
  obtain ⟨drafts, -, hread⟩ := bind_eq_ok_iff.1 hread
  simp only [rules_of_compile hs, List.forall_mem_map, literals_normalized]
  intro r hr l hl
  obtain ⟨p, -, hp⟩ := exists_mem_of_forall₂ (RuleText.forall₂_of_readRulesFrom hread) hr
  obtain ⟨trigger, htrigger, hp⟩ := bind_eq_ok_iff.1 hp
  obtain ⟨is, -, hp⟩ := bind_eq_ok_iff.1 hp
  obtain rfl := Except.ok.inj hp
  exact hc _ (RuleText.hasText_of_readTrigger hc (mapError_eq_ok_iff.1 htrigger) l hl)

end QueryRules
