import QueryRules.Proofs.Except
import QueryRules.Proofs.Ruleset.Indexed

/-!
# Compiled rule sets

`Ruleset.compile_eq_ok_iff`: a list of rules can be compiled if no two ids have the same compact
text and every trigger can be matched, and then the rule set is built from the rules with their
literals normalized. So every rule of a rule set can also be compiled alone
(`Ruleset.compile_singleton`).
-/

namespace QueryRules

namespace Ruleset

theorem checkIds_eq_ok_iff {taken : List String} {rules : List Rule} :
    checkIds taken rules = .ok () ↔ (rules.map fun r => r.id.compact).Nodup ∧
      ∀ r ∈ rules, r.id.compact ∉ taken := by
  induction rules generalizing taken with
  | nil => simp [checkIds]
  | cons r rules ih =>
    unfold checkIds
    dsimp only
    rw [List.map_cons, List.nodup_cons, List.forall_mem_cons]
    split
    · rename_i h
      simp [h]
    · rename_i h
      rw [ih]
      simp only [List.mem_cons, not_or, List.mem_map]
      constructor
      · rintro ⟨hn, hr⟩
        exact ⟨⟨fun ⟨q, hq, he⟩ => (hr q hq).1 he, hn⟩, h, fun q hq => (hr q hq).2⟩
      · rintro ⟨⟨hne, hn⟩, -, hr⟩
        exact ⟨hn, fun q hq => ⟨fun he => hne ⟨q, hq, he⟩, hr q hq⟩⟩

/-- A rule with its literals normalized. -/
def normalized (config : Config) (r : Rule) : Rule := r.mapLiterals config.normalizeLiteral

/-- The trigger of a rule can be matched once its literals are normalized. -/
def Matchable (config : Config) (r : Rule) : Prop :=
  checkTrigger (normalized config r).trigger = .ok ()

instance (config : Config) (r : Rule) : Decidable (Matchable config r) :=
  inferInstanceAs (Decidable (checkTrigger (normalized config r).trigger = .ok ()))

theorem prepare_eq_ok_iff {config : Config} {r q : Rule} :
    prepare config r = .ok q ↔ Matchable config r ∧ q = normalized config r := by
  unfold prepare Matchable
  change ((checkTrigger (normalized config r).trigger).mapError (RuleError.mk none) >>=
    fun _ => pure (normalized config r)) = .ok q ↔ _
  simp only [bind_eq_ok_iff, mapError_eq_ok_iff, Unique.exists_iff, pure, Except.pure,
    Except.ok.injEq]
  exact and_congr_right fun _ => eq_comm

theorem mapM_prepare_eq_ok_iff {config : Config} {rules prepared : List Rule} :
    rules.mapM (prepare config) = .ok prepared ↔
      (∀ r ∈ rules, Matchable config r) ∧ prepared = rules.map (normalized config) := by
  rw [mapM_eq_ok_iff]
  simp only [prepare_eq_ok_iff]
  induction rules generalizing prepared with
  | nil => simp [List.forall₂_nil_left_iff]
  | cons r rules ih =>
    rw [List.forall₂_cons_left_iff, List.forall_mem_cons, List.map_cons]
    simp only [ih]
    constructor
    · rintro ⟨q, qs, ⟨hr, rfl⟩, ⟨hrules, rfl⟩, rfl⟩
      exact ⟨⟨hr, hrules⟩, rfl⟩
    · rintro ⟨⟨hr, hrules⟩, rfl⟩
      exact ⟨_, _, ⟨hr, rfl⟩, ⟨hrules, rfl⟩, rfl⟩

/-- Which rules can be compiled, and what they are compiled to. -/
theorem compile_eq_ok_iff {config : Config} {rules : List Rule} {s : Ruleset} :
    compile config rules = .ok s ↔ (rules.map fun r => r.id.compact).Nodup ∧
      (∀ r ∈ rules, Matchable config r) ∧ s = build config (rules.map (normalized config)) := by
  have hids : checkIds [] rules = .ok () ↔ (rules.map fun r => r.id.compact).Nodup := by
    simp [checkIds_eq_ok_iff]
  unfold compile
  simp only [bind_eq_ok_iff, mapM_prepare_eq_ok_iff, Unique.exists_iff, pure, Except.pure,
    Except.ok.injEq]
  rw [hids]
  constructor
  · rintro ⟨hnodup, _, ⟨hrules, rfl⟩, rfl⟩
    exact ⟨hnodup, hrules, rfl⟩
  · rintro ⟨hnodup, hrules, rfl⟩
    exact ⟨hnodup, _, ⟨hrules, rfl⟩, rfl⟩

/-- A rule of a rule set can be compiled alone. -/
theorem compile_singleton {config : Config} {rules : List Rule} {s : Ruleset}
    (h : compile config rules = .ok s) {r : Rule} (hr : r ∈ rules) :
    compile config [r] = .ok (build config [normalized config r]) := by
  obtain ⟨-, hm, -⟩ := compile_eq_ok_iff.1 h
  exact compile_eq_ok_iff.2 ⟨by simp, by simpa using hm r hr, rfl⟩

variable {config : Config} {rules : List Rule} {s : Ruleset}

theorem rules_of_compile (h : compile config rules = .ok s) :
    s.rules = rules.map (normalized config) := by
  obtain ⟨-, -, rfl⟩ := compile_eq_ok_iff.1 h
  exact (indexed_build _ _).2.1

theorem config_of_compile (h : compile config rules = .ok s) : s.config = config := by
  obtain ⟨-, -, rfl⟩ := compile_eq_ok_iff.1 h
  exact (indexed_build _ _).1

theorem indexed_of_compile (h : compile config rules = .ok s) : s.Indexed s.rules := by
  obtain ⟨-, -, rfl⟩ := compile_eq_ok_iff.1 h
  obtain ⟨-, hrules, hi⟩ := indexed_build config (rules.map (normalized config))
  exact hrules.symm ▸ hi

/-- The trigger of every rule of a rule set can be matched. -/
theorem checkTrigger_of_mem (h : compile config rules = .ok s) {r : Rule} (hr : r ∈ s.rules) :
    checkTrigger r.trigger = .ok () := by
  rw [rules_of_compile h] at hr
  obtain ⟨q, hq, rfl⟩ := List.mem_map.1 hr
  exact (compile_eq_ok_iff.1 h).2.1 q hq

/-- A phrase can be matched if it has literals, all of them have a value and only the last one may be
a prefix. -/
theorem checkTrigger_phrase_iff {literals : List Literal} :
    checkTrigger (.phrase literals) = .ok () ↔ literals ≠ [] ∧ (∀ l ∈ literals, l.value ≠ "") ∧
      ∀ l ∈ literals.dropLast, l.isPrefix = false := by
  have hvalues : literals.any (·.value.isEmpty) = false ↔ ∀ l ∈ literals, l.value ≠ "" := by
    simp [List.any_eq_false, String.isEmpty_iff]
  have hstars : literals.dropLast.any Literal.isPrefix = false ↔
      ∀ l ∈ literals.dropLast, l.isPrefix = false := by
    simp [List.any_eq_false]
  rw [← hvalues, ← hstars]
  unfold checkTrigger
  dsimp only
  split
  · simp [*]
  · split
    · simp [*]
    · split <;> simp [*]

theorem checkTrigger_condition_iff {c : Condition} {source : String} :
    checkTrigger (.condition c source) = .ok () ↔ c.hasPositive := by
  simp [checkTrigger]

/-- A phrase that can be matched has literals, and only its last one may be a prefix. -/
theorem checkTrigger_phrase {literals : List Literal} (h : checkTrigger (.phrase literals) = .ok ()) :
    literals ≠ [] ∧ ∀ l ∈ literals.dropLast, l.isPrefix = false :=
  have hchecked := checkTrigger_phrase_iff.1 h
  ⟨hchecked.1, hchecked.2.2⟩

/-- The rules of a rule set have different ids. -/
theorem nodup_ids_of_compile (h : compile config rules = .ok s) :
    (s.rules.map fun r => r.id.compact).Nodup := by
  rw [rules_of_compile h, List.map_map]
  exact (compile_eq_ok_iff.1 h).1

end Ruleset

/-- A rule that does nothing where its trigger is met. -/
def Rule.bare (name : String) (trigger : Trigger) : Rule := .make trigger 0 (.string name) [] []

end QueryRules
