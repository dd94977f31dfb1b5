import QueryRules.Proofs.Formula
import QueryRules.Proofs.Match.Actions
import QueryRules.Proofs.Match.Independence
import QueryRules.Proofs.Match.Occurrences

/-!
# Actions are exact

For compiled rules whose literals consist of words, and a sequence without spaces in its terms:

- `Ruleset.phraseFirings_exact`: the actions of phrases hold every occurrence of every phrase once,
  and nothing else.
- `Ruleset.conditionActions_exact`: a rule with a condition has one action if the condition holds
  over the literals that occur, and none otherwise.
-/

namespace QueryRules.Ruleset

variable {config : Config} {rules : List Rule} {s : Ruleset} {sequence : Sequence}

/-! ## Phrases -/

theorem phrase_ne_nil (hs : compile config rules = .ok s) {r : Rule} (hr : r ∈ s.rules)
    {literals : List Literal} (ht : r.trigger = .phrase literals) : literals ≠ [] := by
  have hcheck := checkTrigger_of_mem hs hr
  rw [ht] at hcheck
  exact (checkTrigger_phrase hcheck).1

/-- The actions that are not those of a condition hold, for every rule with a phrase, every start
and every choice of alternatives that fits the phrase, one match, and nothing else. -/
theorem phraseFirings_exact (hs : compile config rules = .ok s)
    (hwords : ∀ r ∈ s.rules, ∀ literals, r.trigger = .phrase literals → HaveWords literals)
    (hsplit : sequence.IsSplit config) :
    (((s.actions sequence).filter fun a => !a.isCondition).flatMap Action.firings).Perm
      (s.rules.flatMap fun r =>
        match r.trigger with
        | .phrase literals => (config.occurrences sequence literals).map fun f => (r, f)
        | .condition .. => []) := by
  have h := indexed_of_compile hs
  refine ((h.filter_isCondition_perm sequence).flatMap_right _).trans ?_
  refine (h.phraseFirings_perm sequence).trans (.of_eq ?_)
  refine List.flatMap_congr fun r hr => ?_
  cases ht : r.trigger with
  | condition f source => rfl
  | phrase literals =>
    rw [config_of_compile hs]
    exact congrArg _
      (config.phraseFirings_eq (phrase_ne_nil hs hr ht) (hwords r hr literals ht) hsplit)

/-- Phrases that share the start of their text, over two alternatives at the second position. -/
theorem phraseFirings_exact_shared :
    let rules := [.bare "a" (.phrase [{ value := "big" }, { value := "house" }]),
      .bare "b" (.phrase [{ value := "Big hou", isPrefix := true }]),
      .bare "c" (.condition (.literal { value := "big" }) "")]
    let big : Candidate := { id := 1, value := "Big" }
    let house : Candidate := { id := 2, value := "house" }
    let houses : Candidate := { id := 3, value := "houses" }
    ∃ s, compile {} rules = .ok s ∧
      ((((s.actions ⟨[[big], [house, houses]]⟩).filter fun a => !a.isCondition).flatMap
        Action.firings).map Prod.snd).Perm
          [⟨0, 2, [big, house], none⟩, ⟨0, 2, [big, house], some "se"⟩,
            ⟨0, 2, [big, houses], some "ses"⟩] := by
  intro rules big house houses
  have hs : compile {} rules = .ok (build {} (rules.map (normalized {}))) :=
    compile_eq_ok_iff.2 ⟨by decide +kernel, by decide +kernel, rfl⟩
  have hwords : ∀ r ∈ (build {} (rules.map (normalized {}))).rules, ∀ literals,
      r.trigger = .phrase literals → HaveWords literals := by
    rw [rules_of_compile hs]
    intro r hr literals ht
    simp only [rules, List.map_cons, List.map_nil, List.mem_cons, List.not_mem_nil, or_false] at hr
    rcases hr with rfl | rfl | rfl
    · obtain rfl := Trigger.phrase.inj ht
      decide +kernel
    · obtain rfl := Trigger.phrase.inj ht
      decide +kernel
    · exact nomatch ht
  have hsplit : Sequence.IsSplit ⟨[[big], [house, houses]]⟩ {} := by decide +kernel
  refine ⟨_, hs, ((phraseFirings_exact hs hwords hsplit).map Prod.snd).trans (.of_eq ?_)⟩
  decide +kernel

/-! ## Conditions -/

theorem length_flatMap_eq_filter {α β : Type} {p : α → Bool} {f : α → List β} {as : List α}
    (h : ∀ a ∈ as, (f a).length = if p a then 1 else 0) :
    (as.flatMap f).length = (as.filter p).length := by
  induction as with
  | nil => rfl
  | cons a as ih =>
    obtain ⟨ha, hs⟩ := List.forall_mem_cons.1 h
    rw [List.flatMap_cons, List.length_append, ha, ih hs, List.filter_cons]
    split <;> simp [Nat.add_comm]

/-- Rules of a rule set with one id are one rule. -/
theorem rule_eq_of_id (hs : compile config rules = .ok s) {r q : Rule} (hr : r ∈ s.rules)
    (hq : q ∈ s.rules) (he : q.id.compact = r.id.compact) : q = r :=
  List.inj_on_of_nodup_map (nodup_ids_of_compile hs) hq hr he

/-- The actions of a rule with a condition have no other rule. -/
theorem rules_eq_singleton (hs : compile config rules = .ok s) {r : Rule} (hr : r ∈ s.rules)
    (ht : r.trigger.isCondition = true) {a : Action} (ha : a ∈ s.actions sequence) :
    (∀ q ∈ a.rules, q.id.compact ≠ r.id.compact) ∨ a.rules = [r] := by
  rcases (indexed_of_compile hs).rules_action ha with hphrase | ⟨q, hq, hrules, -⟩
  · refine .inl fun q hq he => ?_
    obtain ⟨hq, hc⟩ := hphrase q hq
    rw [rule_eq_of_id hs hr hq he, ht] at hc
    exact nomatch hc
  · by_cases he : q.id.compact = r.id.compact
    · exact .inr (rule_eq_of_id hs hr hq he ▸ hrules)
    · refine .inl fun q' hq' => ?_
      rw [hrules, List.mem_singleton] at hq'
      exact hq' ▸ he

/-- The actions that report the rule with an id. -/
def actionsOf (s : Ruleset) (sequence : Sequence) (id : Json) : List Action :=
  (s.actions sequence).filter fun a => a.rules.any fun q => q.id.compact = id.compact

/-- A rule with a condition has one action, which is its own, if the condition holds over the
literals that occur in the sequence, and no action otherwise. -/
theorem conditionActions_exact (hs : compile config rules = .ok s) {r : Rule} (hr : r ∈ s.rules)
    {f : Condition} {source : String} (ht : r.trigger = .condition f source)
    (hwords : HaveWords f.literals) (hsplit : sequence.IsSplit config) :
    (s.actionsOf sequence r.id).map Action.rules =
      if f.holds (config.occurs sequence) then [[r]] else [] := by
  have hc : r.trigger.isCondition = true := by rw [ht]; rfl
  have hlength : (s.actionsOf sequence r.id).length =
      if f.holds (config.occurs sequence) then 1 else 0 := by
    have hfirings : (s.actionsOf sequence r.id).length = (s.firingsOf sequence r.id).length := by
      unfold firingsOf firings actionsOf
      rw [List.filterMap_flatMap]
      refine (length_flatMap_eq_filter fun a ha => ?_).symm
      rcases rules_eq_singleton hs hr hc ha with hne | hrules
      · have hany : (a.rules.any fun q => q.id.compact = r.id.compact) = false := by
          simpa using hne
        have hnone : (a.firings.filterMap fun p =>
            if p.1.id.compact = r.id.compact then some p.2 else none) = [] := by
          rw [Action.firings, List.filterMap_map, List.filterMap_eq_nil_iff]
          exact fun q hq => if_neg (hne q hq)
        rw [hany, hnone]
        rfl
      · simp [Action.firings, hrules]
    have hholds : f.holds (config.metBefore sequence sequence.size) =
        f.holds (config.occurs sequence) :=
      Formula.holds_congr fun l hl => config.metBefore_eq_occurs (hwords l hl) hsplit
    rw [hfirings, (firingsOf_perm hs hr sequence).length_eq, ht, Config.firings,
      Config.conditionFirings, List.length_map, Config.length_occasions, hholds]
  have hrules : ∀ a ∈ s.actionsOf sequence r.id, a.rules = [r] := by
    intro a ha
    obtain ⟨ha, hany⟩ := List.mem_filter.1 ha
    rcases rules_eq_singleton hs hr hc ha with hne | hrules
    · obtain ⟨q, hq, he⟩ := List.any_eq_true.1 hany
      exact absurd (of_decide_eq_true he) (hne q hq)
    · exact hrules
  have hreplicate : (s.actionsOf sequence r.id).map Action.rules =
      List.replicate (s.actionsOf sequence r.id).length [r] := by
    rw [List.eq_replicate_iff, List.length_map]
    refine ⟨rfl, fun rs hrs => ?_⟩
    obtain ⟨a, ha, rfl⟩ := List.mem_map.1 hrs
    exact hrules a ha
  rw [hreplicate, hlength]
  split <;> rfl

/-- Two conditions share their literals; one of them has a not. -/
theorem conditionActions_exact_shared :
    let big : Condition := .literal { value := "Big house" }
    let red : Condition := .literal { value := "re", isPrefix := true }
    let rules := [.bare "a" (.condition (.all [big, .not red]) ""),
      .bare "b" (.condition (.any [big, red]) "")]
    ∃ s, compile {} rules = .ok s ∧ ∃ r ∈ s.rules,
      (s.actionsOf (.ofValues ["a", "big", "House"]) r.id).map Action.rules = [[r]] ∧
      (s.actionsOf (.ofValues ["big", "house", "red"]) r.id).map Action.rules = [] := by
  intro big red rules
  let f : Condition := Formula.map (Config.normalizeLiteral {}) (.all [big, .not red])
  have hs : compile {} rules = .ok (build {} (rules.map (normalized {}))) :=
    compile_eq_ok_iff.2 ⟨by decide +kernel, by decide +kernel, rfl⟩
  have hr : normalized {} (.bare "a" (.condition (.all [big, .not red]) "")) ∈
      (build {} (rules.map (normalized {}))).rules := by
    rw [rules_of_compile hs]
    exact List.mem_cons_self
  have hwords : HaveWords f.literals := by decide +kernel
  have hholds : f.holds (Config.occurs {} (.ofValues ["a", "big", "House"])) = true := by
    decide +kernel
  have hnot : f.holds (Config.occurs {} (.ofValues ["big", "house", "red"])) = false := by
    decide +kernel
  have hone := conditionActions_exact hs hr rfl hwords
    (show (Sequence.ofValues ["a", "big", "House"]).IsSplit {} by decide +kernel)
  have hnone := conditionActions_exact hs hr rfl hwords
    (show (Sequence.ofValues ["big", "house", "red"]).IsSplit {} by decide +kernel)
  rw [hholds] at hone
  rw [hnot] at hnone
  exact ⟨_, hs, _, hr, hone, hnone⟩

end QueryRules.Ruleset
