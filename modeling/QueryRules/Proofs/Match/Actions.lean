import QueryRules.Proofs.Match.Firings

/-!
# The actions of a scan

- `Ruleset.Indexed.rules_action`: an action has either rules with phrases or one rule with a
  condition. It has at least one rule (`rules_ne_nil`).
- `Config.coverage_bounds`: the positions that a condition covers are positions of the sequence.
- `Ruleset.mem_flatten_of_mem_scan`: the terms of an action are alternatives of the sequence.
- `Ruleset.Indexed.span?_of_mem_scan`: so the terms of an action for a condition are those that the
  checked `Sequence.span?` finds at its positions, whatever has been reported before.
-/

namespace QueryRules

/-- A walk from a position of a sequence stays in the sequence. -/
theorem Walk.span_bounds {sequence : Sequence} {word : Candidate → List Char} {start : Nat}
    {w : Walk Candidate} (h : w ∈ sequence.walksFrom word start) :
    (w.span start).start ≤ (w.span start).stop ∧ (w.span start).stop ≤ sequence.size := by
  obtain ⟨hpos, hle⟩ := length_taken h
  rw [List.length_drop] at hle
  unfold Walk.span Sequence.size
  dsimp only
  omega

/-- A hull stays where its spans are. -/
theorem Span.hullOf_bounds {ss : List Span} {h : Span} {n : Nat} (hh : hullOf ss = some h)
    (hs : ∀ s ∈ ss, s.start ≤ s.stop ∧ s.stop ≤ n) : h.start ≤ h.stop ∧ h.stop ≤ n := by
  obtain ⟨⟨s, hm, hstart⟩, ⟨t, ht, hstop⟩, hall⟩ := hullOf_eq_some.1 hh
  have := hs s hm
  have := hs t ht
  have := hall s hm
  omega

/-- The positions that a condition covers are positions of the sequence. -/
theorem Config.coverage_bounds (config : Config) (sequence : Sequence) (f : Condition) (n : Nat) :
    (config.coverage sequence f n).start ≤ (config.coverage sequence f n).stop ∧
      (config.coverage sequence f n).stop ≤ sequence.size := by
  unfold coverage
  cases hh : Span.hullOf (f.positiveLiterals.flatMap (config.spansBefore sequence n)) with
  | none => exact ⟨Nat.zero_le _, Nat.le_refl _⟩
  | some h =>
    refine Span.hullOf_bounds hh fun s hs => ?_
    obtain ⟨l, -, hs⟩ := List.mem_flatMap.1 hs
    obtain ⟨start, -, hs⟩ := List.mem_flatMap.1 hs
    obtain ⟨w, hw, rfl⟩ := List.mem_map.1 hs
    exact Walk.span_bounds (List.mem_of_mem_filter hw)

namespace Ruleset

variable {s : Ruleset} {sequence : Sequence}

/-! ## The rules of an action -/

/-- An action of phrases is that of a walk that meets some. -/
theorem mem_phraseActions_iff {a : Action} : a ∈ s.phraseActions sequence ↔
    ∃ start < sequence.size, ∃ w ∈ s.walksAt sequence start, s.phraseAction? start w = some a := by
  simp only [phraseActions, phraseActionsAt, List.mem_flatMap, List.mem_range, List.mem_filterMap]

theorem phraseAction?_eq_some_iff {start : Nat} {w : Walk Candidate} {a : Action} :
    s.phraseAction? start w = some a ↔ s.rulesOf w ≠ [] ∧
      a = ⟨s.rulesOf w, w.taken, start, start + w.taken.length, w.rest.map String.ofList⟩ := by
  rw [phraseAction?, Option.ite_none_left_eq_some, List.isEmpty_iff, Option.some.injEq,
    eq_comm (a := a)]

/-- An action of phrases has the terms of a walk and the rules whose phrases the walk meets. -/
theorem exists_walk_of_mem_phraseActions {a : Action} (ha : a ∈ s.phraseActions sequence) :
    ∃ start, ∃ w ∈ s.walksAt sequence start, a.rules = s.rulesOf w ∧ a.terms = w.taken := by
  obtain ⟨start, -, w, hw, ha⟩ := mem_phraseActions_iff.1 ha
  obtain ⟨-, rfl⟩ := phraseAction?_eq_some_iff.1 ha
  exact ⟨start, w, hw, rfl, rfl⟩

/-- The rules of an action of phrases are rules with a phrase. -/
theorem Indexed.rules_phraseAction (h : s.Indexed s.rules) {a : Action}
    (ha : a ∈ s.phraseActions sequence) :
    ∀ r ∈ a.rules, r ∈ s.rules ∧ r.trigger.isCondition = false := by
  obtain ⟨start, w, -, hrules, -⟩ := exists_walk_of_mem_phraseActions ha
  intro r hr
  rw [hrules] at hr
  obtain ⟨hm, hmet⟩ := List.mem_filter.1 ((h.rulesOf_perm w).mem_iff.1 hr)
  refine ⟨hm, ?_⟩
  unfold metBy at hmet
  cases ht : r.trigger with
  | phrase literals => rfl
  | condition f source => simp [ht] at hmet

theorem conditionAction_rules {m : MetCondition} {r : Rule} (hr : s.rules[m.rule]? = some r) :
    (s.conditionAction sequence m).rules = [r] := by
  rw [conditionAction, hr, Option.toList_some]

/-- The action of a condition that holds has one rule, and that rule has a condition. -/
theorem Indexed.rules_conditionAction (h : s.Indexed s.rules) {m : MetCondition}
    (hm : m ∈ s.metConditions sequence) : ∃ r ∈ s.rules,
      (s.conditionAction sequence m).rules = [r] ∧ r.trigger.isCondition = true := by
  obtain ⟨r, f, source, hr, ht, -⟩ := h.mem_metConditions.1 hm
  exact ⟨r, List.mem_of_getElem? hr, conditionAction_rules hr, by rw [ht]; rfl⟩

/-- An action has either rules with phrases or one rule with a condition. -/
theorem Indexed.rules_action (h : s.Indexed s.rules) {a : Action}
    (ha : a ∈ s.actions sequence) :
    (∀ r ∈ a.rules, r ∈ s.rules ∧ r.trigger.isCondition = false) ∨
      ∃ r ∈ s.rules, a.rules = [r] ∧ r.trigger.isCondition = true := by
  rcases List.mem_append.1 ((h.actions_perm sequence).mem_iff.1 ha) with ha | ha
  · exact .inl (h.rules_phraseAction ha)
  · obtain ⟨m, hm, rfl⟩ := List.mem_map.1 ha
    exact .inr (h.rules_conditionAction hm)

/-- A walk that meets no phrase gives no action. -/
theorem rules_ne_nil_of_mem_phraseActions {a : Action} (ha : a ∈ s.phraseActions sequence) :
    a.rules ≠ [] := by
  obtain ⟨start, -, w, -, ha⟩ := mem_phraseActions_iff.1 ha
  obtain ⟨hne, rfl⟩ := phraseAction?_eq_some_iff.1 ha
  exact hne

theorem Indexed.rules_ne_nil (h : s.Indexed s.rules) {a : Action} (ha : a ∈ s.actions sequence) :
    a.rules ≠ [] := by
  rcases List.mem_append.1 ((h.actions_perm sequence).mem_iff.1 ha) with ha | ha
  · exact rules_ne_nil_of_mem_phraseActions ha
  · obtain ⟨m, hm, rfl⟩ := List.mem_map.1 ha
    obtain ⟨r, -, hr, -⟩ := h.rules_conditionAction hm
    rw [hr]
    exact List.cons_ne_nil _ _

theorem Indexed.isCondition_phraseAction (h : s.Indexed s.rules) {a : Action}
    (ha : a ∈ s.phraseActions sequence) : a.isCondition = false := by
  rw [Action.isCondition, List.any_eq_false]
  intro r hr
  simp [(h.rules_phraseAction ha r hr).2]

theorem Indexed.isCondition_conditionAction (h : s.Indexed s.rules) {m : MetCondition}
    (hm : m ∈ s.metConditions sequence) : (s.conditionAction sequence m).isCondition = true := by
  obtain ⟨r, -, hr, ht⟩ := h.rules_conditionAction hm
  rw [Action.isCondition, hr, List.any_cons, ht, Bool.true_or]

/-- The actions that are not those of a condition are the actions of phrases. -/
theorem Indexed.filter_isCondition_perm (h : s.Indexed s.rules) (sequence : Sequence) :
    ((s.actions sequence).filter fun a => !a.isCondition).Perm (s.phraseActions sequence) := by
  refine ((h.actions_perm sequence).filter _).trans (.of_eq ?_)
  have hphrase : (s.phraseActions sequence).filter (fun a => !a.isCondition) =
      s.phraseActions sequence := by
    rw [List.filter_eq_self]
    intro a ha
    rw [Bool.not_eq_true', h.isCondition_phraseAction ha]
  have hcondition : ((s.metConditions sequence).map (s.conditionAction sequence)).filter
      (fun a => !a.isCondition) = [] := by
    rw [List.filter_eq_nil_iff]
    intro a ha
    obtain ⟨m, hm, rfl⟩ := List.mem_map.1 ha
    simp [h.isCondition_conditionAction hm]
  rw [List.filter_append, hphrase, hcondition, List.append_nil]

/-! ## The positions of an action -/

/-- Recording events adds actions of these events only. -/
theorem mem_foldl_record {es : List (Action ⊕ MetCondition)} {state : List Action × List Nat}
    {a : Action} (h : a ∈ (es.foldl (s.record sequence) state).1) :
    a ∈ state.1 ∨ ∃ e ∈ es, a = s.actionOf sequence e := by
  induction es generalizing state with
  | nil => exact .inl h
  | cons e es ih =>
    rcases ih h with h | ⟨e', he', ha⟩
    · cases e with
      | inl b =>
        rcases List.mem_append.1 h with h | h
        · exact .inl h
        · exact .inr ⟨.inl b, by simp, List.mem_singleton.1 h⟩
      | inr c =>
        by_cases hc : c.rule ∈ state.2
        · rw [record, if_pos hc] at h
          exact .inl h
        · rw [record, if_neg hc] at h
          rcases List.mem_append.1 h with h | h
          · exact .inl h
          · exact .inr ⟨.inr c, by simp, List.mem_singleton.1 h⟩
    · exact .inr ⟨e', List.mem_cons_of_mem _ he', ha⟩

/-- An action of a scan is one of phrases or one of a condition that holds. -/
theorem mem_scan {reported : List Nat} {a : Action} (h : a ∈ (s.scan sequence reported).1) :
    a ∈ s.phraseActions sequence ∨
      ∃ m ∈ s.metConditions sequence, a = s.conditionAction sequence m := by
  rw [scan_eq] at h
  rcases mem_foldl_record ((Action.perm_sort _).mem_iff.1 h) with h | ⟨e, he, rfl⟩
  · exact nomatch h
  · cases e with
    | inl b => exact .inl (inl_mem_events.1 he)
    | inr m => exact .inr ⟨m, inr_mem_events.1 he, rfl⟩

/-- The rules of an action are rules of the rule set. -/
theorem mem_rules_of_mem_scan {reported : List Nat} {a : Action}
    (h : a ∈ (s.scan sequence reported).1) {r : Rule} (hr : r ∈ a.rules) : r ∈ s.rules := by
  rcases mem_scan h with hp | ⟨m, -, rfl⟩
  · obtain ⟨start, w, -, hrules, -⟩ := exists_walk_of_mem_phraseActions hp
    rw [hrules] at hr
    obtain ⟨target, -, hr⟩ := List.mem_filterMap.1 hr
    cases target with
    | literal k => exact nomatch hr
    | rule i => exact List.mem_of_getElem? (Option.eq_some_of_filter_eq_some hr)
  · exact List.mem_of_getElem? (Option.mem_toList.1 hr)

/-- The terms of an action are alternatives of the positions of the sequence. -/
theorem mem_flatten_of_mem_scan {reported : List Nat} {a : Action}
    (h : a ∈ (s.scan sequence reported).1) {c : Candidate} (hc : c ∈ a.terms) :
    c ∈ sequence.positions.flatten := by
  rcases mem_scan h with hp | ⟨m, -, rfl⟩
  · obtain ⟨start, w, hw, -, hterms⟩ := exists_walk_of_mem_phraseActions hp
    rw [hterms] at hc
    obtain ⟨alternatives, ha, hc⟩ := List.mem_flatten.1 (mem_flatten_of_mem_taken hw hc)
    exact List.mem_flatten.2 ⟨alternatives, List.mem_of_mem_drop ha, hc⟩
  · obtain ⟨alternatives, ha, hc⟩ := List.mem_flatten.1 hc
    exact List.mem_flatten.2 ⟨alternatives, List.mem_of_mem_take (List.mem_of_mem_drop ha), hc⟩

/-- A condition that holds covers positions of the sequence. -/
theorem Indexed.bounds_of_met {rules : List Rule} (h : s.Indexed rules) {m : MetCondition}
    (hm : m ∈ s.metConditions sequence) :
    m.span.start ≤ m.span.stop ∧ m.span.stop ≤ sequence.size := by
  obtain ⟨r, f, source, -, -, n, -, hspan⟩ := h.mem_metConditions.1 hm
  rw [hspan]
  exact s.config.coverage_bounds sequence f n

/-- The terms of an action for a condition are those that the checked look-up finds. -/
theorem Indexed.span?_of_mem_scan (h : s.Indexed s.rules) {reported : List Nat} {a : Action}
    (ha : a ∈ (s.scan sequence reported).1) (hc : a.isCondition = true) :
    sequence.span? a.start a.stop = some a.terms := by
  rcases mem_scan ha with hp | ⟨m, hm, rfl⟩
  · rw [h.isCondition_phraseAction hp] at hc
    exact nomatch hc
  · exact if_pos (h.bounds_of_met hm)

end Ruleset

end QueryRules
