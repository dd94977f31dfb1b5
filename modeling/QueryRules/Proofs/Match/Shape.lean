import QueryRules.Proofs.Match.Order

/-!
# The shape of actions

- `Ruleset.Indexed.rulesOf_eq`: the rules whose phrases a walk meets come in the order of the rule
  set. So the rules of an action of phrases are some of all rules, in order, and have one text.
- `Action.IsOfPhrases` and `Action.IsOfCondition` say what an action of either kind looks like;
  `Ruleset.scan_shape`: every action of a scan looks like that, lies in the sequence and comes
  where its start and its lowest order put it.
-/

namespace QueryRules

/-- An action of rules with phrases: it takes one alternative of each position that it covers, and
its rules, different ones in order, share the text of their phrases. -/
structure Action.IsOfPhrases (a : Action) (rules : List Rule) (sequence : Sequence) : Prop where
  start_lt_stop : a.start < a.stop
  length_terms : a.terms.length = a.stop - a.start
  mem_alternatives : ∀ (i : Nat) (t : Candidate), a.terms[i]? = some t →
    ∃ alternatives, sequence.positions[a.start + i]? = some alternatives ∧ t ∈ alternatives
  sublist : a.rules.Sublist rules
  nodup_ids : (a.rules.map fun r => r.id.compact).Nodup
  shares_text : ∃ key isPrefix, ∀ r ∈ a.rules, ∃ literals, r.trigger = .phrase literals ∧
    Ruleset.phraseKey literals = key ∧ Ruleset.endsInPrefix literals = isPrefix

/-- An action of a rule with a condition: it has only this rule, and every alternative of the
positions that it covers. -/
structure Action.IsOfCondition (a : Action) (rules : List Rule) (sequence : Sequence) : Prop where
  rule : ∃ r ∈ rules, a.rules = [r] ∧ r.trigger.isCondition = true
  terms_eq : a.terms = ((sequence.positions.take a.stop).drop a.start).flatten

namespace Ruleset

variable {config : Config} {rules : List Rule} {s : Ruleset} {sequence : Sequence}

/-! ## Actions of phrases -/

/-- The rules whose phrases a walk meets, in the order of the rule set. -/
theorem Indexed.rulesOf_eq (h : s.Indexed s.rules) (ha : s.Ascending) (w : Walk Candidate) :
    s.rulesOf w = s.rules.filter (metBy w) := by
  have hplaces : (s.placesOf w).Pairwise (· < ·) := ha _ _
  rw [rulesOf_eq_filter_placesOf, filterMap_getElem?_of_ascending hplaces, h.filter_acceptsFields]

/-- The phrase of a rule that a walk meets is stored under the text of the walk. -/
theorem exists_phrase_of_metBy {w : Walk Candidate} {r : Rule} (h : metBy w r) :
    ∃ literals, r.trigger = .phrase literals ∧ phraseKey literals = w.text ∧
      endsInPrefix literals = w.rest.isSome := by
  unfold metBy at h
  split at h
  · rename_i literals ht
    unfold Walk.meets at h
    simp only [Bool.and_eq_true, beq_iff_eq] at h
    exact ⟨literals, ht, h.1.1.symm, h.1.2.symm⟩
  · exact nomatch h

/-- An action of phrases looks like one and ends in the sequence. -/
theorem isOfPhrases_of_mem (hs : compile config rules = .ok s) {a : Action}
    (ha : a ∈ s.phraseActions sequence) : a.IsOfPhrases s.rules sequence ∧
      a.stop ≤ sequence.size := by
  have hascending := ascending_of_compile hs
  obtain ⟨start, hstart, w, hw, ha⟩ := mem_phraseActions_iff.1 ha
  obtain ⟨-, rfl⟩ := phraseAction?_eq_some_iff.1 ha
  have hrules := (indexed_of_compile hs).rulesOf_eq hascending w
  have hsublist : (s.rulesOf w).Sublist s.rules := hrules ▸ List.filter_sublist
  have hpos := (length_taken hw).1
  refine ⟨?_, (Walk.span_bounds hw).2⟩
  constructor
  case start_lt_stop => exact Nat.lt_add_of_pos_right hpos
  case length_terms => exact (Nat.add_sub_cancel_left _ _).symm
  case mem_alternatives =>
    intro i t ht
    obtain ⟨alternatives, ha, ht⟩ := exists_alternatives_of_taken hw ht
    exact ⟨alternatives, (List.getElem?_drop ..).symm.trans ha, ht⟩
  case sublist => exact hsublist
  case nodup_ids => exact (nodup_ids_of_compile hs).sublist (hsublist.map _)
  case shares_text =>
    refine ⟨w.text, w.rest.isSome, fun r hr => ?_⟩
    rw [hrules] at hr
    exact exists_phrase_of_metBy (List.mem_filter.1 hr).2

/-! ## All actions -/

/-- The actions of a scan come by their start and the lowest order of their rules. -/
theorem pairwise_scan (s : Ruleset) (sequence : Sequence) (reported : List Nat) :
    (s.scan sequence reported).1.Pairwise fun a b =>
      a.start < b.start ∨ a.start = b.start ∧ a.order ≤ b.order := by
  rw [scan_eq]
  exact (Action.pairwise_sort _).imp Action.comesBefore_iff.1

/-- The actions of a scan are in order and lie in the sequence, whatever has been reported before;
their order is the lowest one of their rules, and they look like actions of phrases or like one of a
condition. -/
theorem scan_shape (hs : compile config rules = .ok s) (sequence : Sequence)
    (reported : List Nat) :
    ((s.scan sequence reported).1.Pairwise fun a b =>
      a.start < b.start ∨ a.start = b.start ∧ a.order ≤ b.order) ∧
    ∀ a ∈ (s.scan sequence reported).1,
      a.start ≤ a.stop ∧ a.stop ≤ sequence.size ∧
      IsLeast {n | ∃ r ∈ a.rules, r.order = n} a.order ∧
      if a.isCondition then a.IsOfCondition (rules.map (normalized config)) sequence
      else a.IsOfPhrases (rules.map (normalized config)) sequence := by
  refine ⟨pairwise_scan s sequence reported, fun a ha => ?_⟩
  have h := indexed_of_compile hs
  rw [← rules_of_compile hs]
  rcases mem_scan ha with ha | ⟨m, hm, rfl⟩
  · obtain ⟨hshape, hstop⟩ := isOfPhrases_of_mem hs ha
    refine ⟨hshape.start_lt_stop.le, hstop,
      Action.isLeast_order (rules_ne_nil_of_mem_phraseActions ha), ?_⟩
    rw [h.isCondition_phraseAction ha]
    exact hshape
  · obtain ⟨hle, hstop⟩ := h.bounds_of_met hm
    obtain ⟨r, hr, hrules, htrigger⟩ := h.rules_conditionAction hm
    have hne : (s.conditionAction sequence m).rules ≠ [] := hrules ▸ List.cons_ne_nil r []
    refine ⟨hle, hstop, Action.isLeast_order hne, ?_⟩
    rw [if_pos (h.isCondition_conditionAction hm)]
    exact ⟨⟨r, hr, hrules, htrigger⟩, rfl⟩

/-- Two rules share a phrase and a third one has the text as a prefix; the condition holds at the
end, for lack of `red`, and covers `house`. -/
theorem scan_shape_alternatives :
    let text := "big house =>\nhou* =>\nbig house =>\nhouse AND NOT red =>"
    let sequence : Sequence := ⟨[[⟨0, "large", ∅⟩, ⟨1, "big", ∅⟩], [⟨2, "house", ∅⟩]]⟩
    ∃ s, ofText {} text = .ok s ∧
      (s.actions sequence).map (fun a => (a.isCondition, a.values, a.start, a.stop, a.order)) =
        [(false, ["big", "house"], 0, 2, 0), (false, ["house"], 1, 2, 1),
          (true, ["house"], 1, 2, 3)] ∧
      ∀ a ∈ s.actions sequence, a.stop ≤ sequence.size ∧
        (a.isCondition = false → a.IsOfPhrases s.rules sequence) := by
  intro text sequence
  have hscan : (ofText {} text).map (fun s => (s.actions sequence).map fun a =>
      (a.isCondition, a.values, a.start, a.stop, a.order)) =
        .ok [(false, ["big", "house"], 0, 2, 0), (false, ["house"], 1, 2, 1),
          (true, ["house"], 1, 2, 3)] := by decide +kernel
  obtain ⟨s, hs, hscan⟩ := exists_of_map_eq_ok hscan
  obtain ⟨rules, -, hcompile⟩ := bind_eq_ok_iff.1 hs
  refine ⟨s, hs, hscan, fun a ha => ?_⟩
  obtain ⟨-, hstop, -, hshape⟩ := (scan_shape hcompile sequence []).2 a ha
  refine ⟨hstop, fun hphrase => ?_⟩
  rw [if_neg (by simp [hphrase]), ← rules_of_compile hcompile] at hshape
  exact hshape

end Ruleset

end QueryRules
