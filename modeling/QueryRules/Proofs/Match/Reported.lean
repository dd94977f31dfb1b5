import QueryRules.Proofs.Match.Exact

/-!
# Reported rules

- `Ruleset.actionsOf_perm`: the actions of a rule with a condition are those of its condition, so
  there is one if the condition holds and none otherwise (`length_actionsOf`).
- `Ruleset.isRepeat`: an action repeats a rule of an earlier sequence. `Ruleset.scan_of_reported`: a
  scan that is told what has been reported leaves out just the actions that do.
- `Ruleset.mem_scan_snd`: it reports the rules whose conditions hold.
-/

namespace QueryRules

/-! ## Sorting a part of the actions -/

namespace Action

theorem insert_eq_cons {a : Action} {as : List Action} (h : ∀ b ∈ as, a.comesBefore b) :
    a.insert as = a :: as := by
  cases as with
  | nil => rfl
  | cons b bs => rw [insert, if_pos (h b List.mem_cons_self)]

theorem filter_insert (p : Action → Bool) (a : Action) {as : List Action}
    (h : as.Pairwise fun b c => b.comesBefore c) :
    (a.insert as).filter p = if p a then a.insert (as.filter p) else as.filter p := by
  induction as with
  | nil => rw [insert, List.filter_cons, List.filter_nil, insert]
  | cons b bs ih =>
    obtain ⟨hb, hs⟩ := List.pairwise_cons.1 h
    rw [insert]
    split
    · rename_i hab
      have hfirst : ∀ c ∈ (b :: bs).filter p, a.comesBefore c := by
        intro c hc
        rcases List.mem_cons.1 (List.mem_of_mem_filter hc) with rfl | hc
        · exact hab
        · exact comesBefore_trans hab (hb c hc)
      rw [List.filter_cons, insert_eq_cons hfirst]
    · rename_i hab
      rw [List.filter_cons, ih hs, List.filter_cons]
      cases p b with
      | false => simp only [Bool.false_eq_true, if_false]
      | true => cases p a <;> simp [insert, hab]

/-- Sorting commutes with leaving out actions. -/
theorem filter_sort (p : Action → Bool) (as : List Action) :
    (sort as).filter p = sort (as.filter p) := by
  induction as with
  | nil => rfl
  | cons a as ih =>
    rw [sort, filter_insert p a (pairwise_sort as), ih, List.filter_cons]
    split <;> rfl

end Action

namespace Ruleset

variable {config : Config} {rules : List Rule} {s : Ruleset} {sequence : Sequence}

/-! ## The actions of one rule -/

/-- No two places of a rule set have rules with one id. -/
theorem place_eq_of_id (hs : compile config rules = .ok s) {i j : Nat} {r q : Rule}
    (hr : s.rules[i]? = some r) (hq : s.rules[j]? = some q)
    (he : q.id.compact = r.id.compact) : j = i := by
  have hlt : j < (s.rules.map fun r => r.id.compact).length := by
    rw [List.length_map]
    exact (List.getElem?_eq_some_iff.1 hq).1
  refine (List.getElem?_inj hlt (nodup_ids_of_compile hs)).1 ?_
  rw [List.getElem?_map, List.getElem?_map, hr, hq, Option.map_some, Option.map_some, he]

/-- The actions of a rule with a condition are those of its condition. -/
theorem actionsOf_perm (hs : compile config rules = .ok s) {i : Nat} {r : Rule}
    (hr : s.rules[i]? = some r) (hc : r.trigger.isCondition = true) :
    (s.actionsOf sequence r.id).Perm
      (((s.metConditions sequence).filter fun m => m.rule == i).map
        (s.conditionAction sequence)) := by
  have h := indexed_of_compile hs
  have hphrase : (s.phraseActions sequence).filter
      (fun a => a.rules.any fun q => q.id.compact = r.id.compact) = [] := by
    rw [List.filter_eq_nil_iff]
    intro a ha hany
    obtain ⟨q, hq, he⟩ := List.any_eq_true.1 hany
    obtain ⟨hm, htrigger⟩ := h.rules_phraseAction ha q hq
    rw [rule_eq_of_id hs (List.mem_of_getElem? hr) hm (of_decide_eq_true he), hc] at htrigger
    exact nomatch htrigger
  unfold actionsOf
  refine ((h.actions_perm sequence).filter _).trans (.of_eq ?_)
  rw [List.filter_append, hphrase, List.nil_append, List.filter_map]
  congr 1
  refine List.filter_congr fun m hm => ?_
  obtain ⟨q, f, source, hq, -⟩ := h.mem_metConditions.1 hm
  rw [Function.comp_apply, conditionAction_rules hq, List.any_cons, List.any_nil, Bool.or_false, Bool.eq_iff_iff,
    decide_eq_true_eq, beq_iff_eq]
  constructor
  · exact place_eq_of_id hs hr hq
  · rintro rfl
    rw [Option.some.inj (hq.symm.trans hr)]

/-- The condition at a place holds if it holds over the literals that are met. -/
theorem Indexed.mem_rule_metConditions (h : s.Indexed rules) {i : Nat} {r : Rule}
    (hr : rules[i]? = some r) {f : Condition} {source : String}
    (ht : r.trigger = .condition f source) :
    i ∈ (s.metConditions sequence).map MetCondition.rule ↔
      f.holds (s.config.metBefore sequence sequence.size) := by
  have hsome : f.holds (s.config.metBefore sequence sequence.size) ↔
      ∃ n, n ∈ s.config.occasions sequence f := by
    rw [← List.length_pos_iff_exists_mem, s.config.length_occasions]
    split <;> simp_all
  rw [hsome, List.mem_map]
  constructor
  · rintro ⟨m, hm, rfl⟩
    obtain ⟨q, g, source', hq, htrigger, n, hn, -⟩ := h.mem_metConditions.1 hm
    obtain rfl := Option.some.inj (hq.symm.trans hr)
    obtain ⟨rfl, -⟩ := Trigger.condition.inj (htrigger.symm.trans ht)
    exact ⟨n, hn⟩
  · rintro ⟨n, hn⟩
    exact ⟨⟨i, s.config.coverage sequence f n⟩,
      h.mem_metConditions.2 ⟨r, f, source, hr, ht, n, hn, rfl⟩, rfl⟩

/-- A rule with a condition has one action if the condition holds, and none otherwise. -/
theorem length_actionsOf (hs : compile config rules = .ok s) {r : Rule} (hr : r ∈ s.rules)
    {f : Condition} {source : String} (ht : r.trigger = .condition f source) :
    (s.actionsOf sequence r.id).length =
      if f.holds (s.config.metBefore sequence sequence.size) then 1 else 0 := by
  have h := indexed_of_compile hs
  obtain ⟨i, hi⟩ := List.mem_iff_getElem?.1 hr
  have hlength : (s.actionsOf sequence r.id).length =
      ((s.metConditions sequence).map MetCondition.rule).count i := by
    rw [(actionsOf_perm hs hi (by rw [ht]; rfl)).length_eq, List.length_map, List.count,
      List.countP_map, List.countP_eq_length_filter]
    rfl
  rw [hlength, List.Nodup.count (h.nodup_rule_metConditions sequence)]
  simp only [h.mem_rule_metConditions hi ht]

theorem isEmpty_actionsOf (hs : compile config rules = .ok s) {r : Rule} (hr : r ∈ s.rules)
    {f : Condition} {source : String} (ht : r.trigger = .condition f source) :
    (s.actionsOf sequence r.id).isEmpty =
      !f.holds (s.config.metBefore sequence sequence.size) := by
  rw [Bool.eq_iff_iff, List.isEmpty_iff, ← List.length_eq_zero_iff, length_actionsOf hs hr ht]
  cases f.holds (s.config.metBefore sequence sequence.size) <;> simp

/-- The actions of a rule with a condition are those that have just this rule. -/
theorem mem_actionsOf (hs : compile config rules = .ok s) {r : Rule} (hr : r ∈ s.rules)
    (hc : r.trigger.isCondition = true) {a : Action} :
    a ∈ s.actionsOf sequence r.id ↔ a ∈ s.actions sequence ∧ a.rules = [r] := by
  rw [actionsOf, List.mem_filter]
  refine and_congr_right fun ha => ⟨fun hany => ?_, fun hrules => ?_⟩
  · obtain ⟨q, hq, he⟩ := List.any_eq_true.1 hany
    rcases rules_eq_singleton hs hr hc ha with hne | hrules
    · exact absurd (of_decide_eq_true he) (hne q hq)
    · exact hrules
  · simp [hrules]

/-! ## Scans after other scans -/

/-- What has been reported after some events. -/
theorem mem_foldl_record_snd {es : List (Action ⊕ MetCondition)} {state : List Action × List Nat}
    {i : Nat} : i ∈ (es.foldl (s.record sequence) state).2 ↔
      i ∈ state.2 ∨ i ∈ (es.filterMap Sum.getRight?).map MetCondition.rule := by
  induction es generalizing state with
  | nil => simp
  | cons e es ih =>
    rw [List.foldl_cons, ih]
    cases e with
    | inl a => simp [record]
    | inr c =>
      rw [record]
      split
      · rename_i hc
        simp only [List.filterMap_cons, Sum.getRight?_inr, List.map_cons, List.mem_cons]
        constructor
        · rintro (hi | hi)
          · exact .inl hi
          · exact .inr (.inr hi)
        · rintro (hi | rfl | hi)
          · exact .inl hi
          · exact .inl hc
          · exact .inr hi
      · simp [or_assoc, or_left_comm]

/-- A scan reports the rules whose conditions hold. -/
theorem mem_scan_snd {reported : List Nat} {i : Nat} : i ∈ (s.scan sequence reported).2 ↔
    i ∈ reported ∨ i ∈ (s.metConditions sequence).map MetCondition.rule := by
  rw [scan_eq, mem_foldl_record_snd, filterMap_getRight?_events]

/-- An action repeats a rule with a condition that one of the earlier sequences has an action of. -/
def isRepeat (s : Ruleset) (earlier : List Sequence) (a : Action) : Bool :=
  a.rules.any fun r => r.trigger.isCondition &&
    earlier.any fun sequence => !(s.actionsOf sequence r.id).isEmpty

theorem isRepeat_eq (hs : compile config rules = .ok s) {r : Rule} (hr : r ∈ s.rules)
    {f : Condition} {source : String} (ht : r.trigger = .condition f source) {a : Action}
    (ha : a.rules = [r]) (earlier : List Sequence) :
    s.isRepeat earlier a = earlier.any fun x => f.holds (s.config.metBefore x x.size) := by
  rw [isRepeat, ha, List.any_cons, List.any_nil, Bool.or_false, ht, Trigger.isCondition,
    Bool.true_and]
  simp only [isEmpty_actionsOf hs hr ht, Bool.not_not]

/-- The actions of a rule with a condition all repeat it, if the condition holds for an earlier
sequence, and otherwise none of them does. -/
theorem filter_isRepeat_actionsOf (hs : compile config rules = .ok s) {r : Rule} (hr : r ∈ s.rules)
    {f : Condition} {source : String} (ht : r.trigger = .condition f source)
    (earlier : List Sequence) :
    ((s.actionsOf sequence r.id).filter fun a => !s.isRepeat earlier a) =
      if earlier.any fun x => f.holds (s.config.metBefore x x.size) then []
      else s.actionsOf sequence r.id := by
  have hrepeat : ∀ a ∈ s.actionsOf sequence r.id, (!s.isRepeat earlier a) =
      !earlier.any fun x => f.holds (s.config.metBefore x x.size) := by
    intro a ha
    have hrules := ((mem_actionsOf hs hr (by rw [ht]; rfl)).1 ha).2
    rw [isRepeat_eq hs hr ht hrules]
  rw [List.filter_congr hrepeat]
  cases earlier.any fun x => f.holds (s.config.metBefore x x.size) with
  | true => exact List.filter_false _
  | false => exact List.filter_true _

/-- A scan leaves out just the actions that repeat a rule reported for an earlier sequence. -/
theorem scan_of_reported (hs : compile config rules = .ok s) {earlier : List Sequence}
    {reported : List Nat} (hreported : ∀ i, i ∈ reported ↔
      ∃ x ∈ earlier, i ∈ (s.metConditions x).map MetCondition.rule) :
    (s.scan sequence reported).1 =
      (s.actions sequence).filter fun a => !s.isRepeat earlier a := by
  have h := indexed_of_compile hs
  rw [h.scan_fst, h.actions_eq, Action.filter_sort, List.filter_map]
  congr 2
  refine List.filter_congr fun e he => ?_
  cases e with
  | inl a =>
    have hphrase : s.isRepeat earlier a = false := by
      rw [isRepeat, List.any_eq_false]
      intro r hr
      rw [(h.rules_phraseAction (inl_mem_events.1 he) r hr).2, Bool.false_and]
      exact Bool.false_ne_true
    rw [Function.comp_apply, actionOf, hphrase]
    rfl
  | inr m =>
    obtain ⟨r, f, source, hr, ht, -⟩ := h.mem_metConditions.1 (inr_mem_events.1 he)
    have hearlier : s.isRepeat earlier (s.conditionAction sequence m) ↔ m.rule ∈ reported := by
      rw [isRepeat_eq hs (List.mem_of_getElem? hr) ht (conditionAction_rules hr), hreported]
      simp only [h.mem_rule_metConditions hr ht, List.any_eq_true]
    rw [Function.comp_apply, actionOf, Bool.eq_iff_iff, Bool.not_eq_true', ← Bool.not_eq_true,
      hearlier]
    simp

end Ruleset

end QueryRules
