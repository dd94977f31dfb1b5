import QueryRules.Proofs.Match.Conditions

/-!
# Where each rule matches

- `Firing` is a match of one rule; `Ruleset.firings` lists those in the actions of a sequence.
- `Config.firings`: where a trigger matches a sequence. It names nothing of a rule set but the
  configuration.
- `Ruleset.placesOf`: where the rules that the trie stores for a walk stand in the rule set. Those of
  them that accept the fields are the rules whose phrases the walk meets
  (`Indexed.filter_acceptsFields`).
- `Ruleset.firings_perm`: the actions of a sequence hold, up to order, just the matches of every
  single rule. `Ruleset.phraseFirings_perm` is the part of it for the actions of phrases.
-/

namespace QueryRules

/-- A match of a rule: its positions, the terms that it covers, and what follows its prefix in the
last of them. -/
structure Firing where
  start : Nat
  stop : Nat
  terms : List Candidate
  suffix : Option String
  deriving DecidableEq, Repr

namespace Action

/-- The match that an action reports for its rules. -/
def firing (a : Action) : Firing := ⟨a.start, a.stop, a.terms, a.suffix⟩

/-- The rules of an action, each with the match. -/
def firings (a : Action) : List (Rule × Firing) := a.rules.map fun r => (r, a.firing)

/-- The action is one of a rule with a condition. -/
def isCondition (a : Action) : Bool := a.rules.any fun r => r.trigger.isCondition

end Action

/-- The matches in the actions of a sequence. -/
def Ruleset.firings (s : Ruleset) (sequence : Sequence) : List (Rule × Firing) :=
  (s.actions sequence).flatMap Action.firings

namespace Config

variable (config : Config) (sequence : Sequence)

/-- Where a phrase matches. -/
def phraseFirings (literals : List Literal) : List Firing :=
  (List.range sequence.size).flatMap fun start => (config.meetings sequence literals start).map
    fun w => ⟨start, start + w.taken.length, w.taken, w.rest.map String.ofList⟩

/-- Where a condition matches. -/
def conditionFirings (f : Condition) : List Firing :=
  (config.occasions sequence f).map fun n =>
    let span := config.coverage sequence f n
    ⟨span.start, span.stop, sequence.span span.start span.stop, none⟩

/-- Where a trigger matches. -/
def firings : Trigger → List Firing
  | .phrase literals => config.phraseFirings sequence literals
  | .condition f _ => config.conditionFirings sequence f

end Config

namespace Ruleset

variable {s : Ruleset}

/-! ## Actions up to order -/

/-- The actions of phrases. -/
def phraseActions (s : Ruleset) (sequence : Sequence) : List Action :=
  (List.range sequence.size).flatMap (s.phraseActionsAt sequence)

theorem inl_mem_events {sequence : Sequence} {a : Action} :
    .inl a ∈ s.events sequence ↔ a ∈ s.phraseActions sequence := by
  unfold events eventsAt phraseActions
  simp

theorem inr_mem_events {sequence : Sequence} {m : MetCondition} :
    .inr m ∈ s.events sequence ↔ m ∈ s.metConditions sequence := by
  unfold events eventsAt metConditions
  simp

theorem filterMap_getRight?_events (s : Ruleset) (sequence : Sequence) :
    (s.events sequence).filterMap Sum.getRight? = s.metConditions sequence := by
  unfold events eventsAt metConditions
  simp [List.filterMap_flatMap, List.filterMap_map, Function.comp_def]

/-- A scan gives the actions of what it comes across, without the conditions of rules that have been
reported before. -/
theorem Indexed.scan_fst (h : s.Indexed s.rules) (sequence : Sequence) (reported : List Nat) :
    (s.scan sequence reported).1 =
      Action.sort (((s.events sequence).filter fun e =>
        (Sum.getRight? e).all fun c => c.rule ∉ reported).map (s.actionOf sequence)) := by
  rw [scan_eq, foldl_record_of_nodup]
  · rfl
  · rw [filterMap_getRight?_events]
    exact h.nodup_rule_metConditions sequence

theorem Indexed.actions_eq (h : s.Indexed s.rules) (sequence : Sequence) :
    s.actions sequence = Action.sort ((s.events sequence).map (s.actionOf sequence)) := by
  rw [actions, h.scan_fst]
  simp

/-- The actions of a sequence are those of phrases and those of the conditions that hold. -/
theorem Indexed.actions_perm (h : s.Indexed s.rules) (sequence : Sequence) :
    (s.actions sequence).Perm (s.phraseActions sequence ++
      (s.metConditions sequence).map (s.conditionAction sequence)) := by
  have hevents : (s.events sequence).map (s.actionOf sequence) =
      ((List.range sequence.size).flatMap fun n => s.phraseActionsAt sequence n ++
        (s.metAt sequence n).map (s.conditionAction sequence)) ++
      (s.metAtEnd sequence).map (s.conditionAction sequence) := by
    unfold events eventsAt
    simp [List.map_flatMap, Function.comp_def, actionOf]
  rw [h.actions_eq]
  refine (Action.perm_sort _).trans ?_
  rw [hevents, metConditions, List.map_append, List.map_flatMap, ← List.append_assoc]
  exact (List.flatMap_append_perm _ _ _).symm.append_right _

/-! ## Phrases -/

/-- A walk meets the phrase of a rule. -/
def metBy (w : Walk Candidate) (r : Rule) : Bool :=
  match r.trigger with
  | .phrase literals => w.meets literals
  | .condition .. => false

/-- The place of the rule behind a target. -/
def ruleIndex? : Target → Option Nat
  | .rule i => some i
  | .literal _ => none

/-- The places of the rules that the trie stores for a walk. -/
def placesOf (s : Ruleset) (w : Walk Candidate) : List Nat :=
  (s.targetsOf w).filterMap ruleIndex?

/-- A rule has a phrase that accepts the fields of the terms of a walk. -/
def acceptsFields (w : Walk Candidate) (r : Rule) : Bool :=
  match r.trigger with
  | .phrase literals => allowsFields literals w.taken
  | .condition .. => false

theorem rulesOf_eq_filter_placesOf (s : Ruleset) (w : Walk Candidate) :
    s.rulesOf w = ((s.placesOf w).filterMap fun i => s.rules[i]?).filter (acceptsFields w) := by
  rw [rulesOf, placesOf, List.filter_filterMap, List.filterMap_filterMap]
  refine List.filterMap_congr fun t _ => ?_
  cases t <;> rfl

theorem Indexed.nodup_placesOf (h : s.Indexed s.rules) (w : Walk Candidate) :
    (s.placesOf w).Nodup := by
  refine List.Nodup.filterMap (fun t t' i ht ht' => ?_) (h.nodup_targets _ _)
  cases t <;> cases t' <;> simp_all [ruleIndex?]

theorem Indexed.mem_placesOf (h : s.Indexed s.rules) {w : Walk Candidate} {r : Rule} {i : Nat}
    (hr : s.rules[i]? = some r) : i ∈ s.placesOf w ↔ ∃ literals, r.trigger = .phrase literals ∧
      w.rest.isSome = endsInPrefix literals ∧ w.text = phraseKey literals := by
  have hi : i ∈ s.placesOf w ↔ .rule i ∈ s.targetsOf w := by
    rw [placesOf, List.mem_filterMap]
    constructor
    · rintro ⟨t, ht, hti⟩
      cases t with
      | rule j => exact Option.some.inj hti ▸ ht
      | literal id => cases hti
    · exact fun ht => ⟨_, ht, rfl⟩
  rw [hi, targetsOf, h.mem_rule]
  simp [hr]

/-- Among the rules at the places stored for a walk, the walk meets those that accept the fields. -/
theorem Indexed.filter_acceptsFields (h : s.Indexed s.rules) (w : Walk Candidate) :
    ((s.rules.zipIdx.filter fun p => decide (p.2 ∈ s.placesOf w)).map Prod.fst).filter
      (acceptsFields w) = s.rules.filter (metBy w) := by
  rw [← map_filter_zipIdx (metBy w) s.rules 0, List.filter_map, List.filter_filter]
  congr 1
  refine List.filter_congr fun q hq => ?_
  have hmem := h.mem_placesOf (w := w) (List.mem_zipIdx_iff_getElem?.1 hq)
  rw [Bool.eq_iff_iff, Bool.and_eq_true, Function.comp_apply, decide_eq_true_eq, hmem]
  unfold metBy acceptsFields
  cases q.1.trigger with
  | condition f source => simp
  | phrase literals =>
    simp only [Trigger.phrase.injEq, exists_eq_left', Walk.meets, Bool.and_eq_true, beq_iff_eq]
    rw [and_comm, and_comm (a := w.rest.isSome = endsInPrefix literals)]

/-- The rules whose phrases a walk meets, whatever other rules there are. -/
theorem Indexed.rulesOf_perm (h : s.Indexed s.rules) (w : Walk Candidate) :
    (s.rulesOf w).Perm (s.rules.filter (metBy w)) := by
  rw [rulesOf_eq_filter_placesOf, ← h.filter_acceptsFields w]
  exact (filterMap_getElem?_perm (h.nodup_placesOf w) s.rules).filter _

/-- The actions of phrases hold just the matches of every single phrase. -/
theorem Indexed.phraseFirings_perm (h : s.Indexed s.rules) (sequence : Sequence) :
    ((s.phraseActions sequence).flatMap Action.firings).Perm (s.rules.flatMap fun r =>
      match r.trigger with
      | .phrase literals => (s.config.phraseFirings sequence literals).map fun f => (r, f)
      | .condition .. => []) := by
  -- the matches of one walk
  let firing (start : Nat) (w : Walk Candidate) : Firing :=
    ⟨start, start + w.taken.length, w.taken, w.rest.map String.ofList⟩
  have hwalk (start : Nat) (w : Walk Candidate) :
      ((s.phraseAction? start w).map Action.firings).getD [] =
        (s.rulesOf w).map fun r => (r, firing start w) := by
    unfold phraseAction?
    split
    · rename_i he
      rw [List.isEmpty_iff.1 he]
      rfl
    · rfl
  have hposition (start : Nat) : ((s.phraseActionsAt sequence start).flatMap Action.firings).Perm
      (s.rules.flatMap fun r => ((s.walksAt sequence start).filter (metBy · r)).map fun w =>
        (r, firing start w)) := by
    unfold phraseActionsAt
    rw [flatMap_filterMap]
    simp only [hwalk]
    refine .trans (List.Perm.flatMap_left _ fun w _ => (h.rulesOf_perm w).map _) ?_
    exact flatMap_filter_perm _ _ metBy fun w r => (r, firing start w)
  have hrule (r : Rule) : ((List.range sequence.size).flatMap fun start =>
      ((s.walksAt sequence start).filter (metBy · r)).map fun w => (r, firing start w)) =
        match r.trigger with
        | .phrase literals => (s.config.phraseFirings sequence literals).map fun f => (r, f)
        | .condition .. => [] := by
    unfold metBy
    cases r.trigger with
    | phrase literals =>
      simp only [Config.phraseFirings, List.map_flatMap, List.map_map]
      rfl
    | condition f source => simp
  unfold phraseActions
  rw [List.flatMap_assoc]
  refine (List.Perm.flatMap_left _ fun start _ => hposition start).trans ?_
  refine (flatMap_flatMap_perm _ _ _).trans (.of_eq ?_)
  exact List.flatMap_congr fun r _ => hrule r

/-! ## Conditions -/

/-- The actions of conditions hold just the matches of every single condition. -/
theorem Indexed.conditionFirings_perm (h : s.Indexed s.rules) (sequence : Sequence) :
    (((s.metConditions sequence).map (s.conditionAction sequence)).flatMap Action.firings).Perm
      (s.rules.flatMap fun r =>
        match r.trigger with
        | .phrase _ => []
        | .condition f _ => (s.config.conditionFirings sequence f).map fun g => (r, g)) := by
  rw [List.flatMap_map]
  refine ((h.metConditions_perm sequence).flatMap_right _).trans (.of_eq ?_)
  conv_rhs => rw [← List.zipIdx_map_fst 0 s.rules, List.flatMap_map]
  rw [Rule.conditions, List.flatMap_assoc, flatMap_filterMap]
  refine List.flatMap_congr fun q hq => ?_
  obtain ⟨r, i⟩ := q
  have hr : s.rules[i]? = some r := List.mem_zipIdx_iff_getElem?.1 hq
  cases ht : r.trigger with
  | phrase literals => simp [ht]
  | condition f source =>
    have hone (n : Nat) : (s.conditionAction sequence
        ⟨i, s.config.coverage sequence f n⟩).firings =
        [(r, ⟨(s.config.coverage sequence f n).start, (s.config.coverage sequence f n).stop,
          sequence.span (s.config.coverage sequence f n).start
            (s.config.coverage sequence f n).stop, none⟩)] := by
      simp [conditionAction, Action.firings, Action.firing, hr]
    simp only [ht, Option.map_some, Option.getD_some, List.flatMap_map, hone,
      Config.conditionFirings, List.map_map]
    exact List.map_eq_flatMap.symm

/-- The actions of a sequence hold, up to order, just the matches of every single rule. -/
theorem Indexed.firings_perm (h : s.Indexed s.rules) (sequence : Sequence) :
    (s.firings sequence).Perm (s.rules.flatMap fun r =>
      (s.config.firings sequence r.trigger).map fun f => (r, f)) := by
  unfold firings
  refine ((h.actions_perm sequence).flatMap_right _).trans ?_
  rw [List.flatMap_append]
  refine ((h.phraseFirings_perm sequence).append (h.conditionFirings_perm sequence)).trans ?_
  refine (List.flatMap_append_perm _ _ _).trans (.of_eq ?_)
  refine List.flatMap_congr fun r _ => ?_
  cases r.trigger <;> simp [Config.firings]

end Ruleset

end QueryRules
