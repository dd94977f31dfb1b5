import QueryRules.Proofs.Match.Answers
import QueryRules.Proofs.Match.Scan

/-!
# Conditions over a sequence

A condition depends on a sequence only through where its literals are met.

- `Config.spansBefore`: what a literal covers that is met before some position, and `metBefore`:
  whether it is met there. These name nothing but the literal and the sequence.
- `Config.newlyHolds`: a condition without a not holds with the literals met up to a position, and
  did not hold before. `Config.coverage`: the positions that a condition covers.
- `Ruleset.metConditions_perm`: a scan comes across every condition that holds, once.
-/

namespace QueryRules

/-- A walk spells the literals of a phrase, and they accept the fields of its terms. -/
def Walk.meets (w : Walk Candidate) (literals : List Literal) : Bool :=
  w.text == Ruleset.phraseKey literals && w.rest.isSome == Ruleset.endsInPrefix literals &&
    Ruleset.allowsFields literals w.taken

theorem Walk.meets_singleton {w : Walk Candidate} {l : Literal} : w.meets [l] ↔
    (w.text = l.value.toList ∧ w.rest.isSome = l.isPrefix) ∧
      Ruleset.allowsFields [l] w.taken := by
  have hkey : Ruleset.phraseKey [l] = l.value.toList := by
    simp [Ruleset.phraseKey, Text.unwords]
  have hprefix : Ruleset.endsInPrefix [l] = l.isPrefix := rfl
  simp [meets, hkey, hprefix]

namespace Config

variable (config : Config) (sequence : Sequence)

/-- The walks from a position that meet a phrase. -/
def meetings (literals : List Literal) (start : Nat) : List (Walk Candidate) :=
  (sequence.walksFrom config.word start).filter (·.meets literals)

/-- What a literal covers that is met before position `n`. -/
def spansBefore (n : Nat) (l : Literal) : List Span :=
  (List.range n).flatMap fun start => (config.meetings sequence [l] start).map (·.span start)

/-- A literal is met before position `n`. -/
def metBefore (n : Nat) (l : Literal) : Bool := !(config.spansBefore sequence n l).isEmpty

/-- A condition without a not comes to hold at position `n`. -/
def newlyHolds (f : Condition) (n : Nat) : Bool :=
  f.isPositive && (f.holds (config.metBefore sequence (n + 1)) &&
    !f.holds (config.metBefore sequence n))

/-- The positions that a condition covers with the literals met before position `n`. -/
def coverage (f : Condition) (n : Nat) : Span :=
  (Span.hullOf (f.positiveLiterals.flatMap (config.spansBefore sequence n))).getD ⟨0, sequence.size⟩

theorem metBefore_iff {n : Nat} {l : Literal} : config.metBefore sequence n l ↔
    ∃ start < n, ∃ w ∈ sequence.walksFrom config.word start, w.meets [l] := by
  rw [metBefore, Bool.not_eq_true', List.isEmpty_eq_false_iff_exists_mem]
  simp only [spansBefore, meetings, List.mem_flatMap, List.mem_range, List.mem_map, List.mem_filter]
  constructor
  · rintro ⟨span, start, hs, w, ⟨hw, hm⟩, -⟩
    exact ⟨start, hs, w, hw, hm⟩
  · rintro ⟨start, hs, w, hw, hm⟩
    exact ⟨_, start, hs, w, ⟨hw, hm⟩, rfl⟩

theorem metBefore_mono {n m : Nat} (h : n ≤ m) {l : Literal}
    (hl : config.metBefore sequence n l) : config.metBefore sequence m l := by
  rw [metBefore_iff] at hl ⊢
  obtain ⟨start, hs, hw⟩ := hl
  exact ⟨start, Nat.lt_of_lt_of_le hs h, hw⟩

theorem metBefore_zero : config.metBefore sequence 0 = fun _ => false := by
  funext l
  rw [metBefore, spansBefore]
  rfl

/-- A condition without a not comes to hold at one position, if it holds in the end. -/
theorem length_filter_newlyHolds {f : Condition} (hf : f.isPositive) (n : Nat) :
    ((List.range n).filter (config.newlyHolds sequence f)).length =
      if f.holds (config.metBefore sequence n) then 1 else 0 := by
  have h := length_filter_gained (b := fun n => f.holds (config.metBefore sequence n))
    (by rw [metBefore_zero]; exact Formula.holds_false hf)
    (fun n hn => Formula.holds_mono
      (fun l => config.metBefore_mono sequence (Nat.le_succ n) (l := l)) hf hn) n
  rw [← h]
  congr 2
  funext i
  rw [newlyHolds, hf, Bool.true_and]

/-- How many positions have been scanned when a condition is found to hold. Without a not it is
found as soon as it holds, with one at the end. -/
def occasions (f : Condition) : List Nat :=
  if f.isPositive then
    ((List.range sequence.size).filter (config.newlyHolds sequence f)).map (· + 1)
  else if f.holds (config.metBefore sequence sequence.size) then [sequence.size]
  else []

/-- A condition is found to hold once if it holds with everything that is met, and never
otherwise. -/
theorem length_occasions (f : Condition) :
    (config.occasions sequence f).length =
      if f.holds (config.metBefore sequence sequence.size) then 1 else 0 := by
  rw [occasions]
  split
  · rename_i hf
    rw [List.length_map, config.length_filter_newlyHolds sequence hf]
  · split <;> rfl

end Config

namespace Ruleset

variable {s : Ruleset} {rules : List Rule}

/-- A literal of the register is behind a target of the walks that spell it. -/
theorem Indexed.mem_targetsOf (h : s.Indexed rules) {w : Walk Candidate} {id : Nat} {l : Literal}
    (hl : s.register.literal? id = some l) :
    .literal id ∈ s.targetsOf w ↔ w.text = l.value.toList ∧ w.rest.isSome = l.isPrefix := by
  rw [targetsOf, h.mem_literal, hl]
  simp [and_comm]

/-- What is reported for a literal of the register are the walks that meet it. -/
theorem Indexed.mem_reports (h : s.Indexed rules) {start : Nat} {w : Walk Candidate} {id : Nat}
    {span : Span} {l : Literal} (hl : s.register.literal? id = some l) :
    (id, span) ∈ s.reports start w ↔ span = w.span start ∧ w.meets [l] := by
  simp only [reports, List.mem_map, List.mem_filterMap, Prod.mk.injEq]
  rw [Walk.meets_singleton, ← h.mem_targetsOf hl]
  constructor
  · rintro ⟨_, ⟨t, ht, hid⟩, rfl, rfl⟩
    cases t with
    | rule i => simp [literal?] at hid
    | literal id' =>
      simp only [literal?, Option.ite_none_right_eq_some, Option.some.injEq] at hid
      obtain ⟨hid, rfl⟩ := hid
      exact ⟨rfl, ht, by simpa [hl] using hid⟩
  · rintro ⟨rfl, ht, hf⟩
    exact ⟨id, ⟨.literal id, ht, by simp [literal?, hl, hf]⟩, rfl, rfl⟩

/-- What is reported for a literal before position `n`. -/
theorem Indexed.mem_reportsBefore (h : s.Indexed rules) (sequence : Sequence) {n id : Nat}
    {span : Span} {l : Literal} (hl : s.register.literal? id = some l) :
    (id, span) ∈ (List.range n).flatMap (s.reportsAt sequence) ↔
      span ∈ s.config.spansBefore sequence n l := by
  simp only [List.mem_flatMap, reportsAt, Config.spansBefore, Config.meetings, List.mem_map,
    List.mem_filter, h.mem_reports hl, walksAt]
  refine exists_congr fun start => and_congr_right fun _ => exists_congr fun w => ?_
  rw [and_assoc, eq_comm (a := span), and_comm (a := w.span start = span)]

/-- A literal of the register has been reported before position `n` if it is met there. -/
theorem Indexed.any_reportsBefore (h : s.Indexed rules) (sequence : Sequence) (n : Nat) {id : Nat}
    {l : Literal} (hl : s.register.literal? id = some l) :
    ((List.range n).flatMap (s.reportsAt sequence)).any (·.1 == id) =
      s.config.metBefore sequence n l := by
  rw [Bool.eq_iff_iff, List.any_eq_true, Config.metBefore, Bool.not_eq_true',
    List.isEmpty_eq_false_iff_exists_mem]
  constructor
  · rintro ⟨⟨_, span⟩, hm, hid⟩
    obtain rfl := beq_iff_eq.1 hid
    exact ⟨span, (h.mem_reportsBefore sequence hl).1 hm⟩
  · rintro ⟨span, hm⟩
    exact ⟨(id, span), (h.mem_reportsBefore sequence hl).2 hm, by simp⟩

/-! ## The run over a sequence -/

theorem range_succ_flatMap {α : Type} (f : Nat → List α) (n : Nat) :
    (List.range (n + 1)).flatMap f = (List.range n).flatMap f ++ f n := by
  rw [List.range_succ, List.flatMap_append, List.flatMap_singleton]

/-- Reporting what is met at a position keeps the invariant of the run. -/
theorem invariant_runAt_of_runBefore {n : Nat} {sequence : Sequence} {out : Nat → Bool}
    (hc : s.circuit.WellFormed) (h : Run.Invariant s.circuit
      (fun id => ((List.range n).flatMap (s.reportsAt sequence)).any (·.1 == id)) out
      (s.runBefore sequence n) []) :
    Run.Invariant s.circuit
      (fun id => ((List.range (n + 1)).flatMap (s.reportsAt sequence)).any (·.1 == id)) out
      (s.runAt sequence n) [] := by
  have hrun := h.notifyAll hc (s.reportsAt sequence n)
  simp only [range_succ_flatMap, List.any_append]
  exact hrun

/-- The run before a position has been told just what is met before it, and has handed out every
condition that has come to hold. -/
theorem Indexed.invariant_runBefore (h : s.Indexed rules) (sequence : Sequence) (n : Nat) :
    Run.Invariant s.circuit
      (fun id => ((List.range n).flatMap (s.reportsAt sequence)).any (·.1 == id))
      (fun k : Nat => (s.runBefore sequence n).fired[k]? == some true)
      (s.runBefore sequence n) [] := by
  induction n with
  | zero =>
    have hout : (fun k : Nat => (s.runBefore sequence 0).fired[k]? == some true) =
        fun _ => false := by
      funext k
      simp [runBefore, Run.start, List.getElem?_replicate]
    rw [hout]
    exact Run.invariant_start s.circuit
  | succ n ih => exact (invariant_runAt_of_runBefore h.wellFormed ih).collect

theorem Indexed.invariant_runAt (h : s.Indexed rules) (sequence : Sequence) (n : Nat) :
    Run.Invariant s.circuit
      (fun id => ((List.range (n + 1)).flatMap (s.reportsAt sequence)).any (·.1 == id))
      (fun k : Nat => (s.runBefore sequence n).fired[k]? == some true) (s.runAt sequence n) [] :=
  invariant_runAt_of_runBefore h.wellFormed (h.invariant_runBefore sequence n)

/-- A literal covers what has been reported for it. -/
theorem spans_runBefore (s : Ruleset) (sequence : Sequence) (n id : Nat) :
    (s.runBefore sequence n).spans id = Span.hullOf
      ((((List.range n).flatMap (s.reportsAt sequence)).filter (·.1 == id)).map Prod.snd) := by
  induction n with
  | zero => rfl
  | succ n ih =>
    have hrun := Run.spans_notifyAll s.circuit (s.runBefore sequence n) (s.reportsAt sequence n) ih
    rw [range_succ_flatMap, List.filter_append, List.map_append]
    exact hrun

/-- The conditions of the circuit are those of the rules. -/
theorem Indexed.listsAll (h : s.Indexed rules) :
    s.circuit.ListsAll s.register (Rule.conditions rules) := h.conditions

theorem metCondition_eq (r : Run) (length : Nat) (rule : CircuitRule) :
    r.metCondition length rule =
      ⟨rule.rule, (Span.hullOf (rule.positive.filterMap r.spans)).getD ⟨0, length⟩⟩ := by
  rw [Run.metCondition]
  cases rule.positive.filterMap r.spans <;> rfl

/-- A condition that comes to hold covers its literals outside every not. -/
theorem Indexed.metCondition_eq (h : s.Indexed rules) (sequence : Sequence) (n : Nat) {k : Nat}
    {rule : CircuitRule} {p : Condition × Nat} (hk : s.circuit.rules[k]? = some rule)
    (hp : (Rule.conditions rules)[k]? = some p) :
    (s.runBefore sequence n).metCondition sequence.size rule =
      ⟨p.2, s.config.coverage sequence p.1 n⟩ := by
  obtain ⟨hrule, hl⟩ := h.listsAll.lists hk hp
  have hspans : (s.runBefore sequence n).spans = fun id => Span.hullOf
      ((((List.range n).flatMap (s.reportsAt sequence)).filter (·.1 == id)).map Prod.snd) :=
    funext (s.spans_runBefore sequence n)
  have hmem (id : Nat) (span : Span) : span ∈ (((List.range n).flatMap
      (s.reportsAt sequence)).filter (·.1 == id)).map Prod.snd ↔
        (id, span) ∈ (List.range n).flatMap (s.reportsAt sequence) := by
    simp [List.mem_map, List.mem_filter]
  rw [Ruleset.metCondition_eq, hrule, Config.coverage, hspans, Span.hullOf_filterMap]
  congr 2
  refine Span.hullOf_congr fun span => ?_
  rw [List.mem_flatMap, List.mem_flatMap]
  constructor
  · rintro ⟨id, hid, hspan⟩
    obtain ⟨l, hl, hid⟩ := (hl.positive id).1 hid
    exact ⟨l, hl, (h.mem_reportsBefore sequence hid).1 ((hmem id span).1 hspan)⟩
  · rintro ⟨l, hm, hspan⟩
    obtain ⟨id, hid⟩ := hl.denotes.mem_literals hm
    exact ⟨id, (hl.positive id).2 ⟨l, hm, hid⟩,
      (hmem id span).2 ((h.mem_reportsBefore sequence hid).2 hspan)⟩

/-- Before a position the conditions without a not have come to hold that hold with what is met
before it. -/
theorem Indexed.fired_runBefore (h : s.Indexed rules) (sequence : Sequence) (n : Nat) {k : Nat}
    {p : Condition × Nat} (hp : (Rule.conditions rules)[k]? = some p) :
    (s.runBefore sequence n).fired[k]? =
      some (p.1.isPositive && p.1.holds (s.config.metBefore sequence n)) := by
  exact (h.invariant_runBefore sequence n).fired_of_lists h.wellFormed h.listsAll
    (fun id l hl => h.any_reportsBefore sequence n hl) hp

/-! ## The conditions that hold -/

/-- The conditions that come to hold at a position are those that newly hold there. -/
theorem Indexed.metAt_perm (h : s.Indexed rules) (sequence : Sequence) (n : Nat) :
    (s.metAt sequence n).Perm
      (((Rule.conditions rules).filter fun p => s.config.newlyHolds sequence p.1 n).map fun p =>
        ⟨p.2, s.config.coverage sequence p.1 (n + 1)⟩) := by
  have hperm := (h.invariant_runAt sequence n).collect_perm (f := id) (n := sequence.size)
    (g := fun p => ⟨p.2, s.config.coverage sequence p.1 (n + 1)⟩) h.wellFormed h.listsAll
    (fun id l hl => h.any_reportsBefore sequence (n + 1) hl)
    (w := s.config.metBefore sequence n)
    (fun k p hp => by rw [h.fired_runBefore sequence n hp]; simp)
    (fun k rule p hk hp => h.metCondition_eq sequence (n + 1) hk hp)
  rwa [List.map_id] at hperm

/-- At the end those conditions with a not are left that hold with everything that is met. -/
theorem Indexed.metAtEnd_eq (h : s.Indexed rules) (sequence : Sequence) :
    s.metAtEnd sequence =
      ((Rule.conditions rules).filter fun p =>
          !p.1.isPositive && p.1.holds (s.config.metBefore sequence sequence.size)).map fun p =>
        ⟨p.2, s.config.coverage sequence p.1 sequence.size⟩ := by
  have hpending : (s.runBefore sequence sequence.size).pending = [] := by
    cases sequence.size <;> rfl
  have hfinish := (h.invariant_runBefore sequence sequence.size).finish_eq (f := id)
    (n := sequence.size)
    (g := fun p => ⟨p.2, s.config.coverage sequence p.1 sequence.size⟩) h.wellFormed h.listsAll
    (fun id l hl => h.any_reportsBefore sequence sequence.size hl)
    (fun k rule p hk hp => h.metCondition_eq sequence sequence.size hk hp)
  rw [List.map_id, List.map_id, Run.collect, hpending] at hfinish
  exact hfinish

/-- A scan comes across every condition that holds, on its occasions. -/
theorem Indexed.metConditions_perm (h : s.Indexed rules) (sequence : Sequence) :
    (s.metConditions sequence).Perm ((Rule.conditions rules).flatMap fun p =>
      (s.config.occasions sequence p.1).map fun n => ⟨p.2, s.config.coverage sequence p.1 n⟩) := by
  have hoccasions (p : Condition × Nat) :
      ((s.config.occasions sequence p.1).map fun n =>
        (⟨p.2, s.config.coverage sequence p.1 n⟩ : MetCondition)) =
      (((List.range sequence.size).filter fun n => s.config.newlyHolds sequence p.1 n).map fun n =>
        ⟨p.2, s.config.coverage sequence p.1 (n + 1)⟩) ++
      if !p.1.isPositive && p.1.holds (s.config.metBefore sequence sequence.size) then
        [⟨p.2, s.config.coverage sequence p.1 sequence.size⟩] else [] := by
    rw [Config.occasions]
    cases hp : p.1.isPositive with
    | true => simp [Function.comp_def]
    | false =>
      have hnone : (fun n => s.config.newlyHolds sequence p.1 n) = fun _ => false :=
        funext fun n => by rw [Config.newlyHolds, hp, Bool.false_and]
      rw [hnone]
      cases p.1.holds (s.config.metBefore sequence sequence.size) <;> simp
  simp only [hoccasions]
  refine .trans ?_ (List.flatMap_append_perm _ _ _)
  refine .append ?_ ?_
  · refine (List.Perm.flatMap_left _ fun n _ => h.metAt_perm sequence n).trans ?_
    exact flatMap_filter_perm _ _
      (fun n (p : Condition × Nat) => s.config.newlyHolds sequence p.1 n)
      (fun n p => (⟨p.2, s.config.coverage sequence p.1 (n + 1)⟩ : MetCondition))
  · rw [h.metAtEnd_eq sequence, map_filter_eq_flatMap]

theorem mem_conditions {f : Condition} {i : Nat} : (f, i) ∈ Rule.conditions rules ↔
    ∃ r source, rules[i]? = some r ∧ r.trigger = .condition f source := by
  simp only [Rule.conditions, List.mem_filterMap, Prod.exists, List.mem_zipIdx_iff_getElem?]
  constructor
  · rintro ⟨r, j, hr, hp⟩
    cases ht : r.trigger with
    | phrase literals => simp [ht] at hp
    | condition g source =>
      simp only [ht, Option.some.injEq, Prod.mk.injEq] at hp
      obtain ⟨rfl, rfl⟩ := hp
      exact ⟨r, source, hr, ht⟩
  · rintro ⟨r, source, hr, ht⟩
    exact ⟨r, i, hr, by simp [ht]⟩

/-- The conditions that hold are those of rules, each on one of its occasions. -/
theorem Indexed.mem_metConditions (h : s.Indexed rules) {sequence : Sequence} {m : MetCondition} :
    m ∈ s.metConditions sequence ↔ ∃ r f source, rules[m.rule]? = some r ∧
      r.trigger = .condition f source ∧
      ∃ n ∈ s.config.occasions sequence f, m.span = s.config.coverage sequence f n := by
  rw [(h.metConditions_perm sequence).mem_iff, List.mem_flatMap]
  constructor
  · rintro ⟨⟨f, i⟩, hp, hm⟩
    obtain ⟨n, hn, rfl⟩ := List.mem_map.1 hm
    obtain ⟨r, source, hr, ht⟩ := mem_conditions.1 hp
    exact ⟨r, f, source, hr, ht, n, hn, rfl⟩
  · rintro ⟨r, f, source, hr, ht, n, hn, hspan⟩
    refine ⟨(f, m.rule), mem_conditions.2 ⟨r, source, hr, ht⟩, List.mem_map.2 ⟨n, hn, ?_⟩⟩
    rw [← hspan]

/-- The conditions that hold are those of different rules. -/
theorem Indexed.nodup_rule_metConditions (h : s.Indexed rules) (sequence : Sequence) :
    ((s.metConditions sequence).map MetCondition.rule).Nodup := by
  have hplaces : ((Rule.conditions rules).map Prod.snd).Nodup := by
    have hfilter : (Rule.conditions rules).map Prod.snd =
        (rules.zipIdx.filter fun q => q.1.trigger.isCondition).map Prod.snd := by
      rw [Rule.conditions, List.map_filterMap, ← List.filterMap_eq_map, ← List.filterMap_eq_filter,
        List.filterMap_filterMap]
      refine List.filterMap_congr fun q _ => ?_
      obtain ⟨r, i⟩ := q
      cases hr : r.trigger <;> simp [Trigger.isCondition, Option.guard, hr]
    rw [hfilter]
    exact (List.nodup_zipIdx_map_snd rules).sublist (List.filter_sublist.map _)
  have hperm := (h.metConditions_perm sequence).map MetCondition.rule
  rw [List.map_flatMap] at hperm
  refine (hperm.nodup_iff.2 (hplaces.sublist ?_))
  rw [← List.flatMap_pure_eq_map]
  refine List.Sublist.flatMap_right _ fun p _ => ?_
  have hlen := s.config.length_occasions sequence p.1
  cases ho : s.config.occasions sequence p.1 with
  | nil => simp
  | cons n ns =>
    have hns : ns = [] := by
      rw [ho, List.length_cons] at hlen
      split at hlen
      · exact List.eq_nil_of_length_eq_zero (by omega)
      · omega
    rw [hns]
    exact .refl _

end Ruleset

end QueryRules
