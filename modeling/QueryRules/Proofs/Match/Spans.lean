import Mathlib.Order.Bounds.Basic
import QueryRules.Proofs.Match.Reported

/-!
# What an action of a condition covers

- `Ruleset.hitsBefore`: where the trie has hits for a literal, up to some start position. These are
  the places where the literal is met (`Ruleset.Indexed.hitsBefore_eq`).
- `Ruleset.conditionSpans_exact`: without a not an action covers the hits up to the start position
  at which its condition comes to hold; with a not it covers all hits of the literals outside every
  not, or the whole sequence.
-/

namespace QueryRules

/-- A span begins where the first of some spans begins and ends where the last of them ends. -/
structure Span.IsHull (h : Span) (ss : List Span) : Prop where
  start : IsLeast {n | ∃ s ∈ ss, s.start = n} h.start
  stop : IsGreatest {n | ∃ s ∈ ss, s.stop = n} h.stop

theorem Span.isHull_of_hullOf {ss : List Span} {h : Span} (hh : hullOf ss = some h) :
    h.IsHull ss := by
  obtain ⟨hstart, hstop, hall⟩ := hullOf_eq_some.1 hh
  refine ⟨⟨hstart, ?_⟩, ⟨hstop, ?_⟩⟩
  · rintro _ ⟨s, hs, rfl⟩
    exact (hall s hs).1
  · rintro _ ⟨s, hs, rfl⟩
    exact (hall s hs).2

/-- The positions of an action. -/
def Action.span (a : Action) : Span := ⟨a.start, a.stop⟩

/-! ## What a condition covers -/

namespace Config

variable {config : Config} {sequence : Sequence} {f : Condition}

/-- A condition without a not is found to hold behind the first position up to which enough of its
literals are met. -/
theorem isLeast_of_mem_occasions (hf : f.isPositive) {m : Nat}
    (hm : m ∈ config.occasions sequence f) : ∃ n < sequence.size, m = n + 1 ∧
      IsLeast {n | f.holds (config.metBefore sequence (n + 1))} n := by
  rw [occasions, if_pos hf, List.mem_map] at hm
  obtain ⟨n, hn, rfl⟩ := hm
  obtain ⟨hlt, hnew⟩ := List.mem_filter.1 hn
  rw [newlyHolds, hf, Bool.true_and, Bool.and_eq_true, Bool.not_eq_true'] at hnew
  refine ⟨n, List.mem_range.1 hlt, rfl, hnew.1, fun k hk => ?_⟩
  by_contra hkn
  -- it would hold before `n` already
  have hbefore := Formula.holds_mono
    (fun l => config.metBefore_mono sequence (show k + 1 ≤ n by omega) (l := l)) hf hk
  exact Bool.false_ne_true (hnew.2.symm.trans hbefore)

/-- A condition with a not is found to hold at the end. -/
theorem eq_size_of_mem_occasions (hf : f.isPositive = false) {m : Nat}
    (hm : m ∈ config.occasions sequence f) : m = sequence.size := by
  rw [occasions, if_neg (by rw [hf]; exact Bool.false_ne_true)] at hm
  split at hm
  · exact List.mem_singleton.1 hm
  · exact absurd hm List.not_mem_nil

/-- A condition covers what its literals outside every not cover, if one of these is met. -/
theorem coverage_isHull {n : Nat} {l : Literal} (hl : l ∈ f.positiveLiterals)
    (hmet : config.metBefore sequence n l) : (config.coverage sequence f n).IsHull
      (f.positiveLiterals.flatMap (config.spansBefore sequence n)) := by
  rw [metBefore, Bool.not_eq_true', List.isEmpty_eq_false_iff_exists_mem] at hmet
  obtain ⟨span, hspan⟩ := hmet
  unfold coverage
  cases hh : Span.hullOf (f.positiveLiterals.flatMap (config.spansBefore sequence n)) with
  | none =>
    have hmem := List.mem_flatMap.2 ⟨l, hl, hspan⟩
    rw [Span.hullOf_eq_none.1 hh] at hmem
    exact absurd hmem List.not_mem_nil
  | some h => exact Span.isHull_of_hullOf hh

/-- Otherwise it covers the whole sequence. -/
theorem coverage_eq_whole {n : Nat}
    (hnone : ∀ l ∈ f.positiveLiterals, config.metBefore sequence n l = false) :
    config.coverage sequence f n = ⟨0, sequence.size⟩ := by
  have hspans : f.positiveLiterals.flatMap (config.spansBefore sequence n) = [] :=
    List.flatMap_eq_nil_iff.2 fun l hl => by simpa [metBefore] using hnone l hl
  rw [coverage, hspans]
  rfl

end Config

namespace Ruleset

/-! ## Hits -/

section

variable (s : Ruleset) (sequence : Sequence)

/-- A hit of the trie is one for a literal: the literal is behind one of its targets and accepts the
fields of its terms. -/
def isHitFor (l : Literal) (hit : Trie.Hit Target) : Bool :=
  allowsFields [l] (hitTerms sequence hit) && hit.targets.any fun
    | .rule _ => false
    | .literal id => s.register.literal? id = some l

/-- Where the hits for a literal are that start before position `n`. -/
def hitsBefore (n : Nat) (l : Literal) : List Span :=
  (List.range n).flatMap fun start =>
    ((s.trie.lookup (s.words sequence) start).filter (s.isHitFor sequence l)).map fun hit =>
      ⟨hit.start, hit.stop⟩

/-- There is a hit for a literal that starts before position `n`. -/
def isHitBefore (n : Nat) (l : Literal) : Bool := !(s.hitsBefore sequence n l).isEmpty

end

variable {config : Config} {rules : List Rule} {s : Ruleset} {sequence : Sequence}

/-- The hit of a walk is one for the literals that the walk meets. -/
theorem Indexed.isHitFor_hitOf (h : s.Indexed rules) {id : Nat} {l : Literal}
    (hl : s.register.literal? id = some l) {start : Nat} {w : Walk (Candidate × Nat)}
    (hw : w ∈ walks (s.config.word ∘ Prod.fst)
      ((sequence.positions.drop start).map List.zipIdx)) :
    s.isHitFor sequence l (s.hitOf start w) = (w.map Prod.fst).meets [l] := by
  have hany : ((s.targetsOf (w.map Prod.fst)).any fun
      | .rule _ => false
      | .literal id => s.register.literal? id = some l) ↔
        .literal id ∈ s.targetsOf (w.map Prod.fst) := by
    rw [List.any_eq_true]
    constructor
    · rintro ⟨t, ht, hid⟩
      cases t with
      | rule i => exact nomatch hid
      | literal id' =>
        have hid' := Register.id?_eq_some_iff.2 (of_decide_eq_true hid)
        obtain rfl := Option.some.inj (hid'.symm.trans (Register.id?_eq_some_iff.2 hl))
        exact ht
    · exact fun ht => ⟨_, ht, decide_eq_true hl⟩
  rw [Bool.eq_iff_iff, Walk.meets_singleton, isHitFor, Bool.and_eq_true,
    s.hitTerms_hitOf sequence hw, and_comm, ← h.mem_targetsOf hl, ← hany]
  rfl

/-- The hits for a literal of the register are where it is met. -/
theorem Indexed.hitsBefore_eq (h : s.Indexed rules) {k : Nat} {l : Literal}
    (hl : s.register.literal? k = some l) (n : Nat) :
    s.hitsBefore sequence n l = s.config.spansBefore sequence n l := by
  unfold hitsBefore Config.spansBefore
  refine List.flatMap_congr fun start _ => ?_
  obtain ⟨hwords, hwalks⟩ := s.walks_numbered sequence start
  rw [Config.meetings, ← walksAt, hwalks, Trie.lookup_eq, hwords]
  generalize hws : walks (s.config.word ∘ Prod.fst)
    ((sequence.positions.drop start).map List.zipIdx) = ws
  have hwalk : ∀ w ∈ ws,
      ((s.trie.hit? start [] (w.map (Prod.map s.config.word id))).filter
        (s.isHitFor sequence l)).map (fun hit => (⟨hit.start, hit.stop⟩ : Span)) =
      if (w.map Prod.fst).meets [l] then some ((w.map Prod.fst).span start) else none := by
    intro w hw
    rw [hit?_eq]
    split
    · rename_i hempty
      -- a walk that meets the literal has its target
      have hmeets : (w.map Prod.fst).meets [l] = false := by
        rw [Bool.eq_false_iff]
        intro hmeets
        have ht := (h.mem_targetsOf hl).2 (Walk.meets_singleton.1 hmeets).1
        rw [List.isEmpty_iff.1 hempty] at ht
        exact List.not_mem_nil ht
      rw [hmeets]
      rfl
    · rw [Option.filter_some, h.isHitFor_hitOf hl (hws ▸ hw)]
      split
      · rw [Option.map_some, stop_hitOf]
        rfl
      · rfl
  rw [List.filterMap_map, List.filter_filterMap, List.map_filterMap, List.filter_map, List.map_map,
    ← List.filterMap_eq_filter, List.map_filterMap]
  refine List.filterMap_congr fun w hw => (hwalk w hw).trans ?_
  rw [Option.guard, Function.comp_apply]
  split <;> rfl

/-- A literal of the register is hit where it is met. -/
theorem Indexed.isHitBefore_eq (h : s.Indexed rules) {k : Nat} {l : Literal}
    (hl : s.register.literal? k = some l) (n : Nat) :
    s.isHitBefore sequence n l = s.config.metBefore sequence n l := by
  rw [isHitBefore, Config.metBefore, h.hitsBefore_eq hl]

/-- The literals of a condition that stand outside every not are in the register. -/
theorem Indexed.exists_literal? (h : s.Indexed rules) {r : Rule} (hr : r ∈ rules) {f : Condition}
    {source : String} (ht : r.trigger = .condition f source) {l : Literal}
    (hl : l ∈ f.positiveLiterals) : ∃ id, s.register.literal? id = some l := by
  obtain ⟨i, hi⟩ := List.mem_iff_getElem?.1 hr
  obtain ⟨k, hk⟩ := List.mem_iff_getElem?.1 (mem_conditions.2 ⟨r, source, hi, ht⟩)
  obtain ⟨rule, hrule⟩ := h.listsAll.exists_rule hk
  exact (h.listsAll.lists hrule hk).2.denotes.mem_literals hl

/-! ## Actions -/

/-- An action of a rule with a condition covers what the condition covers on one of its
occasions. -/
theorem Indexed.span_of_condition (h : s.Indexed s.rules) {a : Action}
    (ha : a ∈ s.actions sequence) {r : Rule} (hr : r ∈ a.rules) {f : Condition} {source : String}
    (ht : r.trigger = .condition f source) : r ∈ s.rules ∧
      (∃ n ∈ s.config.occasions sequence f, a.span = s.config.coverage sequence f n) ∧
      a.terms = sequence.span a.start a.stop := by
  rcases List.mem_append.1 ((h.actions_perm sequence).mem_iff.1 ha) with ha | ha
  · have htrigger := (h.rules_phraseAction ha r hr).2
    rw [ht] at htrigger
    exact nomatch htrigger
  · obtain ⟨m, hm, rfl⟩ := List.mem_map.1 ha
    obtain ⟨q, g, source', hq, htrigger, n, hn, hspan⟩ := h.mem_metConditions.1 hm
    rw [conditionAction, hq, Option.toList_some, List.mem_singleton] at hr
    obtain rfl := hr
    obtain ⟨rfl, -⟩ := Trigger.condition.inj (htrigger.symm.trans ht)
    exact ⟨List.mem_of_getElem? hq, ⟨n, hn, hspan⟩, rfl⟩

/-- What an action of a rule with a condition covers, and which terms it takes. -/
theorem conditionSpans_exact (hs : compile config rules = .ok s) {a : Action}
    (ha : a ∈ s.actions sequence) {r : Rule} (hr : r ∈ a.rules) {f : Condition} {source : String}
    (ht : r.trigger = .condition f source) :
    (if f.isPositive then
      ∃ n < sequence.size, IsLeast {n | f.holds (s.isHitBefore sequence (n + 1))} n ∧
        (∃ l ∈ f.literals, s.isHitBefore sequence (n + 1) l) ∧
        a.span.IsHull (f.literals.flatMap (s.hitsBefore sequence (n + 1)))
    else if ∃ l ∈ f.positiveLiterals, s.isHitBefore sequence sequence.size l then
      a.span.IsHull (f.positiveLiterals.flatMap (s.hitsBefore sequence sequence.size))
    else a.span = ⟨0, sequence.size⟩) ∧
    a.start ≤ a.stop ∧ a.stop ≤ sequence.size ∧
    a.terms = ((sequence.positions.take a.stop).drop a.start).flatten := by
  have h := indexed_of_compile hs
  obtain ⟨hm, ⟨m, hoccasion, hspan⟩, hterms⟩ := h.span_of_condition ha hr ht
  have hhit (n : Nat) : ∀ l ∈ f.positiveLiterals,
      s.isHitBefore sequence n l = s.config.metBefore sequence n l := by
    intro l hl
    obtain ⟨id, hid⟩ := h.exists_literal? hm ht hl
    exact h.isHitBefore_eq hid n
  have hhits (n : Nat) : f.positiveLiterals.flatMap (s.hitsBefore sequence n) =
      f.positiveLiterals.flatMap (s.config.spansBefore sequence n) := by
    refine List.flatMap_congr fun l hl => ?_
    obtain ⟨id, hid⟩ := h.exists_literal? hm ht hl
    exact h.hitsBefore_eq hid n
  obtain ⟨hle, hstop⟩ : a.span.start ≤ a.span.stop ∧ a.span.stop ≤ sequence.size := by
    rw [hspan]
    exact s.config.coverage_bounds sequence f m
  refine ⟨?_, hle, hstop, hterms⟩
  split
  · rename_i hf
    obtain ⟨n, hn, rfl, hleast⟩ := Config.isLeast_of_mem_occasions hf hoccasion
    have hholds (n : Nat) : f.holds (s.isHitBefore sequence n) =
        f.holds (s.config.metBefore sequence n) :=
      Formula.holds_congr fun l hl => hhit n l (Formula.positiveLiterals_eq hf ▸ hl)
    obtain ⟨l, hl, hmet⟩ := Formula.exists_literal_of_holds hf hleast.1
    rw [← Formula.positiveLiterals_eq hf] at hl ⊢
    have hcovers := Config.coverage_isHull hl hmet
    rw [← hspan, ← hhits] at hcovers
    simp only [← hholds] at hleast
    exact ⟨n, hn, hleast, ⟨l, hl, (hhit _ l hl).trans hmet⟩, hcovers⟩
  · rename_i hf
    obtain rfl := Config.eq_size_of_mem_occasions (Bool.eq_false_iff.2 hf) hoccasion
    split
    · rename_i hsome
      obtain ⟨l, hl, hmet⟩ := hsome
      rw [hhits, hspan]
      exact Config.coverage_isHull hl ((hhit _ l hl).symm.trans hmet)
    · rename_i hnone
      rw [hspan]
      refine Config.coverage_eq_whole fun l hl => Bool.eq_false_iff.2 fun hmet => ?_
      exact hnone ⟨l, hl, (hhit _ l hl).trans hmet⟩

/-- The first condition holds with `one` and `big`; it also covers `big house`, which begins where it
comes to hold, but no later hit. The second one covers `one`, the only literal outside its nots. -/
theorem conditionSpans_exact_shared :
    let one : Condition := .literal { value := "one" }
    let big : Condition := .literal { value := "big" }
    let house : Condition := .literal { value := "big hou", isPrefix := true }
    let f : Condition := .all [big, .any [one, house]]
    let g : Condition := .any [one, .not (.all [one, .not house])]
    let rules := [.bare "a" (.condition f ""), .bare "b" (.condition g "")]
    let sequence := .ofValues ["small", "one", "big", "house", "one", "dog"]
    ∃ s, compile {} rules = .ok s ∧
      (∃ a ∈ s.actions sequence, a.span = ⟨1, 4⟩ ∧
        ∃ n < sequence.size, IsLeast {n | f.holds (s.isHitBefore sequence (n + 1))} n ∧
          a.span.IsHull (f.literals.flatMap (s.hitsBefore sequence (n + 1)))) ∧
      ∃ a ∈ s.actions sequence, a.span = ⟨1, 5⟩ ∧
        a.span.IsHull (s.hitsBefore sequence sequence.size { value := "one" }) := by
  intro one big house f g rules sequence
  have hs : compile {} rules = .ok (build {} (rules.map (normalized {}))) :=
    compile_eq_ok_iff.2 ⟨by decide +kernel, by decide +kernel, rfl⟩
  have haction (r : Rule) (hr : r ∈ rules.map (normalized {})) (hc : r.trigger.isCondition = true)
      (span : Span) (hspan : ((build {} (rules.map (normalized {}))).actionsOf sequence r.id).map
        Action.span = [span]) : ∃ a ∈ (build {} (rules.map (normalized {}))).actions sequence,
          r ∈ a.rules ∧ a.span = span := by
    rw [← rules_of_compile hs] at hr
    obtain ⟨a, ha, rfl⟩ := List.mem_map.1 (hspan ▸ List.mem_singleton_self span)
    obtain ⟨ha, hrules⟩ := (mem_actionsOf hs hr hc).1 ha
    exact ⟨a, ha, by rw [hrules]; exact List.mem_singleton_self r, rfl⟩
  have hone : Config.normalizeLiteral {} { value := "one" } = { value := "one" } := by
    decide +kernel
  have hbig : Config.normalizeLiteral {} { value := "big" } = { value := "big" } := by
    decide +kernel
  have hhouse : Config.normalizeLiteral {} { value := "big hou", isPrefix := true } =
      { value := "big hou", isPrefix := true } := by decide +kernel
  have hf : Formula.map (Config.normalizeLiteral {}) f = f := by
    simp only [f, one, big, house, Formula.map, Formula.mapList, hone, hbig, hhouse]
  have hg : Formula.map (Config.normalizeLiteral {}) g = g := by
    simp only [g, one, house, Formula.map, Formula.mapList, hone, hhouse]
  obtain ⟨a, ha, hra, hspan⟩ := haction (normalized {} (.bare "a" (.condition f "")))
    List.mem_cons_self rfl ⟨1, 4⟩ (by decide +kernel)
  obtain ⟨b, hb, hrb, hspan'⟩ := haction (normalized {} (.bare "b" (.condition g "")))
    (List.mem_cons_of_mem _ List.mem_cons_self) rfl ⟨1, 5⟩ (by decide +kernel)
  have hfirst := conditionSpans_exact hs ha hra (congrArg (Trigger.condition · "") hf)
  have hsecond := conditionSpans_exact hs hb hrb (congrArg (Trigger.condition · "") hg)
  rw [if_pos (by decide)] at hfirst
  rw [if_neg (by decide), if_pos (by decide +kernel)] at hsecond
  obtain ⟨n, hn, hleast, -, hcovers⟩ := hfirst.1
  refine ⟨_, hs, ⟨a, ha, hspan, n, hn, hleast, hcovers⟩, b, hb, hspan', ?_⟩
  simpa [g, one, Formula.positiveLiterals, Formula.positiveLiteralsOf] using hsecond.1

end Ruleset

end QueryRules
