import Mathlib.Algebra.BigOperators.Group.List.Basic
import Mathlib.Algebra.Order.BigOperators.Group.List
import QueryRules.Proofs.Match.Consumed
import QueryRules.Proofs.Match.Spans

/-!
# One literal as a condition and as a phrase

- `Ruleset.Indexed.mem_firings_singleton`: the actions of a rule set of one rule are the matches of
  its trigger.
- `Config.mem_conditionFirings_literal`: a condition that is a literal covers the first place where
  the literal matches as a phrase.
- `Walk.meets_congr`: phrases with the same words in every field are met by the same walks, however
  the words are spread over literals.
-/

namespace QueryRules

namespace Ruleset

variable {s : Ruleset} {sequence : Sequence}

/-! ## Rule sets of one rule -/

theorem Indexed.firings_singleton_perm (h : s.Indexed s.rules) {r : Rule} (hr : s.rules = [r]) :
    (s.firings sequence).Perm ((s.config.firings sequence r.trigger).map fun f => (r, f)) := by
  have hperm := h.firings_perm sequence
  rwa [hr, List.flatMap_singleton] at hperm

/-- The actions of a rule set of one rule are the matches of its trigger. -/
theorem Indexed.mem_firings_singleton (h : s.Indexed s.rules) {r : Rule} (hr : s.rules = [r])
    {f : Firing} :
    f ∈ s.config.firings sequence r.trigger ↔ ∃ a ∈ s.actions sequence, a.firing = f := by
  have hperm := @firings_singleton_perm s sequence h r hr
  constructor
  · intro hf
    obtain ⟨a, ha, hrule⟩ := List.mem_flatMap.1 (hperm.mem_iff.2 (List.mem_map_of_mem hf))
    obtain ⟨q, -, he⟩ := List.mem_map.1 hrule
    exact ⟨a, ha, (Prod.mk.inj he).2⟩
  · rintro ⟨a, ha, rfl⟩
    obtain ⟨q, hq⟩ := List.exists_mem_of_ne_nil _ (h.rules_ne_nil ha)
    have hmem := hperm.mem_iff.1 (List.mem_flatMap.2 ⟨a, ha, List.mem_map_of_mem hq⟩)
    obtain ⟨f, hf, he⟩ := List.mem_map.1 hmem
    exact (Prod.mk.inj he).2 ▸ hf

/-- The one rule has all the actions. -/
theorem Indexed.mem_rules_singleton (h : s.Indexed s.rules) {r : Rule} (hr : s.rules = [r])
    {a : Action} (ha : a ∈ s.actions sequence) : r ∈ a.rules := by
  obtain ⟨q, hq⟩ := List.exists_mem_of_ne_nil _ (h.rules_ne_nil ha)
  have hmem : q ∈ s.rules := by
    rcases h.rules_action ha with hphrase | ⟨p, hp, hrules, -⟩
    · exact (hphrase q hq).1
    · rw [hrules, List.mem_singleton] at hq
      exact hq ▸ hp
  rw [hr, List.mem_singleton] at hmem
  exact hmem ▸ hq

theorem Indexed.actions_ne_nil_iff (h : s.Indexed s.rules) {r : Rule} (hr : s.rules = [r]) :
    s.actions sequence ≠ [] ↔ s.config.firings sequence r.trigger ≠ [] := by
  constructor
  · intro hne
    obtain ⟨a, ha⟩ := List.exists_mem_of_ne_nil _ hne
    exact List.ne_nil_of_mem ((h.mem_firings_singleton hr).2 ⟨a, ha, rfl⟩)
  · intro hne
    obtain ⟨f, hf⟩ := List.exists_mem_of_ne_nil _ hne
    obtain ⟨a, ha, -⟩ := (h.mem_firings_singleton hr).1 hf
    exact List.ne_nil_of_mem ha

/-- There are at most as many actions as matches. -/
theorem Indexed.length_actions_le (h : s.Indexed s.rules) {r : Rule} (hr : s.rules = [r]) :
    (s.actions sequence).length ≤ (s.config.firings sequence r.trigger).length := by
  have hrules : ∀ n ∈ (s.actions sequence).map (List.length ∘ Action.firings), 1 ≤ n := by
    intro n hn
    obtain ⟨a, ha, rfl⟩ := List.mem_map.1 hn
    simpa [Action.firings, Nat.one_le_iff_ne_zero] using h.rules_ne_nil ha
  calc (s.actions sequence).length
    _ = ((s.actions sequence).map (List.length ∘ Action.firings)).length := by simp
    _ ≤ ((s.actions sequence).map (List.length ∘ Action.firings)).sum :=
      List.length_le_sum_of_one_le _ hrules
    _ = (s.firings sequence).length := by rw [firings, List.length_flatMap]; rfl
    _ = (s.config.firings sequence r.trigger).length := by
      rw [(h.firings_singleton_perm hr).length_eq, List.length_map]

end Ruleset

namespace Config

variable {config : Config} {sequence : Sequence}

/-! ## Conditions of one literal -/

theorem mem_phraseFirings {literals : List Literal} {f : Firing} :
    f ∈ config.phraseFirings sequence literals ↔ ∃ start < sequence.size,
      ∃ w ∈ sequence.walksFrom config.word start, w.meets literals ∧
        f = ⟨start, start + w.taken.length, w.taken, w.rest.map String.ofList⟩ := by
  simp only [phraseFirings, meetings, List.mem_flatMap, List.mem_range, List.mem_map,
    List.mem_filter, and_assoc, eq_comm (a := f)]

/-- A match of a phrase of words takes a position for every word. -/
theorem stop_of_mem_phraseFirings {literals : List Literal} (hne : literals ≠ [])
    (hwords : HaveWords literals) {f : Firing}
    (hf : f ∈ config.phraseFirings sequence literals) :
    f.stop = f.start + (wantedWords literals).length := by
  obtain ⟨start, -, w, hw, hmeets, rfl⟩ := mem_phraseFirings.1 hf
  rw [← length_of_fits (fits_of_meets hne hwords hw hmeets)]

variable {l : Literal}

theorem length_conditionFirings_literal :
    (config.conditionFirings sequence (.literal l)).length =
      if config.metBefore sequence sequence.size l then 1 else 0 := by
  rw [conditionFirings, List.length_map, length_occasions, Formula.holds_literal]

theorem metBefore_size_iff : config.metBefore sequence sequence.size l ↔
    config.phraseFirings sequence [l] ≠ [] := by
  rw [metBefore_iff]
  constructor
  · rintro ⟨start, hstart, w, hw, hmeets⟩
    exact List.ne_nil_of_mem (mem_phraseFirings.2 ⟨start, hstart, w, hw, hmeets, rfl⟩)
  · intro hne
    obtain ⟨f, hf⟩ := List.exists_mem_of_ne_nil _ hne
    obtain ⟨start, hstart, w, hw, hmeets, -⟩ := mem_phraseFirings.1 hf
    exact ⟨start, hstart, w, hw, hmeets⟩

theorem conditionFirings_literal_ne_nil_iff :
    config.conditionFirings sequence (.literal l) ≠ [] ↔
      config.phraseFirings sequence [l] ≠ [] := by
  rw [← metBefore_size_iff, ← List.length_pos_iff, length_conditionFirings_literal]
  split <;> simp [*]

/-- A condition that is a literal covers the first place where the literal matches as a phrase. -/
theorem mem_conditionFirings_literal (hwords : Text.IsWords l.value.toList) {f : Firing}
    (hf : f ∈ config.conditionFirings sequence (.literal l)) :
    IsLeast {n | ∃ g ∈ config.phraseFirings sequence [l], g.start = n} f.start ∧
      f.stop = f.start + (wantedWords [l]).length := by
  obtain ⟨m, hm, rfl⟩ := List.mem_map.1 hf
  obtain ⟨n, hn, rfl, hmet, hleast⟩ := isLeast_of_mem_occasions rfl hm
  simp only [Formula.holds_literal] at hmet hleast
  -- nothing before `n` meets the literal, and what meets it at `n` has its words
  have hfirst {k : Nat} {w : Walk Candidate} (hw : w ∈ sequence.walksFrom config.word k)
      (hmeets : w.meets [l]) : n ≤ k :=
    hleast (config.metBefore_iff sequence |>.2 ⟨k, Nat.lt_succ_self k, w, hw, hmeets⟩)
  have hspans : ∀ s ∈ config.spansBefore sequence (n + 1) l,
      s = ⟨n, n + (wantedWords [l]).length⟩ := by
    intro s hs
    obtain ⟨k, hk, hs⟩ := List.mem_flatMap.1 hs
    obtain ⟨w, hw, rfl⟩ := List.mem_map.1 hs
    obtain ⟨hw, hmeets⟩ := List.mem_filter.1 hw
    obtain rfl : k = n := by
      have := hfirst hw hmeets
      have := List.mem_range.1 hk
      omega
    have hfits := fits_of_meets (List.cons_ne_nil l []) (by simpa [HaveWords] using hwords) hw
      hmeets
    rw [Walk.span, length_of_fits hfits]
  have hpositive : l ∈ Formula.positiveLiterals (.literal l) := by simp [Formula.positiveLiterals]
  have hhull := coverage_isHull hpositive hmet
  have hliterals : (Formula.positiveLiterals (.literal l)).flatMap
      (config.spansBefore sequence (n + 1)) = config.spansBefore sequence (n + 1) l := by
    simp [Formula.positiveLiterals]
  rw [hliterals] at hhull
  obtain ⟨⟨⟨s, hs, hstart⟩, -⟩, ⟨⟨t, ht, hstop⟩, -⟩⟩ := hhull
  rw [hspans s hs] at hstart
  rw [hspans t ht] at hstop
  dsimp only at hstart hstop ⊢
  rw [← hstart, ← hstop]
  refine ⟨⟨?_, ?_⟩, rfl⟩
  · obtain ⟨k, hk, w, hw, hmeets⟩ := (config.metBefore_iff sequence).1 hmet
    obtain rfl : k = n := by
      have := hfirst hw hmeets
      omega
    exact ⟨_, mem_phraseFirings.2 ⟨k, hn, w, hw, hmeets, rfl⟩, rfl⟩
  · rintro _ ⟨g, hg, rfl⟩
    obtain ⟨k, -, w, hw, hmeets, rfl⟩ := mem_phraseFirings.1 hg
    exact hfirst hw hmeets

/-! ## Words spread over literals -/

theorem phraseFirings_congr {literals literals' : List Literal}
    (h : ∀ w : Walk Candidate, w.meets literals = w.meets literals') :
    config.phraseFirings sequence literals = config.phraseFirings sequence literals' := by
  simp only [phraseFirings, meetings, h]

end Config

theorem wantedWords_eq_pieces {literals : List Literal} (h : HaveWords literals) :
    (wantedWords literals).map Prod.snd =
      Text.pieces (· == ' ') (Ruleset.phraseKey literals) := by
  rw [phraseKey_eq h, Text.pieces_unwords]
  intro w hw
  obtain ⟨p, hp, rfl⟩ := List.mem_map.1 hw
  exact mem_wantedWords hp

/-- Literals in every field only ask for enough terms. -/
theorem allowsFields_of_fields_empty {literals : List Literal} (h : ∀ l ∈ literals, l.fields = ∅)
    (terms : List Candidate) : Ruleset.allowsFields literals terms =
      decide ((wantedWords literals).length ≤ terms.length) := by
  have hlength : (literals.flatMap fun l => l.words.map fun _ => l).length =
      (wantedWords literals).length := by
    simp [wantedWords, List.length_flatMap]
  unfold Ruleset.allowsFields
  dsimp only
  rw [hlength, List.all_eq_true.2, Bool.and_true]
  rintro ⟨l, t⟩ hmem
  obtain ⟨k, hk, hl⟩ := List.mem_flatMap.1 (List.of_mem_zip hmem).1
  obtain ⟨v, -, rfl⟩ := List.mem_map.1 hl
  have hempty : k.fields.isEmpty := by rw [h k hk]; rfl
  simp [Literal.allowsFields, hempty]

/-- Phrases with the same words in every field are met by the same walks. -/
theorem Walk.meets_congr {literals literals' : List Literal} (hwords : HaveWords literals)
    (hwords' : HaveWords literals') (hfields : ∀ l ∈ literals, l.fields = ∅)
    (hfields' : ∀ l ∈ literals', l.fields = ∅)
    (hkey : Ruleset.phraseKey literals = Ruleset.phraseKey literals')
    (hends : Ruleset.endsInPrefix literals = Ruleset.endsInPrefix literals')
    (w : Walk Candidate) : w.meets literals = w.meets literals' := by
  have hlength : (wantedWords literals).length = (wantedWords literals').length := by
    rw [← List.length_map Prod.snd, wantedWords_eq_pieces hwords, hkey,
      ← wantedWords_eq_pieces hwords', List.length_map]
  rw [Walk.meets, Walk.meets, hkey, hends, allowsFields_of_fields_empty hfields,
    allowsFields_of_fields_empty hfields', hlength]

/-! ## Both rule sets -/

/-- There is an action if there are others, only one, and it covers the first place at which the
others start. -/
structure CoversFirst (condition phrase : List Action) : Prop where
  ne_nil_iff : condition ≠ [] ↔ phrase ≠ []
  length_le : condition.length ≤ 1
  isLeast_start : ∀ a ∈ condition, IsLeast {n | ∃ b ∈ phrase, b.start = n} a.start
  stop_eq : ∀ a ∈ condition, ∀ b ∈ phrase, b.start = a.start → b.stop = a.stop

/-- A rule whose condition is a literal covers the first match of a rule whose phrase has the same
words. -/
theorem Ruleset.Indexed.coversFirst {s t : Ruleset} (hs : s.Indexed s.rules)
    (ht : t.Indexed t.rules) (hconfig : s.config = t.config) {r q : Rule} (hr : s.rules = [r])
    (hq : t.rules = [q]) {l : Literal} {source : String} {literals : List Literal}
    (hcondition : r.trigger = .condition (.literal l) source)
    (hphrase : q.trigger = .phrase literals) (hwords : Text.IsWords l.value.toList)
    (hmeets : ∀ w : Walk Candidate, w.meets literals = w.meets [l]) (sequence : Sequence) :
    CoversFirst (s.actions sequence) (t.actions sequence) := by
  have hfirings : t.config.firings sequence q.trigger = s.config.phraseFirings sequence [l] := by
    rw [hphrase, ← hconfig]
    exact Config.phraseFirings_congr hmeets
  have hconditions : s.config.firings sequence r.trigger =
      s.config.conditionFirings sequence (.literal l) := by
    rw [hcondition]
    rfl
  have hmem {f : Firing} : f ∈ s.config.firings sequence r.trigger ↔
      ∃ a ∈ s.actions sequence, a.firing = f := hs.mem_firings_singleton hr
  have hmem' {f : Firing} : f ∈ t.config.firings sequence q.trigger ↔
      ∃ a ∈ t.actions sequence, a.firing = f := ht.mem_firings_singleton hq
  rw [hconditions] at hmem
  rw [hfirings] at hmem'
  constructor
  case ne_nil_iff =>
    rw [hs.actions_ne_nil_iff hr, ht.actions_ne_nil_iff hq, hconditions, hfirings]
    exact Config.conditionFirings_literal_ne_nil_iff
  case length_le =>
    refine (hs.length_actions_le hr).trans ?_
    rw [hconditions, Config.length_conditionFirings_literal]
    split
    · exact Nat.le_refl 1
    · exact Nat.zero_le 1
  case isLeast_start =>
    intro a ha
    have hstarts : {n | ∃ b ∈ t.actions sequence, b.start = n} =
        {n | ∃ g ∈ s.config.phraseFirings sequence [l], g.start = n} := by
      ext n
      constructor
      · rintro ⟨b, hb, rfl⟩
        exact ⟨b.firing, hmem'.2 ⟨b, hb, rfl⟩, rfl⟩
      · rintro ⟨g, hg, rfl⟩
        obtain ⟨b, hb, rfl⟩ := hmem'.1 hg
        exact ⟨b, hb, rfl⟩
    rw [hstarts]
    exact (Config.mem_conditionFirings_literal hwords (hmem.2 ⟨a, ha, rfl⟩)).1
  case stop_eq =>
    intro a ha b hb hstart
    have ha' : a.stop = a.start + (wantedWords [l]).length :=
      (Config.mem_conditionFirings_literal hwords (hmem.2 ⟨a, ha, rfl⟩)).2
    have hb' : b.stop = b.start + (wantedWords [l]).length :=
      Config.stop_of_mem_phraseFirings (List.cons_ne_nil l [])
        (by simpa [HaveWords] using hwords) (hmem'.2 ⟨b, hb, rfl⟩)
    rw [ha', hb', hstart]

end QueryRules
