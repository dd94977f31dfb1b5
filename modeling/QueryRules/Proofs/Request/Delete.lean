import QueryRules.Proofs.Request.Effect
import QueryRules.Proofs.RuleText.Delete

/-!
# What a delete line deletes

A delete line names literals of its rule. The terms of a match are compared with these literals
again, whichever literal they were taken for.

- `Ruleset.deleteTerms_exact`: the terms that were taken for the listed literals are deleted, and
  those of other literals that a listed literal accepts as well.
- `Ruleset.deleteTerms_overlapping`: a term of another literal that is deleted.
-/

namespace QueryRules.Ruleset

variable {config : Config} {text : String} {s : Ruleset}

/-- What a delete line lists in a rule set, and what it deletes at a match: nothing but terms that
were taken for a listed literal and terms that a listed literal accepts. All of these are deleted,
as far as they were not taken for a listed literal of several words. -/
theorem deleteTerms_exact (hc : config.KeepsWords) (hs : ofText config text = .ok s) {n j : Nat}
    {literals named : List Literal}
    (hline : RuleText.WritesDelete config text n j literals named)
    (hdistinct : literals.Pairwise fun l k => l.agrees k = false) :
    ∃ r terms, s.rules[n]? = some r ∧ r.instructions[j]? = some (.delete (some terms)) ∧
      (∀ l, l ∈ terms ↔
        ∃ k ∈ literals, config.normalizeLiteral k = l ∧ ∃ m ∈ named, k.agrees m) ∧
      ∀ sequence reported, ∀ a ∈ (s.scan sequence reported).1, r ∈ a.rules →
        let taken := consumed (literals.map config.normalizeLiteral) a.terms
        taken.map Prod.snd = a.terms ∧
        ∀ q : Query, q.WellFormed → ∀ id,
          (∀ p ∈ taken, p.2.id = id → p.1 ∈ terms → p.1.words.length = 1) →
          (Progress.deleteTerms s.config a.terms (some terms) q).term? id =
            if ∃ p ∈ taken, p.2.id = id ∧ (p.1 ∈ terms ∨ s.config.names (some terms) p.2) then none
            else q.term? id := by
  obtain ⟨r, terms, hr, htrigger, hi, hterms⟩ := exists_delete_of_ofText hs hline hdistinct
  refine ⟨r, terms, hr, hi, hterms, fun sequence reported a ha har => ?_⟩
  obtain ⟨rules, -, hcompile⟩ := bind_eq_ok_iff.1 hs
  have hcheck := checkTrigger_of_mem hcompile (List.mem_of_getElem? hr)
  rw [htrigger] at hcheck
  obtain ⟨hne, hexact⟩ := checkTrigger_phrase hcheck
  have hwords : HaveWords (literals.map config.normalizeLiteral) := by
    obtain ⟨_, draft, _, _, -, -, htext, -⟩ := hline
    exact hc.normalizeLiteral (RuleText.haveWords_of_readTrigger hc htext)
  have hfits :=
    (indexed_of_compile hcompile).fits_of_mem_scan ha har htrigger hne hwords
  intro taken
  have hsnd : taken.map Prod.snd = a.terms := Config.map_snd_consumed hfits
  refine ⟨hsnd, fun q hq id hone => ?_⟩
  rw [Progress.deleteTerms_eq, (hq.framed_eraseTerms _).2]
  refine if_congr ?_ rfl rfl
  simp only [Instruction.deleted, List.mem_map, List.mem_filter]
  constructor
  · rintro ⟨t, ⟨ht, hnames⟩, hid⟩
    obtain ⟨p, hp, rfl⟩ := List.mem_map.1 (hsnd ▸ ht)
    exact ⟨p, hp, hid, .inr hnames⟩
  · rintro ⟨⟨l, t⟩, hp, hid, hlisted⟩
    refine ⟨t, ⟨(List.of_mem_zip hp).2, ?_⟩, hid⟩
    rcases hlisted with hl | hnames
    · refine Config.names_iff.2 fun ls hls => ?_
      obtain rfl := Option.mem_some_iff.1 hls
      exact ⟨l, hl, Config.matchesValue_of_mem_consumed hfits hwords hexact hp (hone (l, t) hp hid hl),
        Config.allowsFields_of_mem_consumed hfits hp⟩
    · exact hnames

/-! ## A rule with overlapping literals -/

/-- The last two of these literals accept a term in common. -/
def overlapping : List Literal :=
  [{ value := "red" }, { value := "laptop" }, { value := "lap", isPrefix := true }]

/-- A rule that deletes what its last literal accepts, as text. -/
def overlappingText : String := "red laptop lap* =>\n  DELETE: lap"

/-- The rule of `overlappingText`. -/
def overlappingRule : Rule :=
  .make (.phrase overlapping) 0 (.string "red laptop lap*#0")
    [.delete (some [{ value := "lap", isPrefix := true }])] []

/-- A query that the rule matches. -/
def overlappingQuery : Query :=
  .ofTerms [(.should, { value := "Red" }), (.should, { value := "laptop" }),
    (.should, { value := "laptops" })]

/-- The terms of the query. -/
def overlappingTerms : List Candidate := [⟨2, "Red", ∅⟩, ⟨4, "laptop", ∅⟩, ⟨6, "laptops", ∅⟩]

/-- The match of the rule. -/
def overlappingAction : Action :=
  { rules := [overlappingRule], terms := overlappingTerms, start := 0, stop := 3
    suffix := some "tops" }

theorem readDrafts_overlappingText : RuleText.readDrafts {} overlappingText =
    .ok [{ input := "red laptop lap*", line := 1
           instructions := [⟨.delete, none, some "lap", 2⟩] }] := rfl

theorem writesDelete_overlappingText :
    RuleText.WritesDelete {} overlappingText 0 0 overlapping [{ value := "lap" }] :=
  ⟨_, _, _, _, readDrafts_overlappingText, rfl, rfl, rfl, rfl, rfl, rfl⟩

theorem ofText_overlappingText : ofText {} overlappingText = .ok (build {} [overlappingRule]) :=
  bind_eq_ok_iff.2 ⟨[overlappingRule], bind_eq_ok_iff.2 ⟨_, readDrafts_overlappingText, rfl⟩, rfl⟩

theorem sequences_overlappingQuery :
    overlappingQuery.sequences = [⟨overlappingTerms.map fun t => [t]⟩] := by
  decide +kernel

theorem mem_scan_overlappingRule : overlappingAction ∈
    ((build {} [overlappingRule]).scan ⟨overlappingTerms.map fun t => [t]⟩ []).1 := by
  have hscan : ((build {} [overlappingRule]).scan ⟨overlappingTerms.map fun t => [t]⟩ []).1 =
    [overlappingAction] := rfl
  rw [hscan]
  exact List.mem_singleton_self _

/-- The term of the listed literal is deleted, and so is another that this literal accepts; a third
one stays. -/
theorem deleteTerms_exact_overlapping :
    ∃ s r terms, ofText {} overlappingText = .ok s ∧ s.rules[0]? = some r ∧
      r.instructions[0]? = some (.delete (some terms)) ∧
      ∃ sequence ∈ overlappingQuery.sequences, ∃ a ∈ (s.scan sequence []).1, r ∈ a.rules ∧
      let q := Progress.deleteTerms s.config a.terms (some terms) overlappingQuery
      q.term? 2 = some { value := "Red" } ∧ q.term? 4 = none ∧ q.term? 6 = none := by
  have hq : overlappingQuery.WellFormed := (Query.regular_ofTerms _).wellFormed
  obtain ⟨r, terms, hr, hi, -, hmatch⟩ := deleteTerms_exact Config.keepsWords_default
    ofText_overlappingText writesDelete_overlappingText (by decide)
  obtain rfl : overlappingRule = r := Option.some.inj hr
  obtain rfl : [{ value := "lap", isPrefix := true }] = terms := by
    simpa [overlappingRule, Rule.make] using hi
  obtain ⟨-, hdeleted⟩ :=
    hmatch _ [] overlappingAction mem_scan_overlappingRule (List.mem_singleton_self _)
  have hdeleted := hdeleted overlappingQuery hq
  refine ⟨_, _, _, ofText_overlappingText, hr, hi, _, ?_, _, mem_scan_overlappingRule,
    List.mem_singleton_self _, ?_, ?_, ?_⟩
  · rw [sequences_overlappingQuery]
    exact List.mem_singleton_self _
  · rw [hdeleted 2 (by decide +kernel), if_neg (by decide +kernel)]
    decide +kernel
  · rw [hdeleted 4 (by decide +kernel), if_pos (by decide +kernel)]
  · rw [hdeleted 6 (by decide +kernel), if_pos (by decide +kernel)]

/-- A delete line can delete more than the terms of the literals that it lists: no two literals of
the rule agree and the second one is not listed, but the term that was taken for it is deleted. -/
theorem deleteTerms_overlapping :
    (overlapping.Pairwise fun l k => l.agrees k = false) ∧
    RuleText.WritesDelete {} overlappingText 0 0 overlapping [{ value := "lap" }] ∧
    ∃ s r terms, ofText {} overlappingText = .ok s ∧ s.rules[0]? = some r ∧
      r.instructions[0]? = some (.delete (some terms)) ∧
      ∃ sequence ∈ overlappingQuery.sequences, ∃ a ∈ (s.scan sequence []).1, r ∈ a.rules ∧
      (∀ t ∈ a.terms, (overlappingQuery.term? t.id).isSome) ∧
      (∃ p ∈ consumed overlapping a.terms, p.2.id = 4) ∧
      (∀ p ∈ consumed overlapping a.terms, p.2.id = 4 → p.1 ∉ terms) ∧
      (Progress.deleteTerms s.config a.terms (some terms) overlappingQuery).term? 4 = none := by
  refine ⟨by decide, writesDelete_overlappingText, _, _, _, ofText_overlappingText, rfl, rfl, _, ?_,
    _, mem_scan_overlappingRule, List.mem_singleton_self _, ?_, ?_, ?_, ?_⟩
  · rw [sequences_overlappingQuery]
    exact List.mem_singleton_self _
  · decide +kernel
  · decide +kernel
  · decide +kernel
  · decide +kernel

end QueryRules.Ruleset
