import QueryRules.Proofs.RuleText.Enclosed

/-!
# Words that are normalized again

The words of a phrase are normalized when they are read and again when the rules are compiled, but
those of a query only once.

- `RuleText.exists_ofText_words_iff`: when the line of some plain words can be compiled.
- `Config.exists_phraseFirings_ofValues_iff`: the words of a query are met from first to last just
  by the phrase of what they are normalized to.
- `Ruleset.coversAll_ofText_iff`: so the line of some plain words matches these words just if
  normalizing them again changes none of them.
-/

namespace QueryRules

open QueryRules.Text

/-- The literals in every field with given values. -/
def valueLiterals (values : List String) : List Literal := values.map fun v => { value := v }

section

variable {values : List String}

theorem phraseKey_valueLiterals :
    Ruleset.phraseKey (valueLiterals values) = unwords (values.map String.toList) := by
  simp [Ruleset.phraseKey, valueLiterals, Function.comp_def]

theorem endsInPrefix_valueLiterals : Ruleset.endsInPrefix (valueLiterals values) = false := by
  cases h : values.getLast? <;> simp [Ruleset.endsInPrefix, valueLiterals, h]

theorem checkTrigger_valueLiterals_iff :
    Ruleset.checkTrigger (.phrase (valueLiterals values)) = .ok () ↔
      values ≠ [] ∧ ∀ v ∈ values, v ≠ "" := by
  have hstars : ∀ l ∈ (valueLiterals values).dropLast, l.isPrefix = false := by
    intro l hl
    obtain ⟨v, -, rfl⟩ := List.mem_map.1 (List.dropLast_subset _ hl)
    rfl
  rw [Ruleset.checkTrigger_phrase_iff, and_iff_left hstars]
  simp [valueLiterals]

/-- A literal of one word asks for one term. -/
theorem length_wantedWords_valueLiterals (h : ∀ v ∈ values, IsWord v) :
    (wantedWords (valueLiterals values)).length = values.length := by
  have hwords : HaveWords (valueLiterals values) :=
    List.forall_mem_map.2 fun v hv => (h v hv).isWords
  have hpieces : pieces (· == ' ') (unwords (values.map String.toList)) =
      values.map String.toList := by
    refine pieces_unwords (List.forall_mem_map.2 fun v hv => ⟨(h v hv).1, fun hspace => ?_⟩)
    exact absurd ((h v hv).2 _ hspace) (by decide)
  rw [← List.length_map Prod.snd, wantedWords_eq_pieces hwords, phraseKey_valueLiterals, hpieces,
    List.length_map]

end

/-! ## Queries of single words -/

/-- Where each position has one alternative, there is one choice. -/
theorem choices_singletons {β : Type} (bs : List β) :
    choices bs.length (bs.map fun b => [b]) = [bs] := by
  induction bs with
  | nil => rfl
  | cons b bs ih => simp [choices, ih]

/-- The words of a query are met from first to last just by the phrase of what they are normalized
to. -/
theorem Config.exists_phraseFirings_ofValues_iff {config : Config} {ws values : List String}
    (hne : ws ≠ []) (hws : ∀ w ∈ ws, IsWord (config.normalize w))
    (hlength : values.length = ws.length) :
    (∃ f ∈ config.phraseFirings (.ofValues ws) (valueLiterals values),
        f.start = 0 ∧ f.stop = ws.length) ↔ values = ws.map config.normalize := by
  let terms : List Candidate := ws.zipIdx.map fun p => { id := p.2, value := p.1 }
  have hpositions : (Sequence.ofValues ws).positions = terms.map fun t => [t] := by
    simp [Sequence.ofValues, terms, Function.comp_def]
  have htermslength : terms.length = ws.length := by simp [terms]
  have htermsne : terms ≠ [] := by simpa [← List.length_pos_iff, htermslength] using hne
  have hwords : terms.map config.word = (ws.map config.normalize).map String.toList := by
    have hvalues : terms.map Candidate.value = ws := by
      simp only [terms, List.map_map, Function.comp_def]
      exact List.zipIdx_map_fst 0 ws
    conv_rhs => rw [← hvalues, List.map_map, List.map_map]
    rfl
  have hwalk : ⟨terms, unwords ((ws.map config.normalize).map String.toList), none⟩ ∈
      (Sequence.ofValues ws).walksFrom config.word 0 := by
    rw [Sequence.walksFrom, List.drop_zero, hpositions]
    refine mem_walks_whole.2 ⟨htermsne, ?_, ?_, by rw [hwords]⟩
    · rw [choices_singletons]
      exact List.mem_singleton_self _
    · have hnonempty : ∀ v ∈ terms.map config.word, v ≠ [] := by
        rw [hwords, List.map_map, List.forall_mem_map]
        exact fun w hw => (hws w hw).1
      exact fun t ht => hnonempty _ (List.mem_map_of_mem ht)
  constructor
  · rintro ⟨f, hf, hstart, hstop⟩
    obtain ⟨start, -, ⟨taken, text, rest⟩, hw, hmeets, rfl⟩ := mem_phraseFirings.1 hf
    obtain rfl : start = 0 := hstart
    rw [Walk.meets, endsInPrefix_valueLiterals] at hmeets
    simp only [Bool.and_eq_true, beq_iff_eq, Option.isSome_eq_false_iff, Option.isNone_iff_eq_none]
      at hmeets
    obtain ⟨⟨rfl, rfl⟩, -⟩ := hmeets
    rw [Sequence.walksFrom, List.drop_zero, hpositions] at hw
    obtain ⟨-, htaken, -, htext⟩ := mem_walks_whole.1 hw
    -- the walk takes the one alternative of every position
    have htakenlength : taken.length = terms.length := by
      rw [htermslength]
      simpa using hstop
    rw [htakenlength, choices_singletons, List.mem_singleton] at htaken
    subst htaken
    rw [phraseKey_valueLiterals, hwords] at htext
    have hspaces : ∀ w ∈ (ws.map config.normalize).map String.toList, ' ' ∉ w := by
      rw [List.map_map, List.forall_mem_map]
      exact fun w hw hspace => absurd ((hws w hw).2 _ hspace) (by decide)
    have hsame := unwords_inj (by simp [hlength]) hspaces htext.symm
    exact ((List.map_injective_iff.2 fun _ _ => String.toList_inj.1) hsame).symm
  · rintro rfl
    have hvalues : ∀ v ∈ ws.map config.normalize, IsWord v := List.forall_mem_map.2 hws
    refine ⟨_, mem_phraseFirings.2 ⟨0, List.length_pos_iff.2 ?_, _, hwalk, ?_, rfl⟩, rfl, ?_⟩
    · rw [hpositions]
      simpa using htermsne
    · rw [Walk.meets, phraseKey_valueLiterals, endsInPrefix_valueLiterals,
        allowsFields_of_fields_empty (by simp [valueLiterals]),
        length_wantedWords_valueLiterals hvalues]
      simp [htermslength]
    · simp [htermslength]

namespace RuleText

variable {config : Config}

/-- Plain words are a phrase of what they are normalized to. -/
theorem readTrigger_words {ws : List String} (hne : ws ≠ [])
    (hws : ∀ w ∈ ws, IsPlainWord w.toList) : readTrigger config (" ".intercalate ws) =
      .ok (.phrase (valueLiterals (ws.map config.normalize))) := by
  obtain ⟨vs, v, rfl⟩ := (List.eq_nil_or_concat' ws).resolve_left hne
  have hread : readTrigger config _ = _ := readTrigger_writtenWords hws false
  have hliterals : wordLiterals config vs v false =
      valueLiterals ((vs ++ [v]).map config.normalize) := by
    simp [wordLiterals, valueLiterals, Function.comp_def]
  have htext : writtenWords (vs ++ [v]) false = " ".intercalate (vs ++ [v]) := by
    simp [writtenWords]
  rwa [hliterals, htext] at hread

/-- The rule of a line of plain words. -/
def wordsRule (config : Config) (ws : List String) : Rule :=
  .make (.phrase (valueLiterals (ws.map config.normalize))) 0 (defaultId (" ".intercalate ws) 0)
    [] []

/-- The line of some plain words has one rule. -/
theorem ofText_words {ws : List String} (hne : ws ≠ [])
    (hws : ∀ w ∈ ws, IsPlainWord w.toList ∧ '#' ∉ w.toList) :
    Ruleset.ofText config (" ".intercalate ws ++ " =>") =
      Ruleset.compile config [wordsRule config ws] := by
  have hplain : ∀ w ∈ ws, IsPlainWord w.toList := fun w hw => (hws w hw).1
  have htext : writtenWords ws false = " ".intercalate ws := by simp [writtenWords]
  have hentry := isEntry_writtenWords hplain hne false
  have hcomment : (writtenWords ws false).toList.head? ≠ some '#' :=
    head?_writtenWords_ne (by decide) (by decide) (fun w hw => (hws w hw).2) false
  rw [htext] at hentry hcomment
  exact ofText_input hentry hcomment (readTrigger_words hne hplain)

theorem trigger_normalized_wordsRule {ws : List String} :
    (Ruleset.normalized config (wordsRule config ws)).trigger =
      .phrase (valueLiterals ((ws.map config.normalize).map config.normalize)) := by
  simp [Ruleset.normalized, Rule.mapLiterals, wordsRule, Rule.make, Trigger.mapLiterals,
    valueLiterals, Config.normalizeLiteral, Function.comp_def]

/-- The line of some plain words can be compiled just if normalizing them again leaves something of
each. -/
theorem exists_ofText_words_iff {ws : List String} (hne : ws ≠ [])
    (hws : ∀ w ∈ ws, IsPlainWord w.toList ∧ '#' ∉ w.toList) :
    (∃ s, Ruleset.ofText config (" ".intercalate ws ++ " =>") = .ok s) ↔
      ∀ w ∈ ws, config.normalize (config.normalize w) ≠ "" := by
  have hmatchable : Ruleset.Matchable config (wordsRule config ws) ↔
      ∀ w ∈ ws, config.normalize (config.normalize w) ≠ "" := by
    rw [Ruleset.Matchable, trigger_normalized_wordsRule, checkTrigger_valueLiterals_iff]
    simp [hne]
  rw [ofText_words hne hws, ← hmatchable]
  constructor
  · rintro ⟨s, hs⟩
    exact (Ruleset.compile_eq_ok_iff.1 hs).2.1 _ (List.mem_singleton_self _)
  · intro h
    exact ⟨_, Ruleset.compile_eq_ok_iff.2 ⟨by simp, List.forall_mem_singleton.2 h, rfl⟩⟩

end RuleText

namespace Ruleset

open RuleText

variable {config : Config}

/-- The line of some plain words can be compiled and its rule has an action for the query of these
words, from the first to the last, just if normalizing them again changes none of them. -/
theorem coversAll_ofText_iff {ws : List String} (hne : ws ≠ [])
    (hws : ∀ w ∈ ws, IsPlainWord w.toList ∧ '#' ∉ w.toList)
    (hnormal : ∀ w ∈ ws, IsWord (config.normalize w)) :
    (∃ s r, ofText config (" ".intercalate ws ++ " =>") = .ok s ∧ s.rules = [r] ∧
        ∃ a ∈ s.actions (.ofValues ws), r ∈ a.rules ∧ a.start = 0 ∧ a.stop = ws.length) ↔
      ∀ w ∈ ws, config.normalize (config.normalize w) = config.normalize w := by
  have hlength : ((ws.map config.normalize).map config.normalize).length = ws.length := by simp
  have hfirings := Config.exists_phraseFirings_ofValues_iff hne hnormal hlength
  rw [List.map_map, List.map_inj_left] at hfirings
  constructor
  · rintro ⟨s, r, hs, hr, a, ha, -, hstart, hstop⟩
    rw [ofText_words hne hws] at hs
    have hrule : s.rules = [normalized config (wordsRule config ws)] := rules_of_compile hs
    have hfiring := ((indexed_of_compile hs).mem_firings_singleton hrule).2 ⟨a, ha, rfl⟩
    rw [trigger_normalized_wordsRule, config_of_compile hs, List.map_map] at hfiring
    exact hfirings.1 ⟨_, hfiring, hstart, hstop⟩
  · intro h
    have hnonempty : ∀ w ∈ ws, config.normalize (config.normalize w) ≠ "" := by
      intro w hw hempty
      exact (hnormal w hw).1 (by rw [← h w hw, hempty]; rfl)
    obtain ⟨s, hs⟩ := (exists_ofText_words_iff hne hws).2 hnonempty
    obtain ⟨f, hf, hstart, hstop⟩ := hfirings.2 h
    have hcompile := (ofText_words hne hws).symm.trans hs
    have hrule : s.rules = [normalized config (wordsRule config ws)] := rules_of_compile hcompile
    have hindexed := indexed_of_compile hcompile
    obtain ⟨a, ha, rfl⟩ := (hindexed.mem_firings_singleton hrule).1 <| by
      rw [trigger_normalized_wordsRule, config_of_compile hcompile, List.map_map]
      exact hf
    exact ⟨s, _, hs, hrule, a, ha, hindexed.mem_rules_singleton hrule ha, hstart, hstop⟩

/-- Words without their vowels stay as they are; the first characters of a word can be taken away
twice. -/
theorem coversAll_ofText_vowels :
    let vowels : Config :=
      { normalize := fun s => String.ofList (s.toList.filter (· ∉ "aeiou".toList)) }
    let first : Config := { normalize := fun s => String.ofList s.toList.tail }
    (∃ s r, ofText vowels "Red shoe =>" = .ok s ∧ s.rules = [r] ∧
      ∃ a ∈ s.actions (.ofValues ["Red", "shoe"]), r ∈ a.rules ∧ a.start = 0 ∧ a.stop = 2) ∧
    ¬ ∃ s r, ofText first "Red shoe =>" = .ok s ∧ s.rules = [r] ∧
      ∃ a ∈ s.actions (.ofValues ["Red", "shoe"]), r ∈ a.rules ∧ a.start = 0 ∧ a.stop = 2 := by
  intro vowels first
  have hws : ∀ w ∈ ["Red", "shoe"], IsPlainWord w.toList ∧ '#' ∉ w.toList := by decide
  have hvowels : ∀ w ∈ ["Red", "shoe"], IsWord (vowels.normalize w) := by decide +kernel
  have hfirst : ∀ w ∈ ["Red", "shoe"], IsWord (first.normalize w) := by decide +kernel
  exact ⟨(coversAll_ofText_iff (by decide) hws hvowels).2 (by decide +kernel),
    fun h => absurd ((coversAll_ofText_iff (by decide) hws hfirst).1 h) (by decide +kernel)⟩

/-- Normalizing that takes away the first character leaves something of the word, but the rule has
no action for it. -/
theorem not_coversAll_ofText_first :
    let config : Config := { normalize := fun s => String.ofList s.toList.tail }
    (∀ w ∈ ["abc"], IsPlainWord w.toList ∧ '#' ∉ w.toList) ∧ IsWord (config.normalize "abc") ∧
      (ofText config "abc =>").map (fun s => (s.actions (.ofValues ["abc"])).length) = .ok 0 := by
  decide +kernel

end Ruleset

end QueryRules
