import QueryRules.Proofs.Match.Actions
import QueryRules.Proofs.Match.Occurrences

/-!
# Which literal takes which term

A match of a phrase takes one term for every word of the phrase, so each of its terms was taken by
the word of one literal.

- `consumed` pairs the terms of a match with the literals that took them.
- `Config.fits_of_meets`: a walk that meets a phrase of words fits it, term by term. Nothing is
  asked of the terms: there are at least as many of them as words, so that none has a space.
- `Config.matchesValue_of_mem_consumed`: a literal of one word accepts the term that it took.
-/

namespace QueryRules

/-- The terms of a match, each with the literal whose word it was taken for. -/
def consumed (literals : List Literal) (terms : List Candidate) : List (Literal × Candidate) :=
  ((wantedWords literals).map Prod.fst).zip terms

variable {β : Type}

theorem mem_of_mem_wantedWords {literals : List Literal} {p : Literal × List Char}
    (h : p ∈ wantedWords literals) : p.1 ∈ literals ∧ p.2 ∈ p.1.words := by
  obtain ⟨l, hl, hp⟩ := List.mem_flatMap.1 h
  obtain ⟨w, hw, rfl⟩ := List.mem_map.1 hp
  exact ⟨hl, hw⟩

theorem mem_consumed_iff {literals : List Literal} {terms : List Candidate} {l : Literal}
    {t : Candidate} : (l, t) ∈ consumed literals terms ↔
      ∃ w, ((l, w), t) ∈ (wantedWords literals).zip terms := by
  rw [consumed, List.zip_map_left]
  simp

/-- The value of a literal of one word is that word. -/
theorem Literal.value_eq_of_mem_words {l : Literal} (h : Text.IsWords l.value.toList)
    (hone : l.words.length = 1) {w : List Char} (hw : w ∈ l.words) : l.value.toList = w := by
  obtain ⟨v, hv⟩ := List.length_eq_one_iff.1 hone
  obtain rfl : w = v := by simpa [hv] using hw
  rw [(Text.isWords_iff.1 h).2]
  exact (congrArg Text.unwords hv).trans (Text.unwords_singleton w)

/-! ## Walks and words -/

/-- A walk spells one space more for each term that it takes after the first. -/
theorem length_taken_le_count {word : β → List Char} {positions : List (List β)} {w : Walk β}
    (h : w ∈ walks word positions) : w.taken.length ≤ w.text.count ' ' + 1 := by
  induction positions generalizing w with
  | nil => simp [walks] at h
  | cons alternatives positions ih =>
    simp only [walks, List.mem_flatMap] at h
    obtain ⟨b, -, h⟩ := h
    split at h
    · simp at h
    · simp only [stops, List.mem_append, List.mem_map, List.mem_singleton] at h
      rcases h with (⟨p, -, rfl⟩ | rfl) | ⟨w', hw, rfl⟩
      · simp
      · simp
      · have := ih hw
        simp only [Walk.cons, List.length_cons, List.count_append, List.count_cons_self]
        omega

/-- A walk that spells no more words than it takes terms takes a term for each of the words. -/
theorem spells_of_mem_walks {word : β → List Char} {positions : List (List β)} {w : Walk β}
    (h : w ∈ walks word positions) {wanted : List (List Char)} (hne : wanted ≠ [])
    (hwords : ∀ v ∈ wanted, v ≠ [] ∧ ' ' ∉ v) (htext : w.text = Text.unwords wanted)
    (hlength : wanted.length ≤ w.taken.length) :
    spells w.rest.isSome wanted (w.taken.map word) := by
  induction positions generalizing w wanted with
  | nil => simp [walks] at h
  | cons alternatives positions ih =>
    simp only [walks, List.mem_flatMap] at h
    obtain ⟨b, -, h⟩ := h
    obtain ⟨v, wanted, rfl⟩ := List.exists_cons_of_ne_nil hne
    obtain ⟨⟨-, hv⟩, hwanted⟩ := List.forall_mem_cons.1 hwords
    split at h
    · simp at h
    · simp only [stops, List.mem_append, List.mem_map, List.mem_singleton] at h
      rcases h with (⟨⟨x, y⟩, hcut, rfl⟩ | rfl) | ⟨w', hw, rfl⟩
      · obtain rfl : wanted = [] := List.length_eq_zero_iff.1 (by simpa using hlength)
        obtain ⟨hword, -, hy⟩ := mem_cuts.1 hcut
        obtain rfl : x = v := by simpa using htext
        have hpos : 0 < y.length := List.length_pos_iff.2 hy
        simp [spells, hword, hpos]
      · obtain rfl : wanted = [] := List.length_eq_zero_iff.1 (by simpa using hlength)
        obtain rfl : word b = v := by simpa using htext
        simp [spells]
      · -- every space of the text stands between two terms, so the first one has none
        have htext' : word b ++ ' ' :: w'.text = Text.unwords (v :: wanted) := htext
        have hcount := Text.count_unwords hne
        have hflat : (v :: wanted).flatten.count ' ' = 0 := by
          rw [List.count_eq_zero, List.mem_flatten]
          rintro ⟨u, hu, hspace⟩
          exact (hwords u hu).2 hspace
        have htaken := length_taken_le_count hw
        rw [← htext', List.count_append, List.count_cons_self, hflat] at hcount
        simp only [Walk.cons, List.length_cons] at hlength hcount
        have hb : ' ' ∉ word b := List.count_eq_zero.1 (by omega)
        have hs : wanted ≠ [] := by
          rintro rfl
          simp at hcount
        rw [Text.unwords_cons v hs] at htext'
        obtain ⟨rfl, hrest⟩ := (Text.append_cons_inj hb hv).1 htext'
        have := ih hw hs hwanted hrest (by omega)
        simpa [Walk.cons, spells_cons _ _ _ hs] using this

/-- A walk that leaves out nothing spells the words of the terms that it takes. -/
theorem mem_walks_whole {word : β → List Char} {positions : List (List β)} {bs : List β}
    {text : List Char} : ⟨bs, text, none⟩ ∈ walks word positions ↔ bs ≠ [] ∧
      bs ∈ choices bs.length positions ∧ (∀ b ∈ bs, word b ≠ []) ∧
      text = Text.unwords (bs.map word) := by
  induction positions generalizing bs text with
  | nil => cases bs <;> simp [walks, choices]
  | cons alternatives positions ih =>
    cases bs with
    | nil =>
      simp only [ne_eq, not_true_eq_false, false_and, iff_false]
      exact fun h => absurd (length_taken h).1 (by simp)
    | cons b bs =>
      have hchoices : b :: bs ∈ choices (b :: bs).length (alternatives :: positions) ↔
          b ∈ alternatives ∧ bs ∈ choices bs.length positions := by
        simp [choices]
      -- a walk that takes `b` first takes nothing else or goes on with a walk behind it
      have hwalks : ⟨b :: bs, text, none⟩ ∈ walks word (alternatives :: positions) ↔
          b ∈ alternatives ∧ word b ≠ [] ∧ (bs = [] ∧ text = word b ∨
            ∃ rest, ⟨bs, rest, none⟩ ∈ walks word positions ∧ text = word b ++ ' ' :: rest) := by
        simp only [walks, List.mem_flatMap]
        constructor
        · rintro ⟨a, ha, h⟩
          split at h
          · simp at h
          · rename_i hword
            simp only [stops, List.mem_append, List.mem_map, List.mem_singleton] at h
            rcases h with (⟨p, -, he⟩ | he) | ⟨⟨taken, rest, left⟩, hw, he⟩
            · simp at he
            · obtain ⟨⟨rfl, rfl⟩, rfl⟩ : (b = a ∧ bs = []) ∧ text = word a := by simpa using he
              exact ⟨ha, hword, .inl ⟨rfl, rfl⟩⟩
            · obtain ⟨⟨rfl, rfl⟩, rfl, rfl⟩ :
                  (a = b ∧ taken = bs) ∧ word a ++ ' ' :: rest = text ∧ left = none := by
                simpa [Walk.cons] using he
              exact ⟨ha, hword, .inr ⟨rest, hw, rfl⟩⟩
        · rintro ⟨hb, hword, h⟩
          refine ⟨b, hb, ?_⟩
          rw [if_neg hword, List.mem_append, List.mem_map]
          rcases h with ⟨rfl, rfl⟩ | ⟨rest, hw, rfl⟩
          · exact .inl (by simp [stops])
          · exact .inr ⟨_, hw, rfl⟩
      rw [hwalks, hchoices, List.forall_mem_cons]
      rcases eq_or_ne bs [] with rfl | hbs
      · have hnone (rest : List Char) : ⟨[], rest, none⟩ ∉ walks word positions :=
          fun h => absurd (length_taken h).1 (by simp)
        simp [hnone, choices]
      · simp only [ih, hbs, ne_eq, not_false_eq_true, reduceCtorEq, true_and, false_and, false_or,
          List.map_cons, Text.unwords_cons (word b) (show bs.map word ≠ [] by simpa using hbs)]
        constructor
        · rintro ⟨hb, hword, rest, ⟨htaken, hwords, rfl⟩, rfl⟩
          exact ⟨⟨hb, htaken⟩, ⟨hword, hwords⟩, rfl⟩
        · rintro ⟨⟨hb, htaken⟩, ⟨hword, hwords⟩, rfl⟩
          exact ⟨hb, hword, _, ⟨htaken, hwords, rfl⟩, rfl⟩

namespace Config

variable {config : Config} {sequence : Sequence} {literals : List Literal}
  {terms : List Candidate}

/-- A walk that meets a phrase of words fits it. -/
theorem fits_of_meets (hne : literals ≠ []) (hwords : HaveWords literals) {start : Nat}
    {w : Walk Candidate} (hw : w ∈ sequence.walksFrom config.word start)
    (hmeets : w.meets literals) : config.fits literals w.taken := by
  simp only [Walk.meets, Bool.and_eq_true, beq_iff_eq] at hmeets
  obtain ⟨⟨htext, hexact⟩, hfields⟩ := hmeets
  have hwanted : (wantedWords literals).map Prod.snd ≠ [] := by
    simpa using wantedWords_ne_nil hne hwords
  have hmem : ∀ v ∈ (wantedWords literals).map Prod.snd, v ≠ [] ∧ ' ' ∉ v := by
    intro v hv
    obtain ⟨p, hp, rfl⟩ := List.mem_map.1 hv
    exact mem_wantedWords hp
  have hlength : ((wantedWords literals).map Prod.snd).length ≤ w.taken.length := by
    have hle : (literals.flatMap fun l => l.words.map fun _ => l).length ≤ w.taken.length := by
      simp only [Ruleset.allowsFields, Bool.and_eq_true, decide_eq_true_eq] at hfields
      exact hfields.1
    simpa [wantedWords, List.length_flatMap] using hle
  have hspells := spells_of_mem_walks hw hwanted hmem (htext.trans (phraseKey_eq hwords)) hlength
  rw [hexact] at hspells
  have hcount : w.taken.length = (wantedWords literals).length := by
    obtain ⟨ws, v, u, hv, hu, -⟩ := spells_iff.1 hspells
    have hv := congrArg List.length hv
    have hu := congrArg List.length hu
    simp only [List.length_map, List.length_append, List.length_singleton] at hv hu
    omega
  rw [allowsFields_eq hcount] at hfields
  exact Bool.and_eq_true_iff.2 ⟨hspells, hfields⟩

/-- Terms that fit a phrase are as many as its words. -/
theorem length_of_fits (h : config.fits literals terms) :
    terms.length = (wantedWords literals).length := by
  obtain ⟨ws, v, u, hv, hu, -⟩ := spells_iff.1 (Bool.and_eq_true_iff.1 h).1
  have hv := congrArg List.length hv
  have hu := congrArg List.length hu
  simp only [List.length_map, List.length_append, List.length_singleton] at hv hu
  omega

/-- Every term of a match was taken for a word. -/
theorem map_snd_consumed (h : config.fits literals terms) :
    (consumed literals terms).map Prod.snd = terms := by
  rw [consumed, List.map_snd_zip]
  rw [List.length_map, length_of_fits h]

/-- A literal accepts the fields of the terms that it took. -/
theorem allowsFields_of_mem_consumed (h : config.fits literals terms) {l : Literal} {t : Candidate}
    (ht : (l, t) ∈ consumed literals terms) : l.allowsFields t.fields := by
  obtain ⟨w, hw⟩ := mem_consumed_iff.1 ht
  exact List.all_eq_true.1 (Bool.and_eq_true_iff.1 h).2 _ hw

/-- The last word of a phrase is one of its last literal. A word before it belongs to an earlier
literal or to one of several words. -/
theorem last_of_wantedWords_eq (hwords : HaveWords literals) {ps : List (Literal × List Char)}
    {k : Literal} {v : List Char} (h : wantedWords literals = ps ++ [(k, v)]) :
    Ruleset.endsInPrefix literals = k.isPrefix ∧
      ∀ p ∈ ps, p.1 ∈ literals.dropLast ∨ 1 < p.1.words.length := by
  rcases List.eq_nil_or_concat' literals with rfl | ⟨init, last, rfl⟩
  · simp [wantedWords] at h
  · have hne : last.words ≠ [] := (Text.isWords_iff.1 (hwords last (by simp))).1
    obtain ⟨vs, x, hx⟩ := (List.eq_nil_or_concat' last.words).resolve_left hne
    have hconcat : wantedWords (init ++ [last]) =
        (wantedWords init ++ vs.map fun w => (last, w)) ++ [(last, x)] := by
      simp [wantedWords, hx]
    obtain ⟨rfl, hlast⟩ := List.append_inj' (hconcat.symm.trans h) rfl
    obtain ⟨rfl, rfl⟩ : last = k ∧ x = v := by simpa using hlast
    refine ⟨by simp [Ruleset.endsInPrefix], fun p hp => ?_⟩
    rw [List.dropLast_concat]
    rcases List.mem_append.1 hp with hp | hp
    · exact .inl (mem_of_mem_wantedWords hp).1
    · obtain ⟨w, hw, rfl⟩ := List.mem_map.1 hp
      have := List.length_pos_of_mem hw
      exact .inr (by simp [hx, this])

/-- If only the last literal of a phrase may be a prefix, a literal of one word accepts the value
of the term that it took. -/
theorem matchesValue_of_mem_consumed (h : config.fits literals terms) (hwords : HaveWords literals)
    (hexact : ∀ l ∈ literals.dropLast, l.isPrefix = false) {l : Literal} {t : Candidate}
    (ht : (l, t) ∈ consumed literals terms) (hone : l.words.length = 1) :
    l.matchesValue (config.normalize t.value) := by
  obtain ⟨ws, v, u, hv, hu, hspells⟩ := spells_iff.1 (Bool.and_eq_true_iff.1 h).1
  obtain ⟨ps, qs, hpq, hps, hqs⟩ := List.map_eq_append_iff.1 hv
  obtain ⟨⟨k, v⟩, rfl, rfl⟩ := List.map_eq_singleton_iff.1 hqs
  obtain ⟨ts, us, rfl, hts, hus⟩ := List.map_eq_append_iff.1 hu
  obtain ⟨t₀, rfl, rfl⟩ := List.map_eq_singleton_iff.1 hus
  obtain ⟨hends, hbefore⟩ := last_of_wantedWords_eq hwords hpq
  obtain ⟨w, hw⟩ := mem_consumed_iff.1 ht
  obtain ⟨hl, hmem⟩ := mem_of_mem_wantedWords (List.of_mem_zip hw).1
  have hvalue := Literal.value_eq_of_mem_words (hwords l hl) hone hmem
  have heq : List.Forall₂ (· = ·) (ps.map Prod.snd) (ts.map config.word) := by
    rw [List.forall₂_eq_eq_eq, hps, hts]
  have hall := List.forall₂_map_left_iff.1 (List.forall₂_map_right_iff.1 heq)
  unfold Literal.matchesValue
  rw [hpq, List.zip_append hall.length_eq, List.mem_append, List.zip_cons_cons] at hw
  rcases hw with hw | hw
  · -- a word before the last one
    have hplain : l.isPrefix = false := by
      rcases hbefore _ (List.of_mem_zip hw).1 with hm | hlong
      · exact hexact l hm
      · exact absurd hone (Nat.ne_of_gt hlong)
    have hword : w = config.word t := (List.forall₂_iff_zip.1 hall).2 hw
    rw [hplain, if_neg Bool.false_ne_true, beq_iff_eq, ← String.toList_inj]
    exact (hvalue.trans hword).symm
  · obtain ⟨⟨rfl, rfl⟩, rfl⟩ : (l = k ∧ w = v) ∧ t = t₀ := by simpa using hw
    rw [hends] at hspells
    split
    · rename_i hl
      rw [if_pos hl] at hspells
      rw [hvalue, Bool.and_eq_true, List.isPrefixOf_iff_prefix, decide_eq_true_eq]
      exact hspells
    · rename_i hl
      rw [if_neg hl] at hspells
      rw [beq_iff_eq, ← String.toList_inj, hvalue]
      exact hspells

end Config

/-- The terms of an action fit the phrase of each of its rules that has one. -/
theorem Ruleset.Indexed.fits_of_mem_scan {s : Ruleset} (h : s.Indexed s.rules)
    {sequence : Sequence} {reported : List Nat} {a : Action}
    (ha : a ∈ (s.scan sequence reported).1) {r : Rule} (hr : r ∈ a.rules) {literals : List Literal}
    (ht : r.trigger = .phrase literals) (hne : literals ≠ []) (hwords : HaveWords literals) :
    s.config.fits literals a.terms := by
  rcases mem_scan ha with hp | ⟨m, hm, rfl⟩
  · obtain ⟨start, w, hw, hrules, hterms⟩ := exists_walk_of_mem_phraseActions hp
    rw [hrules, (h.rulesOf_perm w).mem_iff, List.mem_filter, metBy, ht] at hr
    rw [hterms]
    exact Config.fits_of_meets hne hwords hw hr.2
  · obtain ⟨q, -, hrules, hcondition⟩ := h.rules_conditionAction hm
    rw [hrules, List.mem_singleton] at hr
    rw [← hr, ht] at hcondition
    exact nomatch hcondition

end QueryRules
