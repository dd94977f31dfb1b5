import QueryRules.Proofs.Match.Firings
import QueryRules.Proofs.Text.Words

/-!
# Occurrences of phrases

What it means for a phrase to occur in a sequence, without a trie: consecutive positions, one
alternative at each of them, and a word of the phrase for every one (`Config.fits`).

- `Config.occurrences` lists the occurrences of a phrase, `Config.occurs_iff` says when a literal
  has one and `spells_iff` which words fit.
- `Config.meetings_eq`: if the phrase consists of words and no term has a space in it, the walks
  that meet a phrase are its occurrences. So a literal is met just where it occurs
  (`metBefore_eq_occurs`).
-/

namespace QueryRules

/-- The ways to take one alternative at each of `n` consecutive positions. -/
def choices {β : Type} : Nat → List (List β) → List (List β)
  | 0, _ => [[]]
  | _ + 1, [] => []
  | n + 1, alternatives :: positions =>
    alternatives.flatMap fun b => (choices n positions).map (b :: ·)

/-- The words are the wanted ones. If the last wanted word is only a prefix, the last word starts
with it and goes on. -/
def spells (isPrefix : Bool) : (wanted words : List (List Char)) → Bool
  | [w], [v] => if isPrefix then w.isPrefixOf v && w.length < v.length else v == w
  | w :: wanted, v :: words => v == w && spells isPrefix wanted words
  | _, _ => false

/-- What follows the prefix that the last of the wanted words is. -/
def remainder? (isPrefix : Bool) (wanted words : List (List Char)) : Option (List Char) :=
  if isPrefix then some ((words.getLast?.getD []).drop (wanted.getLast?.getD []).length) else none

/-- The words that a phrase asks for, each with the literal that it comes from. -/
def wantedWords (literals : List Literal) : List (Literal × List Char) :=
  literals.flatMap fun l => l.words.map fun w => (l, w)

namespace Config

variable (config : Config) (sequence : Sequence)

/-- Terms have the words of a phrase, and the literals that these come from accept their fields. -/
def fits (literals : List Literal) (terms : List Candidate) : Bool :=
  spells (Ruleset.endsInPrefix literals) ((wantedWords literals).map Prod.snd)
      (terms.map config.word) &&
    ((wantedWords literals).zip terms).all fun (p, t) => p.1.allowsFields t.fields

/-- Where a phrase occurs in a sequence. -/
def occurrences (literals : List Literal) : List Firing :=
  (List.range sequence.size).flatMap fun start =>
    ((choices (wantedWords literals).length (sequence.positions.drop start)).filter
      (config.fits literals)).map fun terms =>
        { start, stop := start + (wantedWords literals).length, terms
          suffix := (remainder? (Ruleset.endsInPrefix literals)
            ((wantedWords literals).map Prod.snd) (terms.map config.word)).map String.ofList }

/-- A literal occurs in a sequence. -/
def occurs (l : Literal) : Bool := !(config.occurrences sequence [l]).isEmpty

end Config

variable {β : Type}

/-! ## Choices and words -/

theorem mem_choices {n : Nat} {positions : List (List β)} {bs : List β} :
    bs ∈ choices n positions ↔
      n ≤ positions.length ∧ List.Forall₂ (· ∈ ·) bs (positions.take n) := by
  induction n generalizing positions bs with
  | zero => simp [choices]
  | succ n ih =>
    cases positions with
    | nil => simp [choices]
    | cons alternatives positions =>
      simp only [choices, List.mem_flatMap, List.mem_map, ih, List.take_succ_cons,
        List.forall₂_cons_right_iff, List.length_cons, Nat.add_le_add_iff_right]
      constructor
      · rintro ⟨b, hb, bs, ⟨hn, hbs⟩, rfl⟩
        exact ⟨hn, b, bs, hb, hbs, rfl⟩
      · rintro ⟨hn, b, bs, hb, hbs, rfl⟩
        exact ⟨b, hb, bs, ⟨hn, hbs⟩, rfl⟩

theorem length_of_mem_choices {n : Nat} {positions : List (List β)} {bs : List β}
    (h : bs ∈ choices n positions) : bs.length = n := by
  obtain ⟨hn, hbs⟩ := mem_choices.1 h
  rw [hbs.length_eq, List.length_take, Nat.min_eq_left hn]

theorem spells_cons (isPrefix : Bool) (w v : List Char) {wanted : List (List Char)}
    (h : wanted ≠ []) (words : List (List Char)) :
    spells isPrefix (w :: wanted) (v :: words) = (v == w && spells isPrefix wanted words) := by
  rw [spells]
  rintro rfl
  exact absurd rfl h

/-- Words that spell the wanted ones differ from them in the last one at most. -/
theorem spells_iff {isPrefix : Bool} {wanted words : List (List Char)} :
    spells isPrefix wanted words ↔ ∃ ws w v, wanted = ws ++ [w] ∧ words = ws ++ [v] ∧
      if isPrefix then w <+: v ∧ w.length < v.length else v = w := by
  induction wanted generalizing words with
  | nil => simp [spells]
  | cons w wanted ih =>
    cases words with
    | nil => simp [spells]
    | cons v words =>
      rcases eq_or_ne wanted [] with rfl | hne
      · cases words with
        | nil => cases isPrefix <;> simp [spells, List.cons_eq_append_iff]
        | cons u words => simp [spells, List.cons_eq_append_iff]
      · rw [spells_cons _ _ _ hne, Bool.and_eq_true, beq_iff_eq, ih]
        constructor
        · rintro ⟨rfl, ws, x, y, rfl, rfl, h⟩
          exact ⟨v :: ws, x, y, rfl, rfl, h⟩
        · rintro ⟨ws, x, y, hw, hv, h⟩
          cases ws with
          | nil =>
            rw [List.nil_append, List.cons.injEq] at hw
            exact absurd hw.2 hne
          | cons u ws =>
            obtain ⟨rfl, rfl⟩ := List.cons.inj hw
            obtain ⟨rfl, rfl⟩ := List.cons.inj hv
            exact ⟨rfl, ws, x, y, rfl, rfl, h⟩

/-- A literal occurs if its words stand at consecutive positions, at each of them in one of the
alternatives, and it accepts the fields of these. -/
theorem Config.occurs_iff {config : Config} {sequence : Sequence} {l : Literal} :
    config.occurs sequence l ↔ ∃ start < sequence.size, ∃ terms,
      l.words.length ≤ (sequence.positions.drop start).length ∧
      List.Forall₂ (· ∈ ·) terms ((sequence.positions.drop start).take l.words.length) ∧
      spells l.isPrefix l.words (terms.map config.word) ∧
      ∀ t ∈ terms, l.allowsFields t.fields := by
  have hwanted : wantedWords [l] = l.words.map fun w => (l, w) := by simp [wantedWords]
  have hsnd : (wantedWords [l]).map Prod.snd = l.words := by simp [hwanted, Function.comp_def]
  have hlength : (wantedWords [l]).length = l.words.length := by simp [hwanted]
  have hfields {terms : List Candidate} (h : terms.length = l.words.length) :
      (((wantedWords [l]).zip terms).all fun (p, t) => p.1.allowsFields t.fields) = true ↔
        ∀ t ∈ terms, l.allowsFields t.fields := by
    rw [hwanted, List.zip_map_left, List.all_map]
    have hsecond : ((fun x : (Literal × List Char) × Candidate => x.1.1.allowsFields x.2.fields) ∘
        Prod.map (fun w => (l, w)) id) = (fun t => l.allowsFields t.fields) ∘ Prod.snd := rfl
    rw [hsecond, ← List.all_map, List.map_snd_zip (Nat.le_of_eq h), List.all_eq_true]
  unfold occurs occurrences fits
  rw [Bool.not_eq_true', List.isEmpty_eq_false_iff_exists_mem, hsnd, hlength]
  simp only [List.mem_flatMap, List.mem_range, List.mem_map, List.mem_filter, Bool.and_eq_true]
  constructor
  · rintro ⟨_, start, hstart, terms, ⟨hterms, hspells, hallows⟩, -⟩
    obtain ⟨hle, halt⟩ := mem_choices.1 hterms
    exact ⟨start, hstart, terms, hle, halt, hspells,
      (hfields (length_of_mem_choices hterms)).1 hallows⟩
  · rintro ⟨start, hstart, terms, hle, halt, hspells, hallows⟩
    have hterms := mem_choices.2 ⟨hle, halt⟩
    exact ⟨_, start, hstart, terms, ⟨hterms, hspells,
      (hfields (length_of_mem_choices hterms)).2 hallows⟩, rfl⟩

/-! ## Walks that spell words -/

/-- A word is cut behind a given start at most once. -/
theorem filter_cuts {w : List Char} (hw : w ≠ []) (v : List Char) :
    ((cuts v).filter fun p => p.1 == w) =
      if w.isPrefixOf v && decide (w.length < v.length) then [(w, v.drop w.length)] else [] := by
  induction v generalizing w with
  | nil =>
    cases w with
    | nil => exact absurd rfl hw
    | cons d ds => rfl
  | cons c cs ih =>
    cases w with
    | nil => exact absurd rfl hw
    | cons d ds =>
      rw [cuts]
      rcases eq_or_ne cs [] with rfl | hcs
      · simp
      · have hmap : ((cuts cs).map fun p => (c :: p.1, p.2)).filter (fun p => p.1 == d :: ds) =
            if c = d then ((cuts cs).filter fun p => p.1 == ds).map fun p => (c :: p.1, p.2)
            else [] := by
          rw [List.filter_map]
          by_cases hc : c = d <;> simp [hc, Function.comp_def]
        rw [if_neg hcs, List.filter_cons, hmap]
        rcases eq_or_ne ds [] with rfl | hds
        · have hnone : ((cuts cs).filter fun p => p.1 == []) = [] := by
            rw [List.filter_eq_nil_iff]
            rintro ⟨a, b⟩ hm
            simpa using (mem_cuts.1 hm).2.1
          have hlen : 0 < cs.length := List.length_pos_iff.2 hcs
          rw [hnone]
          by_cases hc : c = d
          · subst hc; simp [hlen]
          · simp [hc, Ne.symm hc]
        · rw [ih hds]
          by_cases hc : c = d
          · subst hc
            have hstart : ((c :: ds).isPrefixOf (c :: cs) &&
                decide ((c :: ds).length < (c :: cs).length)) =
                (ds.isPrefixOf cs && decide (ds.length < cs.length)) := by
              simp [List.isPrefixOf]
            have hhead : ([c] == c :: ds) = false := by simp [hds]
            rw [hhead, if_neg Bool.false_ne_true, if_pos rfl, hstart]
            by_cases hp : (ds.isPrefixOf cs && decide (ds.length < cs.length)) = true
            · rw [if_pos hp, if_pos hp]; rfl
            · rw [if_neg hp, if_neg hp]; rfl
          · simp [hc, Ne.symm hc, List.isPrefixOf]

/-- The walks over one alternative that spell one word. -/
theorem filter_stops (word : β → List Char) (isPrefix : Bool) {w : List Char} (hw : w ≠ [])
    (b : β) : ((stops word b).filter fun x => x.text == w && x.rest.isSome == isPrefix) =
      if spells isPrefix [w] [word b] then [⟨[b], w, remainder? isPrefix [w] [word b]⟩]
      else [] := by
  unfold stops spells remainder?
  rw [List.filter_append, List.filter_map]
  cases isPrefix with
  | true =>
    have hcomp : ((fun x : Walk β => x.text == w && x.rest.isSome == true) ∘
        fun p : List Char × List Char => ⟨[b], p.1, some p.2⟩) = fun p => p.1 == w := by
      funext p
      simp
    rw [hcomp, filter_cuts hw]
    split <;> simp_all
  | false =>
    have hcomp : ((fun x : Walk β => x.text == w && x.rest.isSome == false) ∘
        fun p : List Char × List Char => ⟨[b], p.1, some p.2⟩) = fun _ => false := by
      funext p
      simp
    rw [hcomp]
    by_cases hb : word b = w <;> simp [hb]

/-- The walks that begin with an alternative of the first position. -/
def walksWith (word : β → List Char) (positions : List (List β)) (b : β) : List (Walk β) :=
  if word b = [] then [] else stops word b ++ (walks word positions).map (Walk.cons b (word b))

/-- The walks that begin with an alternative and spell one word take nothing else. -/
theorem filter_walksWith_singleton (word : β → List Char) (isPrefix : Bool) {w : List Char}
    (hw : w ≠ []) (hsp : ' ' ∉ w) (positions : List (List β)) (b : β) :
    ((walksWith word positions b).filter fun x => x.text == w && x.rest.isSome == isPrefix) =
      if spells isPrefix [w] [word b] then [⟨[b], w, remainder? isPrefix [w] [word b]⟩]
      else [] := by
  -- a walk over several alternatives has a space in its text
  have hlong : (((walks word positions).map (Walk.cons b (word b))).filter fun x =>
      x.text == w && x.rest.isSome == isPrefix) = [] := by
    rw [List.filter_eq_nil_iff]
    intro x hx
    obtain ⟨y, -, rfl⟩ := List.mem_map.1 hx
    have htext : word b ++ ' ' :: y.text ≠ w := fun he => hsp (he ▸ by simp)
    simp [Walk.cons, htext]
  unfold walksWith
  by_cases hb : word b = []
  · have hs : spells isPrefix [w] [word b] = false := by
      rw [hb]
      cases isPrefix <;> simp [spells, hw]
    rw [if_pos hb, hs]
    rfl
  · rw [if_neg hb, List.filter_append, hlong, filter_stops word isPrefix hw, List.append_nil]

/-- The walks that begin with an alternative and spell several words take the first word there. -/
theorem filter_walksWith_cons (word : β → List Char) (isPrefix : Bool) {w : List Char}
    {ws : List (List Char)} (hw : w ≠ []) (hsp : ' ' ∉ w) (hne : ws ≠ [])
    (positions : List (List β)) {b : β} (hb : ' ' ∉ word b) :
    ((walksWith word positions b).filter fun x =>
        x.text == Text.unwords (w :: ws) && x.rest.isSome == isPrefix) =
      if word b = w then ((walks word positions).filter fun x =>
        x.text == Text.unwords ws && x.rest.isSome == isPrefix).map (Walk.cons b w)
      else [] := by
  rw [Text.unwords_cons w hne]
  -- a walk over one alternative has no space in its text
  have hshort : ((stops word b).filter fun x =>
      x.text == w ++ ' ' :: Text.unwords ws && x.rest.isSome == isPrefix) = [] := by
    rw [List.filter_eq_nil_iff]
    intro x hx
    have htext : x.text ≠ w ++ ' ' :: Text.unwords ws := by
      intro he
      refine hb ?_
      have hmem : ' ' ∈ x.text := he ▸ by simp
      simp only [stops, List.mem_append, List.mem_map, List.mem_singleton] at hx
      rcases hx with ⟨⟨y, z⟩, hcut, rfl⟩ | rfl
      · rw [(mem_cuts.1 hcut).1]
        exact List.mem_append_left _ hmem
      · exact hmem
    simp [htext]
  have htext (x : Walk β) : ((x.cons b (word b)).text == w ++ ' ' :: Text.unwords ws) =
      (word b == w && x.text == Text.unwords ws) := by
    rw [Bool.eq_iff_iff, Bool.and_eq_true, beq_iff_eq, beq_iff_eq, beq_iff_eq]
    exact Text.append_cons_inj hb hsp
  unfold walksWith
  by_cases he : word b = w
  · rw [if_neg (he ▸ hw), if_pos he, List.filter_append, hshort, List.nil_append, List.filter_map]
    simp only [Function.comp_def, htext]
    simp only [he, beq_self_eq_true, Bool.true_and]
    rfl
  · rw [if_neg he]
    split
    · rfl
    · rw [List.filter_append, hshort, List.nil_append, List.filter_map]
      simp [Function.comp_def, htext, he]

/-- The walks that spell some words take a choice of alternatives with these words. -/
theorem filter_walks (word : β → List Char) (isPrefix : Bool) {ws : List (List Char)}
    (hne : ws ≠ []) (hws : ∀ w ∈ ws, w ≠ [] ∧ ' ' ∉ w) {positions : List (List β)}
    (hp : ∀ bs ∈ positions, ∀ b ∈ bs, ' ' ∉ word b) :
    ((walks word positions).filter fun x =>
        x.text == Text.unwords ws && x.rest.isSome == isPrefix) =
      ((choices ws.length positions).filter fun bs => spells isPrefix ws (bs.map word)).map
        fun bs => ⟨bs, Text.unwords ws, remainder? isPrefix ws (bs.map word)⟩ := by
  induction ws generalizing positions with
  | nil => exact absurd rfl hne
  | cons w ws ih =>
    obtain ⟨⟨hw, hsp⟩, hws⟩ := List.forall_mem_cons.1 hws
    cases positions with
    | nil => rfl
    | cons alternatives positions =>
      obtain ⟨halt, hp⟩ := List.forall_mem_cons.1 hp
      have hcons : walks word (alternatives :: positions) =
        alternatives.flatMap (walksWith word positions) := rfl
      rw [List.length_cons, hcons, choices, List.filter_flatMap, List.filter_flatMap,
        List.map_flatMap]
      refine List.flatMap_congr fun b hb => ?_
      rcases eq_or_ne ws [] with rfl | hne
      · rw [Text.unwords_singleton, filter_walksWith_singleton word isPrefix hw hsp]
        by_cases hs : spells isPrefix [w] [word b] <;> simp [choices, hs]
      · rw [filter_walksWith_cons word isPrefix hw hsp hne positions (halt b hb), List.filter_map,
          ih hne hws hp]
        have hspells (bs : List β) : spells isPrefix (w :: ws) ((b :: bs).map word) =
            (word b == w && spells isPrefix ws (bs.map word)) := spells_cons _ _ _ hne _
        by_cases he : word b = w
        · simp only [Function.comp_def, hspells, he, if_true, beq_self_eq_true, Bool.true_and,
            List.map_map]
          refine List.map_congr_left fun bs hbs => ?_
          have hlen := length_of_mem_choices (List.mem_of_mem_filter hbs)
          have hbs : bs.map word ≠ [] := by
            rw [← List.length_pos_iff, List.length_map, hlen]
            exact List.length_pos_iff.2 hne
          rw [Walk.cons, Text.unwords_cons w hne, remainder?, remainder?, List.map_cons,
            List.getLast?_cons_of_ne_nil hbs, List.getLast?_cons_of_ne_nil hne]
        · simp only [Function.comp_def, hspells, beq_eq_false_iff_ne.2 he, Bool.false_and,
            if_neg he]
          simp

/-! ## Phrases of words -/

/-- The literals of a phrase consist of words. -/
def HaveWords (literals : List Literal) : Prop := ∀ l ∈ literals, Text.IsWords l.value.toList

/-- No term of a sequence has a space in its normalized value. -/
def Sequence.IsSplit (sequence : Sequence) (config : Config) : Prop :=
  ∀ alternatives ∈ sequence.positions, ∀ t ∈ alternatives, ' ' ∉ config.word t

instance (literals : List Literal) : Decidable (HaveWords literals) :=
  inferInstanceAs (Decidable (∀ l ∈ literals, Text.IsWords l.value.toList))

instance (sequence : Sequence) (config : Config) : Decidable (sequence.IsSplit config) :=
  inferInstanceAs (Decidable (∀ alternatives ∈ sequence.positions, ∀ t ∈ alternatives,
    ' ' ∉ config.word t))

theorem map_snd_wantedWords (literals : List Literal) :
    (wantedWords literals).map Prod.snd = (literals.map Literal.words).flatten := by
  unfold wantedWords
  rw [List.map_flatMap, ← List.flatMap_def]
  simp [Function.comp_def]

/-- A phrase is stored under the words that it asks for. -/
theorem phraseKey_eq {literals : List Literal} (h : HaveWords literals) :
    Ruleset.phraseKey literals = Text.unwords ((wantedWords literals).map Prod.snd) := by
  have hwords : literals.map (·.value.toList) = (literals.map Literal.words).map Text.unwords := by
    rw [List.map_map]
    exact List.map_congr_left fun l hl => (Text.isWords_iff.1 (h l hl)).2
  have hne : ∀ ws ∈ literals.map Literal.words, ws ≠ [] := by
    intro ws hws
    obtain ⟨l, hl, rfl⟩ := List.mem_map.1 hws
    exact (Text.isWords_iff.1 (h l hl)).1
  unfold Ruleset.phraseKey
  rw [hwords, Text.unwords_flatten hne, map_snd_wantedWords]

theorem mem_wantedWords {literals : List Literal} {p : Literal × List Char}
    (hp : p ∈ wantedWords literals) : p.2 ≠ [] ∧ ' ' ∉ p.2 := by
  obtain ⟨l, -, hp⟩ := List.mem_flatMap.1 hp
  obtain ⟨w, hw, rfl⟩ := List.mem_map.1 hp
  obtain ⟨hne, hsep⟩ := Text.mem_pieces hw
  exact ⟨hne, fun hc => by simpa using hsep _ hc⟩

theorem wantedWords_ne_nil {literals : List Literal} (hne : literals ≠ [])
    (h : HaveWords literals) : wantedWords literals ≠ [] := by
  obtain ⟨l, ls, rfl⟩ := List.exists_cons_of_ne_nil hne
  have hl := (Text.isWords_iff.1 (h l (by simp))).1
  simpa [wantedWords, Literal.words] using fun he => absurd he hl

/-- Fields are accepted word by word. -/
theorem allowsFields_eq {literals : List Literal} {terms : List Candidate}
    (h : terms.length = (wantedWords literals).length) : Ruleset.allowsFields literals terms =
      ((wantedWords literals).zip terms).all fun (p, t) => p.1.allowsFields t.fields := by
  have hwanted : (literals.flatMap fun l => l.words.map fun _ => l) =
      (wantedWords literals).map Prod.fst := by
    unfold wantedWords
    rw [List.map_flatMap]
    simp [Function.comp_def]
  unfold Ruleset.allowsFields
  dsimp only
  rw [hwanted, List.zip_map_left, List.all_map, List.length_map, h]
  simp [Function.comp_def]

/-- The walks that meet a phrase take the choices that fit it. -/
theorem Config.meetings_eq (config : Config) {sequence : Sequence} {literals : List Literal}
    (hne : literals ≠ []) (h : HaveWords literals) (hs : sequence.IsSplit config) (start : Nat) :
    config.meetings sequence literals start =
      ((choices (wantedWords literals).length (sequence.positions.drop start)).filter
        (config.fits literals)).map fun terms =>
          ⟨terms, Ruleset.phraseKey literals, remainder? (Ruleset.endsInPrefix literals)
            ((wantedWords literals).map Prod.snd) (terms.map config.word)⟩ := by
  have hwords : ∀ w ∈ (wantedWords literals).map Prod.snd, w ≠ [] ∧ ' ' ∉ w := by
    intro w hw
    obtain ⟨p, hp, rfl⟩ := List.mem_map.1 hw
    exact mem_wantedWords hp
  have hwanted : (wantedWords literals).map Prod.snd ≠ [] := by
    simpa using wantedWords_ne_nil hne h
  have hsplit : ∀ bs ∈ sequence.positions.drop start, ∀ b ∈ bs, ' ' ∉ config.word b :=
    fun bs hbs => hs bs (List.mem_of_mem_drop hbs)
  have hwalks := filter_walks config.word (Ruleset.endsInPrefix literals) hwanted hwords hsplit
  rw [← phraseKey_eq h, List.length_map] at hwalks
  have hmeets : meetings config sequence literals start =
      ((sequence.walksFrom config.word start).filter fun x =>
        x.text == Ruleset.phraseKey literals &&
          x.rest.isSome == Ruleset.endsInPrefix literals).filter fun x =>
            Ruleset.allowsFields literals x.taken := by
    unfold meetings
    rw [List.filter_filter]
    refine List.filter_congr fun x _ => ?_
    rw [Walk.meets, Bool.and_comm]
  unfold Sequence.walksFrom at hmeets
  rw [hmeets, hwalks, List.filter_map, List.filter_filter]
  congr 1
  refine List.filter_congr fun terms hterms => ?_
  rw [Function.comp_apply, allowsFields_eq (length_of_mem_choices hterms), Bool.and_comm]
  rfl

/-- A phrase of words matches where it occurs. -/
theorem Config.phraseFirings_eq (config : Config) {sequence : Sequence} {literals : List Literal}
    (hne : literals ≠ []) (h : HaveWords literals) (hs : sequence.IsSplit config) :
    config.phraseFirings sequence literals = config.occurrences sequence literals := by
  unfold phraseFirings occurrences
  refine List.flatMap_congr fun start _ => ?_
  rw [config.meetings_eq hne h hs, List.map_map]
  refine List.map_congr_left fun terms hterms => ?_
  rw [Function.comp_apply, length_of_mem_choices (List.mem_of_mem_filter hterms)]

/-- A literal of words is met in a sequence if it occurs there. -/
theorem Config.metBefore_eq_occurs (config : Config) {sequence : Sequence} {l : Literal}
    (h : Text.IsWords l.value.toList) (hs : sequence.IsSplit config) :
    config.metBefore sequence sequence.size l = config.occurs sequence l := by
  have hwords : HaveWords [l] := by simpa [HaveWords] using h
  have hfirings := config.phraseFirings_eq (List.cons_ne_nil l []) hwords hs
  unfold metBefore spansBefore occurs
  rw [← hfirings, phraseFirings, Bool.eq_iff_iff]
  simp [List.isEmpty_eq_false_iff]

end QueryRules
