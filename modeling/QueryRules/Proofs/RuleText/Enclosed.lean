import QueryRules.Proofs.Match.Literal
import QueryRules.Proofs.RuleText.Printing
import QueryRules.Proofs.RuleText.RoundTrip
import QueryRules.Proofs.Ruleset.Compile

/-!
# Words with and without parentheses

Plain words in parentheses are a condition of one literal, without them they are a phrase of one
literal each.

- `Config.WordByWord`: text is normalized word by word.
- `RuleText.exists_ofText_input`: the rule set of the line of one input.
- `Ruleset.coversFirst_ofText`: if text is normalized word by word, the condition has an action just
  if the phrase has, and it covers the first match of the phrase.
-/

namespace QueryRules

open QueryRules.Text

/-- A text that is one word. -/
def IsWord (s : String) : Prop := s.toList ≠ [] ∧ ∀ c ∈ s.toList, isBlank c = false

instance (s : String) : Decidable (IsWord s) :=
  decidable_of_iff (s.toList ≠ [] ∧ s.toList.all (!isBlank ·)) (by simp [IsWord])

/-- Text is normalized word by word, and normalized text stays as it is. -/
structure Config.WordByWord (config : Config) : Prop where
  idempotent : ∀ s, config.normalize (config.normalize s) = config.normalize s
  intercalate : ∀ ws : List String, ws ≠ [] → (∀ w ∈ ws, IsWord w) →
    config.normalize (" ".intercalate ws) = " ".intercalate (ws.map config.normalize)
  isWord : ∀ w, IsWord w → IsWord (config.normalize w)

namespace RuleText

variable {config : Config}

/-! ## Rule sets of one input -/

theorem lines_of_newline_not_mem {cs : List Char} (hne : cs ≠ []) (h : '\n' ∉ cs) :
    lines cs = [cs] := by
  have hsplit : cs.splitOn '\n' = [cs] := by
    rw [List.splitOn_eq_splitOnP]
    exact List.splitOnP_eq_singleton fun c hc => by
      rw [beq_eq_false_iff_ne]
      rintro rfl
      exact h hc
  simp [lines, hsplit, hne]

theorem readDrafts_input {input : String} (h : IsEntry input)
    (hcomment : input.toList.head? ≠ some '#') :
    readDrafts config (input ++ " =>") = .ok [{ input, line := 1 }] := by
  have htext : (input ++ " =>").toList = input.toList ++ [' ', '=', '>'] := by simp
  have hlines : lines (input ++ " =>").toList = [input.toList ++ [' ', '=', '>']] := by
    rw [htext]
    exact lines_of_newline_not_mem (by simp) (by simpa using h.oneLine)
  simp only [readDrafts, hlines, List.zipIdx_singleton, List.foldlM_cons, List.foldlM_nil,
    step_input h hcomment]
  rfl

/-- The rules text of one input has one rule, with the trigger that the input is read as. -/
theorem ofText_input {input : String} (h : IsEntry input) (hcomment : input.toList.head? ≠ some '#')
    {trigger : Trigger} (hread : readTrigger config input = .ok trigger) :
    Ruleset.ofText config (input ++ " =>") =
      Ruleset.compile config [.make trigger 0 (defaultId input 0) [] []] := by
  have hrules : readRules config (input ++ " =>") =
      .ok [.make trigger 0 (defaultId input 0) [] []] := by
    simp only [readRules, readDrafts_input h hcomment, readRulesFrom, readRule, hread,
      bind, Except.bind, Except.mapError]
    rfl
  simp only [Ruleset.ofText, hrules, bind, Except.bind]

/-- The rule set of the line of one input has one rule, with the trigger that the input is read
as. -/
theorem exists_ofText_input {input : String} (h : IsEntry input)
    (hcomment : input.toList.head? ≠ some '#') {trigger : Trigger}
    (hread : readTrigger config input = .ok trigger)
    (hcheck : Ruleset.checkTrigger (trigger.mapLiterals config.normalizeLiteral) = .ok ()) :
    ∃ s r, Ruleset.ofText config (input ++ " =>") = .ok s ∧ s.config = config ∧
      s.Indexed s.rules ∧ s.rules = [r] ∧
      r.trigger = trigger.mapLiterals config.normalizeLiteral := by
  let rule := Rule.make trigger 0 (defaultId input 0) [] []
  have hcompile : Ruleset.compile config [rule] =
      .ok (Ruleset.build config [Ruleset.normalized config rule]) :=
    Ruleset.compile_eq_ok_iff.2 ⟨by simp, List.forall_mem_singleton.2 hcheck, rfl⟩
  exact ⟨_, Ruleset.normalized config rule, (ofText_input h hcomment hread).trans hcompile,
    Ruleset.config_of_compile hcompile, Ruleset.indexed_of_compile hcompile,
    Ruleset.rules_of_compile hcompile, rfl⟩

/-! ## Words in and without parentheses -/

/-- Words with single spaces between them and an optional star. -/
def writtenWords (ws : List String) (isPrefix : Bool) : String :=
  " ".intercalate ws ++ if isPrefix then "*" else ""

theorem toList_writtenWords (ws : List String) (isPrefix : Bool) :
    (writtenWords ws isPrefix).toList = unwords (ws.map String.toList) ++ starOf isPrefix := by
  rw [writtenWords, String.toList_append, toList_intercalate_space]
  cases isPrefix <;> simp [starOf]

/-- The literals that the words of a phrase are. -/
def wordLiterals (config : Config) (ws : List String) (w : String) (isPrefix : Bool) :
    List Literal :=
  ws.map (fun v => { value := config.normalize v }) ++ [{ value := config.normalize w, isPrefix }]

section

variable {ws : List String} (hws : ∀ w ∈ ws, IsPlainWord w.toList)
include hws

theorem forall_mem_map_toList : ∀ w ∈ ws.map String.toList, IsPlainWord w := by
  simpa using hws

/-- The text of plain words is no comment and stands in one line. -/
theorem isEntry_writtenWords (hne : ws ≠ []) (isPrefix : Bool) :
    IsEntry (writtenWords ws isPrefix) := by
  have hplain := forall_mem_map_toList hws
  have hmap : ws.map String.toList ≠ [] := by simpa using hne
  refine ⟨?_, ?_, ?_⟩
  · rw [toList_writtenWords]
    exact fun he => unwords_plain_ne_nil hplain hmap (List.append_eq_nil_iff.1 he).1
  · rw [toList_writtenWords]
    exact trim_unwords_starOf hplain hmap isPrefix
  · rw [toList_writtenWords, List.mem_append, not_or]
    refine ⟨fun hmem => ?_, by cases isPrefix <;> decide⟩
    refine forall_mem_unwords (P := (· ≠ '\n')) (by decide) (fun w hw c hc => ?_) _ hmem rfl
    rintro rfl
    exact absurd ((hplain w hw).isBlank_eq_false _ hc) (by decide)

end

/-- A character that is in none of the words begins no text of them. -/
theorem head?_writtenWords_ne {ws : List String} {c : Char} (hspace : c ≠ ' ') (hstar : c ≠ '*')
    (hws : ∀ w ∈ ws, c ∉ w.toList) (isPrefix : Bool) :
    (writtenWords ws isPrefix).toList.head? ≠ some c := by
  intro hhead
  have hmem := List.mem_of_head? hhead
  rw [toList_writtenWords, List.mem_append] at hmem
  rcases hmem with hmem | hmem
  · refine forall_mem_unwords (P := (· ≠ c)) hspace.symm (fun w hw d hd => ?_) _ hmem rfl
    obtain ⟨v, hv, rfl⟩ := List.mem_map.1 hw
    rintro rfl
    exact hws v hv hd
  · cases isPrefix <;> simp [starOf, hstar] at hmem

theorem IsEntry.enclosed {s : String} (h : IsEntry s) : IsEntry ("(" ++ s ++ ")") := by
  have htext : ("(" ++ s ++ ")").toList = '(' :: (s.toList ++ [')']) := by simp
  refine ⟨?_, ?_, ?_⟩
  · rw [htext]
    exact List.cons_ne_nil _ _
  · rw [htext]
    exact trim_enclosed _
  · rw [htext]
    simpa using h.oneLine

/-- Plain words without parentheses are a phrase. -/
theorem readTrigger_writtenWords {ws : List String} {w : String}
    (hws : ∀ v ∈ ws ++ [w], IsPlainWord v.toList) (isPrefix : Bool) :
    readTrigger config (writtenWords (ws ++ [w]) isPrefix) =
      .ok (.phrase (wordLiterals config ws w isPrefix)) := by
  have hentry := isEntry_writtenWords hws (by simp) isPrefix
  have hplain := forall_mem_map_toList hws
  have htext := toList_writtenWords (ws ++ [w]) isPrefix
  obtain ⟨us, hus, h, he⟩ := exists_unwords_starOf hplain (by simp) isPrefix
  have hspells := spells_unwords hus fun v hv => ⟨(h v hv).1, (h v hv).2.1⟩
  -- none of the words makes the text a condition
  have hconditional : (tokens (writtenWords (ws ++ [w]) isPrefix).toList).any
      (·.token.isConditional) = false := by
    have htokens := hspells.fallsInto.tokens_eq hspells.layout
    rw [htext, ← he, ← Function.comp_def, ← List.any_map, htokens, List.any_map, List.any_eq_false]
    intro v hv
    simpa [Token.isConditional] using (h v hv).2.2
  have hliterals : readLiterals config (writtenWords (ws ++ [w]) isPrefix).toList =
      .ok (wordLiterals config ws w isPrefix) := by
    rw [List.map_append, List.map_singleton, List.forall_mem_append, List.forall_mem_singleton]
      at hplain
    rw [htext, List.map_append, List.map_singleton,
      readLiterals_unwords config hplain.1 hplain.2 isPrefix]
    simp [wordLiterals, Function.comp_def]
  have hstars : (wordLiterals config ws w isPrefix).dropLast.any Literal.isPrefix = false := by
    simp [wordLiterals]
  have hphrase : readPhrase config (writtenWords (ws ++ [w]) isPrefix).toList =
      .ok (wordLiterals config ws w isPrefix) := by
    simp only [readPhrase, hliterals, bind, Except.bind, hstars, Bool.false_eq_true, if_false]
  simp [readTrigger, hentry.trimmed, hentry.ne_nil, hconditional, hphrase, Except.map]

/-- Plain words in parentheses are a condition of one literal. -/
theorem readTrigger_enclosed_writtenWords (hconfig : config.conditions) {ws : List String}
    (hws : ∀ w ∈ ws, IsPlainWord w.toList) (hne : ws ≠ []) (isPrefix : Bool) :
    readTrigger config ("(" ++ writtenWords ws isPrefix ++ ")") = .ok (.condition
      (.literal { value := config.normalize (" ".intercalate ws), isPrefix })
      ("(" ++ writtenWords ws isPrefix ++ ")")) := by
  have hplain := forall_mem_map_toList hws
  have hmap : ws.map String.toList ≠ [] := by simpa using hne
  have htext : ("(" ++ writtenWords ws isPrefix ++ ")").toList =
      '(' :: ((unwords (ws.map String.toList) ++ starOf isPrefix) ++ [')']) := by
    simp [toList_writtenWords]
  obtain ⟨ts, hspells, hprimary⟩ := exists_spells_literal hmap hplain isPrefix
  have hliteral : Formula.traverse (readLiteral config)
      (.literal (unwords (ws.map String.toList) ++ starOf isPrefix)) =
        .ok (.literal { value := config.normalize (" ".intercalate ws), isPrefix }) := by
    rw [Formula.traverse, readLiteral_unwords hplain config hmap, ← toList_intercalate_space,
      String.ofList_toList]
    rfl
  have hread := readTrigger_enclosed hconfig hspells.enclosed
    (.parentheses (.one (.one (.primary hprimary)))) hliteral rfl
  rwa [← htext, String.ofList_toList] at hread

end RuleText

/-! ## Agreement -/

theorem RuleText.IsPlainWord.isWord {w : String} (h : RuleText.IsPlainWord w.toList) : IsWord w :=
  ⟨h.ne_nil, h.isBlank_eq_false⟩

theorem IsWord.isWords {s : String} (h : IsWord s) : IsWords s.toList := by
  refine ⟨[s.toList], by simp, ?_, (unwords_singleton _).symm⟩
  rw [List.forall_mem_singleton]
  exact ⟨h.1, fun hc => absurd (h.2 _ hc) (by decide)⟩

theorem isWords_intercalate {ws : List String} (hne : ws ≠ []) (h : ∀ w ∈ ws, IsWord w) :
    IsWords (" ".intercalate ws).toList := by
  refine ⟨ws.map String.toList, by simpa using hne, ?_, toList_intercalate_space ws⟩
  rw [List.forall_mem_map]
  exact fun w hw => ⟨(h w hw).1, fun hc => absurd ((h w hw).2 _ hc) (by decide)⟩

section

open RuleText

variable {config : Config} {ws : List String} {w : String} {isPrefix : Bool}

theorem fields_wordLiterals : ∀ l ∈ wordLiterals config ws w isPrefix, l.fields = ∅ := by
  intro l hl
  rcases List.mem_append.1 hl with hl | hl
  · obtain ⟨v, -, rfl⟩ := List.mem_map.1 hl
    rfl
  · rw [List.mem_singleton.1 hl]

variable (hnormal : config.WordByWord)
include hnormal

/-- A literal with a normalized value stays as it is. -/
theorem Config.WordByWord.normalizeLiteral_eq_self (value : String) :
    config.normalizeLiteral { value := config.normalize value, isPrefix } =
      { value := config.normalize value, isPrefix } := by
  simp [normalizeLiteral, hnormal.idempotent]

theorem Config.WordByWord.map_normalizeLiteral :
    (wordLiterals config ws w isPrefix).map config.normalizeLiteral =
      wordLiterals config ws w isPrefix := by
  simp [wordLiterals, hnormal.normalizeLiteral_eq_self]

variable (hws : ∀ v ∈ ws ++ [w], IsWord v)
include hws

theorem Config.WordByWord.isWords_normalize :
    IsWords (config.normalize (" ".intercalate (ws ++ [w]))).toList := by
  rw [hnormal.intercalate _ (by simp) hws]
  refine isWords_intercalate (by simp) ?_
  rw [List.forall_mem_map]
  exact fun v hv => hnormal.isWord v (hws v hv)

theorem Config.WordByWord.isWord_wordLiterals :
    ∀ l ∈ wordLiterals config ws w isPrefix, IsWord l.value := by
  intro l hl
  rcases List.mem_append.1 hl with hl | hl
  · obtain ⟨v, hv, rfl⟩ := List.mem_map.1 hl
    exact hnormal.isWord v (hws v (List.mem_append_left _ hv))
  · rw [List.mem_singleton.1 hl]
    exact hnormal.isWord w (hws w (by simp))

theorem Config.WordByWord.checkTrigger_wordLiterals :
    Ruleset.checkTrigger (.phrase (wordLiterals config ws w isPrefix)) = .ok () := by
  have hne : wordLiterals config ws w isPrefix ≠ [] := by simp [wordLiterals]
  have hvalue : (wordLiterals config ws w isPrefix).any (·.value.isEmpty) = false := by
    rw [List.any_eq_false]
    intro l hl hempty
    rw [String.isEmpty_iff] at hempty
    exact (hnormal.isWord_wordLiterals hws l hl).1 (by rw [hempty]; rfl)
  have hstars : (wordLiterals config ws w isPrefix).dropLast.any Literal.isPrefix = false := by
    simp [wordLiterals]
  simp [Ruleset.checkTrigger, hne, hvalue, hstars]

/-- The literals of the words and the literal of them all are met by the same walks. -/
theorem Config.WordByWord.meets_wordLiterals (walk : Walk Candidate) :
    walk.meets (wordLiterals config ws w isPrefix) =
      walk.meets [{ value := config.normalize (" ".intercalate (ws ++ [w])), isPrefix }] := by
  refine Walk.meets_congr (fun l hl => (hnormal.isWord_wordLiterals hws l hl).isWords) ?_
    fields_wordLiterals (by simp) ?_ (by simp [Ruleset.endsInPrefix, wordLiterals]) walk
  · rw [HaveWords, List.forall_mem_singleton]
    exact hnormal.isWords_normalize hws
  · have hkey : Ruleset.phraseKey (wordLiterals config ws w isPrefix) =
        unwords (((ws ++ [w]).map config.normalize).map String.toList) := by
      simp [Ruleset.phraseKey, wordLiterals, Function.comp_def]
    rw [hkey, ← toList_intercalate_space, ← hnormal.intercalate _ (by simp) hws]
    simp [Ruleset.phraseKey]

end

namespace Ruleset

open RuleText

variable {config : Config}

/-- If text is normalized word by word, plain words in parentheses match just if the words match as
a phrase, and cover the first match of the phrase. -/
theorem coversFirst_ofText (hconfig : config.conditions) (hnormal : config.WordByWord)
    {ws : List String} (hne : ws ≠ []) (hws : ∀ w ∈ ws, IsPlainWord w.toList ∧ '#' ∉ w.toList)
    (isPrefix : Bool) : ∃ s t,
    ofText config ("(" ++ writtenWords ws isPrefix ++ ")" ++ " =>") = .ok s ∧
      ofText config (writtenWords ws isPrefix ++ " =>") = .ok t ∧
      ∀ sequence, CoversFirst (s.actions sequence) (t.actions sequence) := by
  obtain ⟨vs, v, rfl⟩ := (List.eq_nil_or_concat' ws).resolve_left hne
  have hplain : ∀ w ∈ vs ++ [v], IsPlainWord w.toList := fun w hw => (hws w hw).1
  have hwords : ∀ w ∈ vs ++ [v], IsWord w := fun w hw => (hplain w hw).isWord
  have hentry := isEntry_writtenWords hplain hne isPrefix
  have hcomment := head?_writtenWords_ne (by decide) (by decide) (fun w hw => (hws w hw).2) isPrefix
  have hcheck : checkTrigger (.phrase
      ((wordLiterals config vs v isPrefix).map config.normalizeLiteral)) = .ok () := by
    rw [hnormal.map_normalizeLiteral]
    exact hnormal.checkTrigger_wordLiterals hwords
  obtain ⟨t, q, ht, htconfig, htindexed, hq, hphrase⟩ :=
    exists_ofText_input hentry hcomment (readTrigger_writtenWords hplain isPrefix) hcheck
  rw [Trigger.mapLiterals, hnormal.map_normalizeLiteral] at hphrase
  obtain ⟨s, r, hs, hsconfig, hsindexed, hr, hcondition⟩ :=
    exists_ofText_input hentry.enclosed (by simp)
      (readTrigger_enclosed_writtenWords hconfig hplain hne isPrefix) rfl
  rw [Trigger.mapLiterals, Formula.map, hnormal.normalizeLiteral_eq_self] at hcondition
  exact ⟨s, t, hs, ht, hsindexed.coversFirst htindexed (hsconfig.trans htconfig.symm) hr hq
    hcondition hphrase (hnormal.isWords_normalize hwords) (hnormal.meets_wordLiterals hwords)⟩

end Ruleset

/-! ## Normalizing character by character -/

section

variable {g : Char → Char}

/-- Normalizing every character by itself works word by word, if blanks and other characters are not
mixed up. -/
theorem Config.wordByWord_map (config : Config) (hidempotent : ∀ c, g (g c) = g c)
    (hspace : g ' ' = ' ') (hblank : ∀ c, isBlank c = false → isBlank (g c) = false) :
    WordByWord { config with normalize := fun s => String.ofList (s.toList.map g) } where
  idempotent s := by simp [Function.comp_def, hidempotent]
  intercalate ws hne h := by
    have hmap (ws : List (List Char)) : (unwords ws).map g = unwords (ws.map (List.map g)) := by
      induction ws with
      | nil => rfl
      | cons w ws ih =>
        rcases eq_or_ne ws [] with rfl | hs
        · simp
        · rw [unwords_cons w hs, List.map_cons, unwords_cons _ (by simpa using hs),
            List.map_append, List.map_cons, hspace, ih]
    rw [← String.toList_inj, String.toList_ofList, toList_intercalate_space, hmap,
      toList_intercalate_space]
    simp [Function.comp_def]
  isWord w h := by
    refine ⟨by simpa using h.1, ?_⟩
    rw [String.toList_ofList, List.forall_mem_map]
    exact fun c hc => hblank c (h.2 c hc)

end

/-- The letters A to Z are not told from a to z. -/
def asciiConfig : Config := { normalize := fun s => String.ofList (s.toList.map Char.toLower) }

theorem toLower_of_le {c : Char} (h : 128 ≤ c.toNat) : c.toLower = c := by
  have hz : ¬ (c.val ≥ 'A'.val ∧ c.val ≤ 'Z'.val) := by
    rintro ⟨-, hle⟩
    have : c.toNat ≤ 90 := hle
    omega
  exact dif_neg hz

/-- What holds of every small character and of the others holds of all. -/
theorem forall_char {P : Char → Prop} (hsmall : ∀ n < 128, P (Char.ofNat n))
    (hlarge : ∀ c : Char, 128 ≤ c.toNat → P c) (c : Char) : P c := by
  rcases Nat.lt_or_ge c.toNat 128 with h | h
  · rw [← Char.ofNat_toNat c]
    exact hsmall _ h
  · exact hlarge c h

theorem wordByWord_asciiConfig : asciiConfig.WordByWord := by
  refine Config.wordByWord_map {} (forall_char (by decide) fun c h => ?_) (by decide)
    (forall_char (by decide) fun c h => ?_)
  · rw [toLower_of_le h, toLower_of_le h]
  · rw [toLower_of_le h]
    exact id

theorem Ruleset.coversFirst_ofText_ascii :
    let sequence := .ofValues ["a", "red", "CARS", "Red", "cart"]
    ∃ s t, ofText asciiConfig "(Red Car*) =>" = .ok s ∧
      ofText asciiConfig "Red Car* =>" = .ok t ∧
      (s.actions sequence).map Action.span = [⟨1, 3⟩] ∧
      (t.actions sequence).map Action.span = [⟨1, 3⟩, ⟨3, 5⟩] ∧
      ∀ sequence, CoversFirst (s.actions sequence) (t.actions sequence) := by
  intro sequence
  have hws : ∀ w ∈ ["Red", "Car"], RuleText.IsPlainWord w.toList ∧ '#' ∉ w.toList := by decide
  obtain ⟨s, t, hs, ht, h⟩ :=
    coversFirst_ofText rfl wordByWord_asciiConfig (by decide) hws true
  have hscan : (ofText asciiConfig "(Red Car*) =>").map
      (fun s => (s.actions sequence).map Action.span) = .ok [⟨1, 3⟩] := by decide +kernel
  have hscan' : (ofText asciiConfig "Red Car* =>").map
      (fun s => (s.actions sequence).map Action.span) = .ok [⟨1, 3⟩, ⟨3, 5⟩] := by decide +kernel
  have hs' : ofText asciiConfig "(Red Car*) =>" = .ok s := hs
  have ht' : ofText asciiConfig "Red Car* =>" = .ok t := ht
  rw [hs'] at hscan
  rw [ht'] at hscan'
  exact ⟨s, t, hs, ht, Except.ok.inj hscan, Except.ok.inj hscan', h⟩

end QueryRules
