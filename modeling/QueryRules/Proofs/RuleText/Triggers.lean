import QueryRules.Proofs.Except
import QueryRules.Proofs.Text.Lines
import QueryRules.Proofs.Text.Words
import QueryRules.RuleText.Condition

/-!
# Triggers in rules text

- `RuleText.exists_of_readTrigger`: a trigger that is read is a condition or a phrase of the trimmed
  text.
- `RuleText.cutTerms_ne_nil`: a text that does not begin with a blank has terms, so no phrase is
  empty (`RuleText.readPhrase_spec`).
- `RuleText.exists_words_of_readLiteral`: the value of a literal is what words joined by spaces are
  normalized to.
-/

namespace QueryRules.RuleText

open QueryRules.Text

variable {config : Config}

/-- A trigger is read from a text that is not blank, as a phrase or as a condition. -/
theorem exists_of_readTrigger {text : String} {trigger : Trigger}
    (h : readTrigger config text = .ok trigger) : trim text.toList ≠ [] ∧
      ((∃ literals, readPhrase config (trim text.toList) = .ok literals ∧
          trigger = .phrase literals) ∨
        ∃ c, readCondition config (trim text.toList) = .ok c ∧
          trigger = .condition c (String.ofList (trim text.toList))) := by
  unfold readTrigger at h
  dsimp only at h
  split at h
  · exact nomatch h
  · rename_i hne
    refine ⟨hne, ?_⟩
    split at h
    · obtain ⟨c, hc, rfl⟩ := exists_of_map_eq_ok h
      exact .inr ⟨c, hc, rfl⟩
    · obtain ⟨literals, hliterals, rfl⟩ := exists_of_map_eq_ok h
      exact .inl ⟨literals, hliterals, rfl⟩

/-! ## Literals -/

/-- Text that is joined from its words is made of words. -/
theorem isWords_unwords_words {cs : List Char} (h : unwords (words cs) ≠ []) :
    IsWords (unwords (words cs)) := by
  refine ⟨words cs, ?_, fun w hw => ?_, rfl⟩
  · intro he
    exact h (congrArg unwords he)
  · obtain ⟨hne, hblank⟩ := mem_words hw
    exact ⟨hne, fun hc => absurd (hblank _ hc) (by decide)⟩

/-- The value of a literal is what words joined by spaces are normalized to. -/
theorem exists_words_of_readLiteral {cs : List Char} {l : Literal}
    (h : readLiteral config cs = .ok l) : ∃ value, unwords (words value) ≠ [] ∧
      l.value = config.normalize (String.ofList (unwords (words value))) := by
  obtain ⟨⟨fields, written⟩, -, h⟩ := bind_eq_ok_iff.1 h
  dsimp only at h
  split at h
  · exact nomatch h
  · split at h
    · exact nomatch h
    · split at h
      · exact nomatch h
      · rename_i hne
        obtain rfl := Except.ok.inj h
        exact ⟨_, hne, rfl⟩

theorem exists_isWords_of_readLiteral {cs : List Char} {l : Literal}
    (h : readLiteral config cs = .ok l) :
    ∃ value : String, IsWords value.toList ∧ l.value = config.normalize value := by
  obtain ⟨value, hne, hl⟩ := exists_words_of_readLiteral h
  exact ⟨_, (String.toList_ofList ▸ isWords_unwords_words hne), hl⟩

theorem exists_isWords_of_readLiterals {cs : List Char} {literals : List Literal}
    (h : readLiterals config cs = .ok literals) : ∀ l ∈ literals,
      ∃ value : String, IsWords value.toList ∧ l.value = config.normalize value := by
  intro l hl
  obtain ⟨term, -, hterm⟩ := exists_of_mem_mapM h hl
  exact exists_isWords_of_readLiteral hterm

/-! ## Phrases -/

theorem cutTermsAt_ne_nil (depth : Nat) (cs : List Char) : cutTermsAt depth cs ≠ [] := by
  fun_induction cutTermsAt depth cs <;> simp_all

/-- What a character means that is no backslash. -/
theorem cutTermsAt_cons_of_ne {c : Char} (hc : c ≠ '\\') (depth : Nat) (cs : List Char) :
    cutTermsAt depth (c :: cs) =
      if c = '{' then (cutTermsAt (depth + 1) cs).modifyHead (c :: ·)
      else if c = '}' then (cutTermsAt (depth - 1) cs).modifyHead (c :: ·)
      else if isBlank c ∧ depth = 0 then [] :: cutTermsAt 0 cs
      else (cutTermsAt depth cs).modifyHead (c :: ·) := by
  rw [cutTermsAt.eq_def]
  split
  · contradiction
  · simp_all
  · simp_all
  · rename_i he
    obtain ⟨rfl, rfl⟩ := List.cons.inj he
    rfl
  · rename_i he
    obtain ⟨rfl, rfl⟩ := List.cons.inj he
    rfl
  · rename_i ho hb he
    obtain ⟨rfl, rfl⟩ := List.cons.inj he
    rw [if_neg ho, if_neg hb]

/-- A backslash takes the next character with it. -/
theorem cutTermsAt_backslash (depth : Nat) (c : Char) (cs : List Char) :
    cutTermsAt depth ('\\' :: c :: cs) =
      (cutTermsAt depth cs).modifyHead fun t => '\\' :: c :: t := rfl

/-- A character that is no blank goes on with a term. -/
theorem exists_cutTermsAt_cons {c : Char} (hc : isBlank c = false) (cs : List Char) :
    ∃ term terms, cutTermsAt 0 (c :: cs) = (c :: term) :: terms := by
  have hmodify (depth : Nat) (cs front : List Char) :
      ∃ term terms, (cutTermsAt depth cs).modifyHead (fun t => c :: (front ++ t)) =
        (c :: term) :: terms := by
    obtain ⟨term, terms, he⟩ := List.exists_cons_of_ne_nil (cutTermsAt_ne_nil depth cs)
    exact ⟨front ++ term, terms, by rw [he, List.modifyHead_cons]⟩
  by_cases hbackslash : c = '\\'
  · subst hbackslash
    cases cs with
    | nil => exact ⟨[], [], rfl⟩
    | cons d ds => exact hmodify 0 ds [d]
  · rw [cutTermsAt_cons_of_ne hbackslash, if_neg (show ¬ (isBlank c ∧ (0 : Nat) = 0) by simp [hc])]
    split
    · exact hmodify _ cs []
    · split
      · exact hmodify _ cs []
      · exact hmodify _ cs []

/-- A text that does not begin with a blank has terms. -/
theorem cutTerms_ne_nil {cs : List Char} (hne : cs ≠ []) (hfront : StopsAt isBlank cs) :
    cutTerms cs ≠ [] := by
  obtain ⟨c, cs, rfl⟩ := List.exists_cons_of_ne_nil hne
  obtain ⟨term, terms, he⟩ := exists_cutTermsAt_cons (stopsAt_cons.1 hfront) cs
  simp [cutTerms, he]

/-- A phrase has literals, and only the last one may be a prefix. -/
theorem readPhrase_spec {cs : List Char} (hne : cs ≠ []) (hfront : StopsAt isBlank cs)
    {literals : List Literal} (h : readPhrase config cs = .ok literals) : literals ≠ [] ∧
      readLiterals config cs = .ok literals ∧ ∀ l ∈ literals.dropLast, l.isPrefix = false := by
  obtain ⟨read, hread, h⟩ := bind_eq_ok_iff.1 h
  split at h
  · exact nomatch h
  · rename_i hstars
    obtain rfl := Except.ok.inj h
    refine ⟨?_, hread, by simpa using hstars⟩
    rintro rfl
    have hlength := (mapM_eq_ok_iff.1 hread).length_eq
    exact cutTerms_ne_nil hne hfront (List.length_eq_zero_iff.1 hlength)

/-- A condition has a literal outside every not. -/
theorem hasPositive_of_readCondition {cs : List Char} {c : Condition}
    (h : readCondition config cs = .ok c) : c.hasPositive := by
  obtain ⟨raw, -, h⟩ := bind_eq_ok_iff.1 h
  obtain ⟨read, -, h⟩ := bind_eq_ok_iff.1 h
  split at h
  · rename_i hpositive
    exact Except.ok.inj h ▸ hpositive
  · exact nomatch h

end QueryRules.RuleText
