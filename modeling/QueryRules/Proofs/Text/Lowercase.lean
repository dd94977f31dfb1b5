import QueryRules.Proofs.Text.Words
import QueryRules.Text.Case

/-!
# The lower case of words

No character becomes a blank in lower case, and none becomes nothing. So words stay apart
(`Text.isWords_lowerIfUpper`) and no text becomes empty (`Text.lowerIfUpper_ne_empty`) or blank
(`Text.hasText_lowerIfUpper`).

- `eq_of_mem_lowerAt` and `lowerAt_ne_nil` say so of one character.
- `exists_lowercaseFrom_append` and `exists_lowercaseFrom_unwords` take a text apart; the form of a
  character depends on what stands around it, which is why they speak of a text in its place.
-/

namespace QueryRules.Text

/-- A table of mappings leaves a code point as it is or takes it to one of its images. -/
theorem mapSteps_cases {rows : List (Nat × Nat × Nat × Nat)} {P : Nat → Prop}
    (h : ∀ row ∈ rows, ∀ k ≤ row.2.1 - row.1, P (row.2.2.2 + k)) (n : Nat) :
    mapSteps rows n = n ∨ P (mapSteps rows n) := by
  induction rows with
  | nil => exact .inl rfl
  | cons row rows ih =>
    obtain ⟨first, last, step, image⟩ := row
    obtain ⟨himage, hrows⟩ := List.forall_mem_cons.1 h
    unfold mapSteps
    split
    · exact .inl rfl
    · split
      · rename_i hpoint
        simp only [Bool.and_eq_true, decide_eq_true_eq] at hpoint
        exact .inr (himage (n - first) (Nat.sub_le_sub_right hpoint.1 first))
      · exact ih hrows

theorem lowerAt_ne_nil (before : List Char) (c : Char) (after : List Char) :
    lowerAt before c after ≠ [] := by
  unfold lowerAt
  split
  · simp
  · split <;> simp

@[simp] theorem lowerAt_space (before after : List Char) : lowerAt before ' ' after = [' '] := by
  unfold lowerAt
  rw [if_neg (by decide), if_neg (by decide)]
  decide

/-- A blank in the lower case of a character is that character. -/
theorem eq_of_mem_lowerAt {before after : List Char} {c d : Char} (h : d ∈ lowerAt before c after)
    (hd : isBlank d) : d = c := by
  unfold lowerAt at h
  split at h
  · rw [List.mem_singleton] at h
    split at h
    · exact absurd hd (h ▸ by decide)
    · exact absurd hd (h ▸ by decide)
  · split at h
    · rcases List.mem_pair.1 h with rfl | rfl
      · exact absurd hd (by decide)
      · exact absurd hd (by decide)
    · have himages : ∀ row ∈ lowerSteps, ∀ k ≤ row.2.1 - row.1,
          isBlank (Char.ofNat (row.2.2.2 + k)) = false := by decide +kernel
      rw [List.mem_singleton.1 h] at hd ⊢
      rcases mapSteps_cases (P := fun n => isBlank (Char.ofNat n) = false) himages c.toNat
        with he | hblank
      · rw [he, Char.ofNat_toNat]
      · exact absurd hd (Bool.eq_false_iff.1 hblank)

/-- The lower case of the first part of a text stands before that of the second one. -/
theorem exists_lowercaseFrom_append (before w after : List Char) : ∃ v,
    lowercaseFrom before (w ++ after) = v ++ lowercaseFrom (w.reverse ++ before) after ∧
      (w ≠ [] → v ≠ []) ∧ (' ' ∉ w → ' ' ∉ v) := by
  induction w generalizing before with
  | nil => exact ⟨[], rfl, fun h => h, fun h => h⟩
  | cons c w ih =>
    obtain ⟨v, hv, -, hspace⟩ := ih (c :: before)
    refine ⟨lowerAt before c (w ++ after) ++ v, ?_, fun _ => ?_, fun hc => ?_⟩
    · rw [List.cons_append, lowercaseFrom, hv, List.reverse_cons, List.append_assoc,
        List.append_assoc]
      rfl
    · simp [lowerAt_ne_nil]
    · rw [List.mem_cons, not_or] at hc
      rw [List.mem_append, not_or]
      exact ⟨fun h => hc.1 (eq_of_mem_lowerAt h (by decide)), hspace hc.2⟩

/-- The lower case of words with spaces between them is made of as many words. -/
theorem exists_lowercaseFrom_unwords {ws : List (List Char)} (h : ∀ w ∈ ws, w ≠ [] ∧ ' ' ∉ w)
    (before : List Char) : ∃ vs, vs.length = ws.length ∧ (∀ v ∈ vs, v ≠ [] ∧ ' ' ∉ v) ∧
      lowercaseFrom before (unwords ws) = unwords vs := by
  induction ws generalizing before with
  | nil => exact ⟨[], rfl, by simp, rfl⟩
  | cons w ws ih =>
    obtain ⟨⟨hne, hspace⟩, hws⟩ := List.forall_mem_cons.1 h
    rcases eq_or_ne ws [] with rfl | hs
    · obtain ⟨v, hv, hvne, hvspace⟩ := exists_lowercaseFrom_append before w []
      refine ⟨[v], rfl, by simpa using ⟨hvne hne, hvspace hspace⟩, ?_⟩
      rw [List.append_nil] at hv
      rw [unwords_singleton, unwords_singleton, hv]
      exact List.append_nil v
    · obtain ⟨v, hv, hvne, hvspace⟩ := exists_lowercaseFrom_append before w (' ' :: unwords ws)
      obtain ⟨vs, hlength, hvs, hrest⟩ := ih hws (' ' :: (w.reverse ++ before))
      have hs' : vs ≠ [] := by
        rw [← List.length_pos_iff, hlength]
        exact List.length_pos_iff.2 hs
      refine ⟨v :: vs, congrArg (· + 1) hlength,
        List.forall_mem_cons.2 ⟨⟨hvne hne, hvspace hspace⟩, hvs⟩, ?_⟩
      rw [unwords_cons w hs, hv, lowercaseFrom, lowerAt_space, hrest, unwords_cons v hs']
      rfl

/-- A text that is not empty is not empty in lower case. -/
theorem lowerIfUpper_ne_empty {s : String} (h : s ≠ "") : lowerIfUpper s ≠ "" := by
  unfold lowerIfUpper
  split
  · obtain ⟨v, hv, hne, -⟩ := exists_lowercaseFrom_append [] s.toList []
    rw [List.append_nil] at hv
    rw [Ne, String.ofList_eq_empty_iff, lowercase, hv]
    intro he
    refine hne (fun hs => h (String.toList_eq_nil_iff.1 hs)) (List.append_eq_nil_iff.1 he).1
  · exact h

/-- Text made of words is still made of words in lower case. -/
theorem isWords_lowerIfUpper {s : String} (h : IsWords s.toList) :
    IsWords (lowerIfUpper s).toList := by
  unfold lowerIfUpper
  split
  · obtain ⟨ws, hne, hws, hs⟩ := h
    obtain ⟨vs, hlength, hvs, he⟩ := exists_lowercaseFrom_unwords hws []
    refine ⟨vs, ?_, hvs, ?_⟩
    · rw [← List.length_pos_iff, hlength]
      exact List.length_pos_iff.2 hne
    · rw [String.toList_ofList, hs]
      exact he
  · exact h

/-- The lower case of a character is part of that of the text that it stands in. -/
theorem exists_lowerAt_subset {cs : List Char} {c : Char} (hc : c ∈ cs) (before : List Char) :
    ∃ before' after, lowerAt before' c after ⊆ lowercaseFrom before cs := by
  induction cs generalizing before with
  | nil => exact nomatch hc
  | cons d cs ih =>
    rw [lowercaseFrom]
    rcases List.mem_cons.1 hc with rfl | hc
    · exact ⟨before, cs, List.subset_append_left _ _⟩
    · obtain ⟨before', after, h⟩ := ih hc (d :: before)
      exact ⟨before', after, List.Subset.trans h (List.subset_append_right _ _)⟩

/-- Text that is not blank is not blank in lower case. -/
theorem hasText_lowerIfUpper {s : String} (h : HasText s) : HasText (lowerIfUpper s) := by
  obtain ⟨c, hc, hblank⟩ := h
  unfold lowerIfUpper
  split
  · obtain ⟨before, after, hsub⟩ := exists_lowerAt_subset hc []
    obtain ⟨d, hd⟩ := List.exists_mem_of_ne_nil _ (lowerAt_ne_nil before c after)
    refine ⟨d, ?_, ?_⟩
    · rw [String.toList_ofList]
      exact hsub hd
    · by_contra hdblank
      have he := eq_of_mem_lowerAt hd (Bool.of_not_eq_false hdblank)
      exact hdblank (he ▸ hblank)
  · exact ⟨c, hc, hblank⟩

end QueryRules.Text
