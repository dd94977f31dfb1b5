import Mathlib.Data.List.Basic
import QueryRules.Text.Blank

/-!
# Words with spaces between them

- `Text.IsWords`: a text consists of one or more words with single spaces between them.
- `Text.HasText`: a text has a character that is no blank, as one does that is joined from words
  (`Text.hasText_unwords_words`).
- `Text.pieces_unwords`, `Text.words_unwords`: such a text falls into its words again.
- `Text.unwords_flatten`: joining the joined words of several texts joins all the words.
- `Text.unwords_inj`: of texts that are joined from as many parts, one without spaces in its parts
  has the same parts.
-/

namespace QueryRules.Text

@[simp] theorem unwords_singleton (w : List Char) : unwords [w] = w := List.intercalate_singleton

theorem unwords_cons (w : List Char) {ws : List (List Char)} (h : ws ≠ []) :
    unwords (w :: ws) = w ++ ' ' :: unwords ws := by
  rw [unwords, List.intercalate_cons_of_ne_nil h, List.append_assoc]
  rfl

theorem unwords_append {ws vs : List (List Char)} (h : ws ≠ []) (h' : vs ≠ []) :
    unwords (ws ++ vs) = unwords ws ++ ' ' :: unwords vs := by
  induction ws with
  | nil => exact absurd rfl h
  | cons w ws ih =>
    rcases eq_or_ne ws [] with rfl | hs
    · rw [List.singleton_append, unwords_cons w h', unwords_singleton]
    · rw [List.cons_append, unwords_cons w (by simp [hs]), ih hs, unwords_cons w hs,
        List.append_assoc, List.cons_append]

theorem toList_intercalate_space (ws : List String) :
    (" ".intercalate ws).toList = unwords (ws.map String.toList) := by
  rw [String.toList_intercalate]
  rfl

/-- Joining joined words joins all the words. -/
theorem unwords_flatten {texts : List (List (List Char))} (h : ∀ ws ∈ texts, ws ≠ []) :
    unwords (texts.map unwords) = unwords texts.flatten := by
  induction texts with
  | nil => rfl
  | cons ws texts ih =>
    rw [List.map_cons, List.flatten_cons]
    rcases eq_or_ne texts [] with rfl | hs
    · simp
    · have hne : texts.flatten ≠ [] := by
        obtain ⟨vs, texts, rfl⟩ := List.exists_cons_of_ne_nil hs
        simp [h vs (by simp)]
      rw [unwords_cons _ (by simpa using hs), unwords_append (h ws (by simp)) hne,
        ih fun vs hv => h vs (List.mem_cons_of_mem _ hv)]

/-- The text consists of one or more words with single spaces between them. -/
def IsWords (cs : List Char) : Prop :=
  ∃ ws, ws ≠ [] ∧ (∀ w ∈ ws, w ≠ [] ∧ ' ' ∉ w) ∧ cs = unwords ws

/-- Words fall apart again where they have been joined. -/
theorem pieces_unwords {ws : List (List Char)} (h : ∀ w ∈ ws, w ≠ [] ∧ ' ' ∉ w) :
    pieces (· == ' ') (unwords ws) = ws := by
  unfold pieces unwords
  rcases eq_or_ne ws [] with rfl | hne
  · rfl
  · have hsplit := List.splitOn_intercalate ' ' (fun w hw => (h w hw).2) hne
    rw [List.splitOn_eq_splitOnP] at hsplit
    rw [hsplit, List.filter_eq_self]
    intro w hw
    simpa using (h w hw).1

/-- Words without blanks are the words of the text that they are joined to. -/
theorem words_unwords {ws : List (List Char)}
    (h : ∀ w ∈ ws, w ≠ [] ∧ ∀ c ∈ w, isBlank c = false) : words (unwords ws) = ws := by
  induction ws with
  | nil => rfl
  | cons w ws ih =>
    obtain ⟨⟨hne, hw⟩, hws⟩ := List.forall_mem_cons.1 h
    have hempty : w.isEmpty = false := List.isEmpty_eq_false_iff.2 hne
    rcases eq_or_ne ws [] with rfl | hs
    · rw [unwords_singleton, words, pieces, List.splitOnP_eq_singleton hw]
      simp [hempty]
    · rw [unwords_cons w hs, words, pieces,
        List.splitOnP_append_cons_of_forall_mem hw ' ' (by decide),
        List.filter_cons_of_pos (by simp [hempty])]
      exact congrArg (w :: ·) (ih hws)

/-- What holds of the characters of the separator and of the words holds of those of the text. -/
theorem forall_mem_intercalate {P : Char → Prop} {sep : List Char} {ws : List (List Char)}
    (hsep : ∀ c ∈ sep, P c) (h : ∀ w ∈ ws, ∀ c ∈ w, P c) : ∀ c ∈ sep.intercalate ws, P c := by
  induction ws with
  | nil => exact nofun
  | cons w ws ih =>
    obtain ⟨hw, hws⟩ := List.forall_mem_cons.1 h
    rcases eq_or_ne ws [] with rfl | hs
    · rwa [List.intercalate_singleton]
    · rw [List.intercalate_cons_of_ne_nil hs, List.forall_mem_append, List.forall_mem_append]
      exact ⟨⟨hw, hsep⟩, ih hws⟩

/-- What holds of a space and of the characters of the words holds of those of the text. -/
theorem forall_mem_unwords {P : Char → Prop} {ws : List (List Char)} (hspace : P ' ')
    (h : ∀ w ∈ ws, ∀ c ∈ w, P c) : ∀ c ∈ unwords ws, P c :=
  forall_mem_intercalate (List.forall_mem_singleton.2 hspace) h

/-- What follows a text of words can as well be added to the last word. -/
theorem unwords_concat_append (ws : List (List Char)) (w cs : List Char) :
    unwords (ws ++ [w]) ++ cs = unwords (ws ++ [w ++ cs]) := by
  rcases eq_or_ne ws [] with rfl | hs
  · simp
  · rw [unwords_append hs (List.cons_ne_nil _ _), unwords_append hs (List.cons_ne_nil _ _),
      unwords_singleton, unwords_singleton, List.append_assoc, List.cons_append]

/-- Joined texts have a space for each of them but one, besides their own spaces. -/
theorem count_unwords {ws : List (List Char)} (hne : ws ≠ []) :
    (unwords ws).count ' ' + 1 = ws.length + ws.flatten.count ' ' := by
  induction ws with
  | nil => exact absurd rfl hne
  | cons w ws ih =>
    rcases eq_or_ne ws [] with rfl | hs
    · rw [unwords_singleton, List.flatten_singleton, List.length_singleton, Nat.add_comm]
    · have := ih hs
      rw [unwords_cons w hs, List.count_append, List.count_cons_self, List.length_cons,
        List.flatten_cons, List.count_append]
      omega

/-- Texts without spaces are those that are joined, if there are as many of them. -/
theorem unwords_inj {ws vs : List (List Char)} (hlength : ws.length = vs.length)
    (hws : ∀ w ∈ ws, ' ' ∉ w) (h : unwords ws = unwords vs) : ws = vs := by
  rcases eq_or_ne ws [] with rfl | hne
  · exact (List.length_eq_zero_iff.1 hlength.symm).symm
  · have hne' : vs ≠ [] := by
      rintro rfl
      exact hne (List.length_eq_zero_iff.1 hlength)
    -- both joined texts have the same number of spaces, so none of the others has a space either
    have hcount : ws.flatten.count ' ' = 0 := by
      rw [List.count_eq_zero, List.mem_flatten]
      exact fun ⟨w, hw, hspace⟩ => hws w hw hspace
    have hcount' : vs.flatten.count ' ' = 0 := by
      have hl := count_unwords hne
      have hr := count_unwords hne'
      rw [h] at hl
      omega
    have hvs : ∀ v ∈ vs, ' ' ∉ v := fun v hv hspace =>
      List.count_eq_zero.1 hcount' (List.mem_flatten.2 ⟨v, hv, hspace⟩)
    rw [← List.splitOn_intercalate ' ' hws hne, ← List.splitOn_intercalate ' ' hvs hne']
    exact congrArg (List.splitOn ' ') h

/-- A text of words consists of just its pieces between spaces. -/
theorem isWords_iff {cs : List Char} :
    IsWords cs ↔ pieces (· == ' ') cs ≠ [] ∧ cs = unwords (pieces (· == ' ') cs) := by
  constructor
  · rintro ⟨ws, hne, hw, rfl⟩
    rw [pieces_unwords hw]
    exact ⟨hne, rfl⟩
  · rintro ⟨hne, he⟩
    refine ⟨_, hne, fun w hw => ?_, he⟩
    obtain ⟨hw, hsep⟩ := mem_pieces hw
    refine ⟨hw, fun hc => ?_⟩
    have := hsep _ hc
    simp at this

instance (cs : List Char) : Decidable (IsWords cs) := decidable_of_iff _ isWords_iff.symm

/-- Two texts without a character, which follows each of them, are equal if the whole texts are. -/
theorem append_cons_inj {x : Char} {w v cs ds : List Char} (hw : x ∉ w) (hv : x ∉ v) :
    w ++ x :: cs = v ++ x :: ds ↔ w = v ∧ cs = ds := by
  induction w generalizing v with
  | nil =>
    cases v with
    | nil => simp
    | cons d v =>
      have hd : x ≠ d := fun he => hv (he ▸ List.mem_cons_self)
      simp [hd]
  | cons c w ih =>
    have hc : c ≠ x := fun he => hw (he ▸ List.mem_cons_self)
    cases v with
    | nil => simp [hc]
    | cons d v =>
      have := ih (v := v) (fun h => hw (List.mem_cons_of_mem _ h))
        (fun h => hv (List.mem_cons_of_mem _ h))
      simp [this, and_assoc]

/-- The text has a character that is no blank. -/
def HasText (s : String) : Prop := ∃ c ∈ s.toList, isBlank c = false

instance (s : String) : Decidable (HasText s) :=
  decidable_of_iff (s.toList.any fun c => !isBlank c) (by simp [HasText])

/-- What is joined from the words of a text has text, unless it is empty. -/
theorem hasText_unwords_words {cs : List Char} (h : unwords (words cs) ≠ []) :
    HasText (String.ofList (unwords (words cs))) := by
  cases hwords : words cs with
  | nil => exact absurd (congrArg unwords hwords) h
  | cons w ws =>
    obtain ⟨hne, hblank⟩ := mem_words (hwords ▸ List.mem_cons_self)
    obtain ⟨c, hc⟩ := List.exists_mem_of_ne_nil w hne
    refine ⟨c, ?_, hblank c hc⟩
    rw [String.toList_ofList]
    rcases eq_or_ne ws [] with rfl | hws
    · rwa [unwords_singleton]
    · rw [unwords_cons w hws]
      exact List.mem_append_left _ hc

end QueryRules.Text
