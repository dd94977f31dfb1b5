import Mathlib.Data.List.TakeWhile
import QueryRules.Proofs.Text.Reading
import QueryRules.RuleText.Token

/-!
# The tokens a text falls into

`FallsInto cs ts`: apart from its blanks, the text `cs` is made of the tokens `ts`. A word is a run
of word characters that nothing before or after it could be added to.

- Every text falls into tokens (`exists_fallsInto`) in one way (`FallsInto.unique`).
- `FallsInto.tokens_eq`: if every blank is layout, these are the tokens that the text is read as;
  any other blank is a token of its own (`blank_not_mem_tokens_iff`).
-/

namespace QueryRules.RuleText

open QueryRules.Text

/-- The text is made of the tokens with any number of blanks around them. -/
inductive FallsInto : List Char → List Token → Prop
  | nil : FallsInto [] []
  | blank {c : Char} {cs : List Char} {ts : List Token} (hc : isBlank c) (h : FallsInto cs ts) :
      FallsInto (c :: cs) ts
  | opening {cs : List Char} {ts : List Token} (h : FallsInto cs ts) :
      FallsInto ('(' :: cs) (.opening :: ts)
  | closing {cs : List Char} {ts : List Token} (h : FallsInto cs ts) :
      FallsInto (')' :: cs) (.closing :: ts)
  | word {w rest : List Char} {ts : List Token} (hne : w ≠ []) (hw : ∀ c ∈ w, isWordChar c)
      (hstop : StopsAt isWordChar rest) (h : FallsInto rest ts) :
      FallsInto (w ++ rest) (.word w :: ts)

theorem isWordChar_iff {c : Char} :
    isWordChar c ↔ isBlank c = false ∧ c ≠ '(' ∧ c ≠ ')' := by
  simp [isWordChar, and_assoc]

theorem exists_fallsInto (cs : List Char) : ∃ ts, FallsInto cs ts := by
  induction hn : cs.length using Nat.strongRecOn generalizing cs with
  | ind n ih =>
    subst hn
    cases cs with
    | nil => exact ⟨[], .nil⟩
    | cons c cs =>
      obtain ⟨ts, hts⟩ := ih _ (Nat.lt_succ_self _) cs rfl
      by_cases hblank : isBlank c
      · exact ⟨ts, .blank hblank hts⟩
      by_cases hopening : c = '('
      · subst hopening
        exact ⟨_, .opening hts⟩
      by_cases hclosing : c = ')'
      · subst hclosing
        exact ⟨_, .closing hts⟩
      have hc : isWordChar c := isWordChar_iff.2 ⟨by simpa using hblank, hopening, hclosing⟩
      have hword : ∀ d ∈ c :: cs.takeWhile isWordChar, isWordChar d :=
        List.forall_mem_cons.2 ⟨hc, fun d hd => List.mem_takeWhile_imp hd⟩
      have hstop : StopsAt isWordChar (cs.dropWhile isWordChar) := by
        intro d hd
        have hhead := List.head?_dropWhile_not isWordChar cs
        rwa [Option.mem_def.1 hd] at hhead
      obtain ⟨us, hus⟩ := ih (cs.dropWhile isWordChar).length
        (Nat.lt_succ_of_le (length_dropWhile_le _ _)) _ rfl
      have h := FallsInto.word (List.cons_ne_nil c _) hword hstop hus
      rw [List.cons_append, List.takeWhile_append_dropWhile] at h
      exact ⟨_, h⟩

/-! ## The reading of tokens -/

theorem tokensAt_cons (n : Nat) (c : Char) (cs : List Char) : tokensAt n (c :: cs) =
    (if isLayout c then tokensAt (n + c.utf8Size) cs
    else if isBlank c then ⟨.blank, n⟩ :: tokensAt (n + c.utf8Size) cs
    else if c = '(' then ⟨.opening, n⟩ :: tokensAt (n + c.utf8Size) cs
    else if c = ')' then ⟨.closing, n⟩ :: tokensAt (n + c.utf8Size) cs
    else match cs, tokensAt (n + c.utf8Size) cs with
      | d :: _, ⟨.word w, m⟩ :: rest =>
        if isWordChar d then ⟨.word (c :: w), n⟩ :: rest
        else ⟨.word [c], n⟩ :: ⟨.word w, m⟩ :: rest
      | _, rest => ⟨.word [c], n⟩ :: rest) := rfl

theorem tokensAt_word {w rest : List Char} (hne : w ≠ []) (hw : ∀ c ∈ w, isWordChar c)
    (hstop : StopsAt isWordChar rest) (n : Nat) :
    tokensAt n (w ++ rest) = ⟨.word w, n⟩ :: tokensAt (n + byteSize w) rest := by
  induction w generalizing n with
  | nil => exact absurd rfl hne
  | cons c w ih =>
    obtain ⟨hc, hw⟩ := List.forall_mem_cons.1 hw
    obtain ⟨hblank, hopening, hclosing⟩ := isWordChar_iff.1 hc
    have hlayout : isLayout c = false := by
      rw [Bool.eq_false_iff]
      intro hl
      rw [isBlank_of_isLayout hl] at hblank
      exact nomatch hblank
    rw [List.cons_append, tokensAt_cons]
    simp only [hlayout, hblank, Bool.false_eq_true, if_false, if_neg hopening, if_neg hclosing]
    rcases eq_or_ne w [] with rfl | hs
    · -- A word that starts after `c` does not go on from it.
      rw [List.nil_append, byteSize, byteSize, Nat.add_zero]
      split
      · rename_i d ds v k ts heq
        rw [if_neg (by rw [stopsAt_cons.1 hstop]; exact Bool.false_ne_true), heq]
      · rfl
    · obtain ⟨d, ds, rfl⟩ := List.exists_cons_of_ne_nil hs
      rw [ih hs hw]
      simp only [List.cons_append, if_pos (hw d List.mem_cons_self), byteSize, Nat.add_assoc]

/-- The tokens that a text is read as are those that it falls into and its blanks. -/
theorem FallsInto.filter_tokensAt {cs : List Char} {ts : List Token} (h : FallsInto cs ts)
    (n : Nat) : ((tokensAt n cs).map Placed.token).filter (· ≠ .blank) = ts := by
  induction h generalizing n with
  | nil => rfl
  | blank hc h ih =>
    rw [tokensAt_cons]
    split <;> exact ih _
  | opening h ih => exact congrArg _ (ih _)
  | closing h ih => exact congrArg _ (ih _)
  | word hne hw hstop h ih =>
    rw [tokensAt_word hne hw hstop]
    exact congrArg _ (ih _)

theorem FallsInto.unique {cs : List Char} {ts us : List Token} (h : FallsInto cs ts)
    (h' : FallsInto cs us) : ts = us := (h.filter_tokensAt 0).symm.trans (h'.filter_tokensAt 0)

theorem blank_not_mem_tokensAt_iff {cs : List Char} {n : Nat} :
    .blank ∉ (tokensAt n cs).map Placed.token ↔ ∀ c ∈ cs, isBlank c → isLayout c := by
  obtain ⟨ts, h⟩ := exists_fallsInto cs
  induction h generalizing n with
  | nil => simp [show tokensAt n [] = [] from rfl]
  | blank hc h ih =>
    rw [tokensAt_cons, List.forall_mem_cons]
    split
    · rename_i hl
      rw [ih, and_iff_right fun _ => hl]
    · rename_i hl
      simp [hc, hl]
  | opening h ih =>
    rw [List.forall_mem_cons, ← @ih (n + '('.utf8Size), tokensAt_cons]
    simp +decide
  | closing h ih =>
    rw [List.forall_mem_cons, ← @ih (n + ')'.utf8Size), tokensAt_cons]
    simp +decide
  | @word w rest ts hne hw hstop h ih =>
    have hword : ∀ c ∈ w, isBlank c → isLayout c := by
      intro c hc hb
      rw [(isWordChar_iff.1 (hw c hc)).1] at hb
      exact nomatch hb
    rw [tokensAt_word hne hw hstop, List.map_cons, List.mem_cons, not_or, ih,
      List.forall_mem_append, and_iff_right (by simp), and_iff_right hword]

/-- No blank is a token if every blank of the text is layout. -/
theorem blank_not_mem_tokens_iff {cs : List Char} :
    .blank ∉ (tokens cs).map Placed.token ↔ ∀ c ∈ cs, isBlank c → isLayout c :=
  blank_not_mem_tokensAt_iff

theorem FallsInto.tokens_eq {cs : List Char} {ts : List Token} (h : FallsInto cs ts)
    (hlayout : ∀ c ∈ cs, isBlank c → isLayout c) : (tokens cs).map Placed.token = ts := by
  have hblank : ∀ t ∈ (tokens cs).map Placed.token, decide (t ≠ .blank) := by
    intro t ht
    rw [decide_eq_true_iff]
    rintro rfl
    exact blank_not_mem_tokens_iff.2 hlayout ht
  exact (List.filter_eq_self.2 hblank).symm.trans (h.filter_tokensAt 0)

end QueryRules.RuleText
