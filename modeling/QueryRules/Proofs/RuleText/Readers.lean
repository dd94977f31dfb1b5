import QueryRules.Proofs.RuleText.Tokens
import QueryRules.RuleText.Condition

/-!
# What the readers of conditions read

Each reader of a level of the syntax reads what the readers of the level below it read, and looks at
the one token that follows.

- `reads_readDisjuncts_iff`, `reads_readConjuncts_iff`: an operand, alone or with its operator and
  further operands after it.
- `reads_readNegation_iff`, `reads_readPrimary_iff`: the first token tells the cases apart.
- `exists_of_reads_readWords`, `reads_readWords`: a literal is made of as many plain words as there
  are.
-/

namespace QueryRules.RuleText

open QueryRules.Text

variable {ts : List Placed}

theorem after?_cons_of_eq {token : Token} {t : Placed} (h : t.token = token) (ts : List Placed) :
    after? token (t :: ts) = some ⟨ts, Nat.lt_succ_self _⟩ := if_pos h

theorem after?_of_ne {token : Token} (h : ∀ t ∈ ts.head?, t.token ≠ token) :
    after? token ts = none := by
  cases ts with
  | nil => rfl
  | cons t ts => exact if_neg (h t rfl)

theorem reads_insist_iff {α : Type} {r : TokenReading α ts} {a : α} {rest : List Placed} :
    Reads (insist r) a rest ↔ Reads r a rest := by
  cases r with
  | error stop => simp [insist]
  | ok r => rfl

/-- An operand is read, and what comes after its operator if that is the next token. -/
theorem reads_chain_iff {α β γ : Type} (r : TokenReading α ts) (token : Token)
    (more : (us : List Placed) → TokenReading γ us) (one : α → β) (two : α → γ → β) {b : β}
    {rest : List Placed} : Reads (do
      let (a, ⟨ts₁, h₁⟩) ← r
      match after? token ts₁ with
      | none => .ok (one a, ⟨ts₁, h₁⟩)
      | some ⟨ts₂, h₂⟩ =>
        let (c, ⟨ts₃, h₃⟩) ← insist (more ts₂)
        .ok (two a c, ⟨ts₃, h₃.trans (h₂.trans h₁)⟩) : TokenReading β ts) b rest ↔
      ∃ a ts₁, Reads r a ts₁ ∧
        (((∀ t ∈ ts₁.head?, t.token ≠ token) ∧ b = one a ∧ rest = ts₁) ∨
          ∃ t ts₂ c, ts₁ = t :: ts₂ ∧ t.token = token ∧ Reads (more ts₂) c rest ∧ b = two a c) := by
  rcases r with stop | ⟨a, ts₁, h₁⟩
  · simp [bind, Except.bind]
  simp only [bind, Except.bind, reads_ok_iff, and_assoc, exists_and_left, exists_eq_left]
  by_cases hnext : ∀ t ∈ ts₁.head?, t.token ≠ token
  · have hnone : ¬ ∃ t ts₂, ts₁ = t :: ts₂ ∧ t.token = token ∧
        ∃ c, Reads (more ts₂) c rest ∧ b = two a c := by
      rintro ⟨t, ts₂, rfl, ht, -⟩
      exact hnext t rfl ht
    rw [after?_of_ne hnext, reads_ok_iff, and_iff_right hnext, or_iff_left hnone]
  · rw [or_iff_right fun h => hnext h.1]
    cases ts₁ with
    | nil => simp at hnext
    | cons t us =>
      have ht : t.token = token := by simpa using hnext
      rw [after?_cons_of_eq ht]
      simp only [List.cons.injEq, and_assoc, exists_and_left, exists_eq_left', ht, true_and,
        ← @reads_insist_iff us _ (more us)]
      rcases insist (more us) with stop | ⟨c, us'⟩
      · simp
      · simp [reads_ok_iff, and_comm]

theorem reads_readDisjuncts_iff {hs : List (Formula (List (List Char)))} {rest : List Placed} :
    Reads (readDisjuncts ts) hs rest ↔ ∃ fs ts₁, Reads (readConjuncts ts) fs ts₁ ∧
      (((∀ t ∈ ts₁.head?, t.token ≠ .word orWord) ∧ hs = [conjunction fs] ∧ rest = ts₁) ∨
        ∃ t ts₂ gs, ts₁ = t :: ts₂ ∧ t.token = .word orWord ∧ Reads (readDisjuncts ts₂) gs rest ∧
          hs = conjunction fs :: gs) := by
  rw [readDisjuncts]
  exact reads_chain_iff (readConjuncts ts) (.word orWord) readDisjuncts
    (fun fs => [conjunction fs]) (fun fs gs => conjunction fs :: gs)

theorem reads_readConjuncts_iff {fs : List (Formula (List (List Char)))} {rest : List Placed} :
    Reads (readConjuncts ts) fs rest ↔ ∃ f ts₁, Reads (readNegation ts) f ts₁ ∧
      (((∀ t ∈ ts₁.head?, t.token ≠ .word andWord) ∧ fs = [f] ∧ rest = ts₁) ∨
        ∃ t ts₂ gs, ts₁ = t :: ts₂ ∧ t.token = .word andWord ∧ Reads (readConjuncts ts₂) gs rest ∧
          fs = f :: gs) := by
  rw [readConjuncts]
  exact reads_chain_iff (readNegation ts) (.word andWord) readConjuncts
    (fun f => [f]) (fun f gs => f :: gs)

theorem reads_readNegation_iff {f : Formula (List (List Char))} {rest : List Placed} :
    Reads (readNegation ts) f rest ↔
      ((∀ t ∈ ts.head?, t.token ≠ .word notWord) ∧ Reads (readPrimary ts) f rest) ∨
        ∃ t ts₁ g, ts = t :: ts₁ ∧ t.token = .word notWord ∧ Reads (readNegation ts₁) g rest ∧
          f = .not g := by
  rw [readNegation]
  cases ts with
  | nil => simp [after?]
  | cons t us =>
    by_cases ht : t.token = .word notWord
    · simp [after?_cons_of_eq ht, ht, reads_weaken_iff, reads_map_iff, reads_insist_iff]
    · have hne : ∀ t' ∈ (t :: us).head?, t'.token ≠ .word notWord := by simpa using ht
      simp [after?_of_ne hne, ht]

theorem reads_readPrimary_iff {f : Formula (List (List Char))} {rest : List Placed} :
    Reads (readPrimary ts) f rest ↔
      ((∀ t ∈ ts.head?, t.token ≠ .opening) ∧
          ∃ ws, Reads (readWords ts) ws rest ∧ f = .literal ws) ∨
        ∃ t ts₁ fs t', ts = t :: ts₁ ∧ t.token = .opening ∧
          Reads (readDisjuncts ts₁) fs (t' :: rest) ∧ t'.token = .closing ∧
          f = disjunction fs := by
  rw [readPrimary]
  cases ts with
  | nil => simp [after?, reads_map_iff]
  | cons t us =>
    by_cases ht : t.token = .opening
    · simp only [after?_cons_of_eq ht, List.head?_cons, Option.mem_some_iff, forall_eq', ne_eq, ht,
        not_true_eq_false, false_and, false_or, List.cons.injEq, and_assoc, exists_and_left,
        exists_eq_left', true_and]
      rcases readDisjuncts us with stop | ⟨fs, ts₂, h₂⟩
      · simp
      · simp only [reads_ok_iff]
        by_cases hnext : ∀ t ∈ ts₂.head?, t.token ≠ .closing
        · simp only [after?_of_ne hnext, not_reads_error, false_iff, not_exists, not_and]
          rintro fs' t' ⟨rfl, rfl⟩ ht'
          exact absurd ht' (hnext t' rfl)
        · cases ts₂ with
          | nil => simp at hnext
          | cons t' us' =>
            have ht' : t'.token = .closing := by simpa using hnext
            simp only [after?_cons_of_eq ht', reads_ok_iff]
            simp [ht', and_comm]
    · have hne : ∀ t' ∈ (t :: us).head?, t'.token ≠ .opening := by simpa using ht
      simp [after?_of_ne hne, ht, reads_map_iff]

/-! ## Words -/

theorem Placed.plainWord?_eq_some_iff {t : Placed} {w : List Char} :
    t.plainWord? = some w ↔ t.token = .word w ∧ isOperator w = false := by
  obtain ⟨token, n⟩ := t
  cases token with
  | word v =>
    rw [Placed.plainWord?, Token.word.injEq]
    split
    · rename_i hv
      exact iff_of_false (nomatch ·) fun ⟨h, hw⟩ => by rw [h, hw] at hv; exact nomatch hv
    · rename_i hv
      rw [Option.some.injEq, iff_self_and]
      rintro rfl
      simpa using hv
  | opening => simp [Placed.plainWord?]
  | closing => simp [Placed.plainWord?]
  | blank => simp [Placed.plainWord?]

/-- Placed words that are no operators. -/
theorem map_plainWord?_eq_iff {front : List Placed} {ws : List (List Char)} :
    front.map Placed.plainWord? = ws.map some ↔
      front.map Placed.token = ws.map .word ∧ ∀ w ∈ ws, isOperator w = false := by
  induction front generalizing ws with
  | nil => cases ws <;> simp
  | cons t front ih =>
    cases ws with
    | nil => simp
    | cons w ws =>
      simp only [List.map_cons, List.cons.injEq, ih, Placed.plainWord?_eq_some_iff,
        List.forall_mem_cons]
      exact and_and_and_comm

theorem map_some_filterMap_plainWord? (h : ∀ t ∈ ts, t.plainWord?.isSome) :
    (ts.filterMap Placed.plainWord?).map some = ts.map Placed.plainWord? := by
  induction ts with
  | nil => rfl
  | cons t ts ih =>
    obtain ⟨ht, hts⟩ := List.forall_mem_cons.1 h
    obtain ⟨w, hw⟩ := Option.isSome_iff_exists.1 ht
    rw [List.filterMap_cons_some hw, List.map_cons, List.map_cons, ih hts, hw]

theorem takeWhile_plain {front rest : List Placed} (h : ∀ t ∈ front, t.plainWord?.isSome)
    (hrest : ∀ t ∈ rest.head?, t.plainWord? = none) :
    (front ++ rest).takeWhile (·.plainWord?.isSome) = front ∧
      (front ++ rest).dropWhile (·.plainWord?.isSome) = rest := by
  rw [List.takeWhile_append_of_pos h, List.dropWhile_append_of_pos h]
  cases rest with
  | nil => simp
  | cons t rest => simp [hrest t rfl]

/-- A literal is read from as many plain words as there are. -/
theorem exists_of_reads_readWords {rest : List Placed} {ws : List (List Char)}
    (h : Reads (readWords ts) ws rest) : ∃ front, ts = front ++ rest ∧ front ≠ [] ∧
      front.map Placed.plainWord? = ws.map some := by
  cases ts with
  | nil => simp [readWords] at h
  | cons t ts =>
    have hplain : ∀ t ∈ ts.takeWhile (·.plainWord?.isSome), t.plainWord?.isSome :=
      fun t ht => List.mem_takeWhile_imp (p := fun t : Placed => t.plainWord?.isSome) ht
    cases ht : t.plainWord? with
    | none => simp [readWords, ht] at h
    | some w =>
      simp only [readWords, ht, reads_ok_iff] at h
      obtain ⟨rfl, rfl⟩ := h
      refine ⟨t :: ts.takeWhile (·.plainWord?.isSome), ?_, List.cons_ne_nil _ _, ?_⟩
      · rw [List.cons_append, List.takeWhile_append_dropWhile]
      · rw [List.map_cons, List.map_cons, ht, map_some_filterMap_plainWord? hplain]

theorem reads_readWords {front rest : List Placed} {ws : List (List Char)} (hne : front ≠ [])
    (hfront : front.map Placed.plainWord? = ws.map some)
    (hrest : ∀ t ∈ rest.head?, t.plainWord? = none) :
    Reads (readWords (front ++ rest)) ws rest := by
  obtain ⟨t, front, rfl⟩ := List.exists_cons_of_ne_nil hne
  obtain ⟨w, ws, rfl, ht, hfront⟩ := List.map_eq_cons_iff.1 hfront.symm
  have hplain : ∀ t ∈ front, t.plainWord?.isSome := by
    intro t ht
    have hmem := List.mem_map_of_mem (f := Placed.plainWord?) ht
    rw [← hfront, List.mem_map] at hmem
    obtain ⟨w, -, hw⟩ := hmem
    rw [← hw, Option.isSome_some]
  obtain ⟨htake, hdrop⟩ := takeWhile_plain hplain hrest
  have hws : front.filterMap Placed.plainWord? = ws := by
    have h := congrArg (List.filterMap id) hfront.symm
    rwa [List.filterMap_map, List.filterMap_map, Function.id_comp, Function.id_comp,
      List.filterMap_some] at h
  simp only [List.cons_append, readWords, ← ht, htake, hdrop, hws, reads_ok_iff, and_self]

end QueryRules.RuleText
