import Mathlib.Data.List.Chain
import QueryRules.Proofs.Text.Lowercase

/-!
# Titlecase letters

A text without an Uppercase character is left as it is. That need not be its lowercase form: a
titlecase letter, such as U+01C5, is not Uppercase and yet has a lowercase mapping.

- `mem_of_mapSteps_ne`, `inSteps_iff`: the code points that a table changes and those that it holds.
- `lowerAt_eq_self_iff`: of the characters that are not Uppercase just the titlecase letters are
  changed by the lowercase mapping.
- `lowerIfUpper_eq_lowercase_iff`: so a text goes to its lowercase form just if it has an Uppercase
  character or no titlecase letter.
-/

namespace QueryRules.Text

/-- The code points of the general category Lt. -/
def titlecaseRanges : List (Nat × Nat) := [
  (0x1C5, 0x1C5), (0x1C8, 0x1C8), (0x1CB, 0x1CB), (0x1F2, 0x1F2), (0x1F88, 0x1F8F),
  (0x1F98, 0x1F9F), (0x1FA8, 0x1FAF), (0x1FBC, 0x1FBC), (0x1FCC, 0x1FCC), (0x1FFC, 0x1FFC)]

/-- A titlecase letter. -/
def isTitlecase (c : Char) : Bool := inRanges titlecaseRanges c.toNat

/-! ## The points of a table -/

/-- The code points of one entry of a table. -/
def stepPoints (first last step : Nat) : List Nat :=
  (List.range' first (last + 1 - first)).filter fun n => (n - first) % step == 0

theorem mem_stepPoints {first last step n : Nat} :
    n ∈ stepPoints first last step ↔ first ≤ n ∧ n ≤ last ∧ (n - first) % step = 0 := by
  rw [stepPoints, List.mem_filter, List.mem_range'_1, beq_iff_eq]
  omega

/-- The code points of a table. -/
def points (rows : List (Nat × Nat × Nat)) : List Nat :=
  rows.flatMap fun (first, last, step) => stepPoints first last step

/-- A table whose entries follow each other upwards holds just its points. -/
theorem inSteps_iff {rows : List (Nat × Nat × Nat)} (h : (rows.map Prod.fst).IsChain (· ≤ ·))
    {n : Nat} : inSteps rows n ↔ n ∈ points rows := by
  rw [List.isChain_iff_pairwise, List.pairwise_map] at h
  induction rows with
  | nil => simp [inSteps, points]
  | cons row rows ih =>
    obtain ⟨first, last, step⟩ := row
    obtain ⟨hfirst, hrows⟩ := List.pairwise_cons.1 h
    have hbelow : n ∈ points rows → first ≤ n := by
      intro hn
      obtain ⟨row, hrow, hn⟩ := List.mem_flatMap.1 hn
      exact Nat.le_trans (hfirst row hrow) (mem_stepPoints.1 hn).1
    have hcons : n ∈ points ((first, last, step) :: rows) ↔
        n ∈ stepPoints first last step ∨ n ∈ points rows := by
      simp [points]
    rw [← ih hrows] at hbelow hcons
    rw [hcons, mem_stepPoints]
    simp only [inSteps, Bool.and_eq_true, Bool.or_eq_true, decide_eq_true_eq, beq_iff_eq]
    tauto

/-- A code point that a table of mappings changes is in one of its entries. -/
theorem mem_of_mapSteps_ne {rows : List (Nat × Nat × Nat × Nat)} {n : Nat}
    (h : mapSteps rows n ≠ n) :
    n ∈ points (rows.map fun (first, last, step, _) => (first, last, step)) := by
  induction rows with
  | nil => exact absurd rfl h
  | cons row rows ih =>
    obtain ⟨first, last, step, image⟩ := row
    simp only [points, List.map_cons, List.flatMap_cons, List.mem_append, mem_stepPoints] at ih ⊢
    unfold mapSteps at h
    split at h
    · exact absurd rfl h
    · split at h
      · rename_i hfirst hpoint
        simp only [Bool.and_eq_true, decide_eq_true_eq, beq_iff_eq] at hpoint
        exact .inl ⟨Nat.le_of_not_lt hfirst, hpoint⟩
      · exact .inr (ih h)

/-! ## Characters that are not Uppercase -/

/-- Whatever has a lowercase mapping is a titlecase letter or Uppercase. -/
theorem lowerPoints_sublist : List.Sublist
    ((points (lowerSteps.map fun (first, last, step, _) => (first, last, step))).filter
      fun n => !inRanges titlecaseRanges n) (points upperSteps) := by
  decide +kernel

/-- A titlecase letter is not Uppercase, and the lowercase mapping takes it to another character. -/
theorem titlecase_points : ∀ r ∈ titlecaseRanges, ∀ k ≤ r.2 - r.1,
    inSteps upperSteps (r.1 + k) = false ∧
      Char.ofNat (mapSteps lowerSteps (r.1 + k)) ≠ Char.ofNat (r.1 + k) := by
  decide +kernel

theorem mapSteps_eq_self {c : Char} (hupper : isUpper c = false) (htitle : isTitlecase c = false) :
    mapSteps lowerSteps c.toNat = c.toNat := by
  by_contra hne
  have hmem := lowerPoints_sublist.subset
    (List.mem_filter.2 ⟨mem_of_mapSteps_ne hne, by rw [← isTitlecase, htitle]; rfl⟩)
  rw [← inSteps_iff (by decide +kernel), ← isUpper, hupper] at hmem
  exact Bool.false_ne_true hmem

/-- A titlecase letter is not Uppercase, and its lowercase mapping is another character. -/
theorem isTitlecase_spec {c : Char} (h : isTitlecase c) :
    isUpper c = false ∧ Char.ofNat (mapSteps lowerSteps c.toNat) ≠ c := by
  have hascending : Ascending titlecaseRanges := by
    unfold Ascending
    decide
  obtain ⟨r, hr, hfirst, hlast⟩ := (inRanges_iff hascending).1 h
  obtain ⟨hupper, hne⟩ := titlecase_points r hr (c.toNat - r.1) (by omega)
  rw [Nat.add_sub_cancel' hfirst] at hupper hne
  rw [Char.ofNat_toNat] at hne
  exact ⟨hupper, hne⟩

/-- A character that is not Uppercase has one character as its lowercase form. -/
theorem lowerAt_of_not_isUpper {c : Char} (h : isUpper c = false) (before after : List Char) :
    lowerAt before c after = [Char.ofNat (mapSteps lowerSteps c.toNat)] := by
  unfold lowerAt
  rw [if_neg, if_neg]
  · rintro rfl
    exact absurd h (by decide +kernel)
  · rintro rfl
    exact absurd h (by decide +kernel)

/-- Of the characters that are not Uppercase just the titlecase letters are changed. -/
theorem lowerAt_eq_self_iff {c : Char} (h : isUpper c = false) (before after : List Char) :
    lowerAt before c after = [c] ↔ isTitlecase c = false := by
  rw [lowerAt_of_not_isUpper h, List.singleton_inj]
  constructor
  · intro he
    by_contra htitle
    exact (isTitlecase_spec (Bool.of_not_eq_false htitle)).2 he
  · intro htitle
    rw [mapSteps_eq_self h htitle, Char.ofNat_toNat]

/-! ## Texts without an Uppercase character -/

/-- A text without an Uppercase character is its own lowercase form just if it has no titlecase
letter. -/
theorem lowercaseFrom_eq_self_iff {cs : List Char} (h : ∀ c ∈ cs, isUpper c = false)
    (before : List Char) : lowercaseFrom before cs = cs ↔ ∀ c ∈ cs, isTitlecase c = false := by
  induction cs generalizing before with
  | nil => simp [lowercaseFrom]
  | cons c after ih =>
    obtain ⟨hc, hafter⟩ := List.forall_mem_cons.1 h
    have hself := lowerAt_eq_self_iff hc before after
    rw [lowerAt_of_not_isUpper hc] at hself
    rw [List.forall_mem_cons, ← ih hafter (c :: before), ← hself, lowercaseFrom,
      lowerAt_of_not_isUpper hc, List.singleton_append, List.cons_eq_cons, List.singleton_inj]

/-- A text goes to its lowercase form just if it has an Uppercase character or no titlecase
letter. -/
theorem lowerIfUpper_eq_lowercase_iff (s : String) :
    lowerIfUpper s = String.ofList (lowercase s.toList) ↔
      (∃ c ∈ s.toList, isUpper c) ∨ ∀ c ∈ s.toList, isTitlecase c = false := by
  unfold lowerIfUpper
  split
  · rename_i hupper
    exact iff_of_true rfl (.inl (List.any_eq_true.1 hupper))
  · rename_i hupper
    have hnone : ∀ c ∈ s.toList, isUpper c = false := by
      simpa using hupper
    rw [or_iff_right (by simpa using hupper), ← lowercaseFrom_eq_self_iff hnone []]
    constructor
    · intro h
      simpa [lowercase] using (congrArg String.toList h).symm
    · intro h
      rw [lowercase, h, String.ofList_toList]

/-- The letter U+01C5 stays as it is alone, but beside an Uppercase letter it goes to U+01C6. -/
theorem lowerIfUpper_titlecase :
    lowerIfUpper "\u01C5" ≠ String.ofList (lowercase "\u01C5".toList) ∧
      String.ofList (lowercase "\u01C5".toList) = "\u01C6" ∧
      lowerIfUpper "A \u01C5" = "a \u01C6" := by
  decide +kernel

end QueryRules.Text
