import Mathlib.Data.List.Forall2
import QueryRules.Proofs.Except
import QueryRules.Proofs.RuleText.Tokens
import QueryRules.Proofs.Text.Lines
import QueryRules.Proofs.Text.Words
import QueryRules.RuleText.Literal

/-!
# Literals written in plain words

`IsPlainWord w`: the word `w` stands for itself in a literal and in a condition.

- `readLiteral_of_marks`: when a text is read as one literal of some words.
- `readLiteral_unwords`: plain words with spaces between them and an optional star are read as one
  literal of these words in every field.
- `IsUncut`, `cutTerms_unwords`: when joined texts are the terms of a phrase.
- `readLiterals_unwords`: as the terms of a phrase they are read as a literal for each word, the
  last one with the star.
-/

namespace QueryRules.RuleText

open QueryRules.Text

/-- A word that stands for itself: it is no operator, and none of its characters separates words or
marks a part of a literal. -/
structure IsPlainWord (w : List Char) : Prop where
  ne_nil : w ≠ []
  isWordChar : ∀ c ∈ w, isWordChar c
  unmarked : ∀ c ∈ w, c ∉ ['*', ':', '\\', '{']
  not_operator : isOperator w = false

theorem isPlainWord_iff {w : List Char} : IsPlainWord w ↔
    w ≠ [] ∧ w.all isWordChar ∧ (w.all fun c => c ∉ ['*', ':', '\\', '{']) ∧
      isOperator w = false := by
  simp only [List.all_eq_true, decide_eq_true_iff]
  exact ⟨fun ⟨h₁, h₂, h₃, h₄⟩ => ⟨h₁, h₂, h₃, h₄⟩, fun ⟨h₁, h₂, h₃, h₄⟩ => ⟨h₁, h₂, h₃, h₄⟩⟩

instance (w : List Char) : Decidable (IsPlainWord w) := decidable_of_iff _ isPlainWord_iff.symm

/-- What ends the text of a literal. -/
def starOf (isPrefix : Bool) : List Char := if isPrefix then ['*'] else []

theorem forall_mem_starOf {P : Char → Prop} (h : P '*') (isPrefix : Bool) :
    ∀ c ∈ starOf isPrefix, P c := by
  cases isPrefix with
  | false => simp [starOf]
  | true => simpa [starOf] using h

theorem IsPlainWord.isBlank_eq_false {w : List Char} (h : IsPlainWord w) :
    ∀ c ∈ w, isBlank c = false := fun c hc => (isWordChar_iff.1 (h.isWordChar c hc)).1

/-- A plain word with a star is still a word of word characters and no operator. -/
theorem IsPlainWord.append_starOf {w : List Char} (h : IsPlainWord w) (isPrefix : Bool) :
    w ++ starOf isPrefix ≠ [] ∧ (∀ c ∈ w ++ starOf isPrefix, RuleText.isWordChar c) ∧
      isOperator (w ++ starOf isPrefix) = false := by
  cases isPrefix with
  | false => simpa [starOf] using ⟨h.ne_nil, h.isWordChar, h.not_operator⟩
  | true =>
    refine ⟨by simp [starOf], ?_, ?_⟩
    · rw [List.forall_mem_append]
      exact ⟨h.isWordChar, forall_mem_starOf (by decide) true⟩
    · rw [Bool.eq_false_iff]
      intro hop
      have hmem : '*' ∈ w ++ starOf true := by simp [starOf]
      simp only [isOperator, Bool.or_eq_true, beq_iff_eq] at hop
      rcases hop with (hop | hop) | hop <;> exact absurd (hop ▸ hmem) (by decide)

/-! ## Literals -/

theorem cutFields_of_unmarked {cs : List Char} (h : ∀ c ∈ cs, c ≠ '{' ∧ c ≠ ':') :
    cutFields cs = .ok (∅, cs) := by
  have hcolon : cutAtColon? cs = none := cutAtColon?_eq_none fun hc => (h _ hc).2 rfl
  unfold cutFields
  split
  · exact absurd rfl (h '{' List.mem_cons_self).1
  · rw [hcolon]

theorem marks_cons {c : Char} (hstar : c ≠ '*') (hbackslash : c ≠ '\\') (cs : List Char) :
    marks (c :: cs) = .char c :: marks cs := by
  rw [marks] <;> simp [hstar, hbackslash]

theorem marks_append_starOf {cs : List Char} (h : ∀ c ∈ cs, c ≠ '*' ∧ c ≠ '\\') (isPrefix : Bool) :
    marks (cs ++ starOf isPrefix) = cs.map .char ++ if isPrefix then [.star] else [] := by
  induction cs with
  | nil => cases isPrefix <;> rfl
  | cons c cs ih =>
    obtain ⟨⟨hstar, hbackslash⟩, hcs⟩ := List.forall_mem_cons.1 h
    rw [List.cons_append, marks_cons hstar hbackslash, ih hcs]
    rfl

/-- A trimmed text is read as one literal if, behind its fields, it is marked with the characters of
some words and a star for a prefix. -/
theorem readLiteral_of_marks (config : Config) {raw written : List Char} {fields : FieldSet}
    {ws : List (List Char)} {isPrefix : Bool} (htrim : trim raw = raw)
    (hfields : cutFields raw = .ok (fields, written))
    (hmarks : marks written = (unwords ws).map .char ++ if isPrefix then [.star] else [])
    (hwords : words (unwords ws) = ws) (hne : unwords ws ≠ []) :
    readLiteral config raw =
      .ok { value := config.normalize (String.ofList (unwords ws)), fields, isPrefix } := by
  have hchars : (marks written).filterMap Mark.char? = unwords ws := by
    rw [hmarks]
    cases isPrefix <;> simp [List.filterMap_map, Function.comp_def, Mark.char?]
  have hstar : Mark.star ∉ (unwords ws).map Mark.char := by simp
  have hcount : (marks written).count .star = if isPrefix then 1 else 0 := by
    rw [hmarks, List.count_append, List.count_eq_zero.2 hstar]
    cases isPrefix <;> rfl
  have hlast : isPrefix → (marks written).getLast? = some .star := by
    rintro rfl
    simp [hmarks]
  simp only [readLiteral, htrim, hfields, bind, Except.bind, hchars, hwords, hcount, hne]
  cases isPrefix with
  | false => simp
  | true => simp [hlast]

theorem trim_of_no_blank {w : List Char} (h : ∀ c ∈ w, isBlank c = false) : trim w = w :=
  trim_eq_self_iff.2 ⟨fun c hc => h c (List.mem_of_mem_head? hc),
    fun c hc => h c (List.mem_reverse.1 (List.mem_of_mem_head? hc))⟩

/-- A text that begins and ends with trimmed texts is trimmed. -/
theorem trim_unwords {ws : List (List Char)} (hne : ws ≠ [])
    (h : ∀ w ∈ ws, w ≠ [] ∧ trim w = w) : trim (unwords ws) = unwords ws := by
  rw [trim_eq_self_iff]
  constructor
  · obtain ⟨w, ws, rfl⟩ := List.exists_cons_of_ne_nil hne
    obtain ⟨⟨hw, htrim⟩, -⟩ := List.forall_mem_cons.1 h
    rcases eq_or_ne ws [] with rfl | hs
    · rw [unwords_singleton]
      exact (trim_eq_self_iff.1 htrim).1
    · rw [unwords_cons w hs, stopsAt_append hw]
      exact (trim_eq_self_iff.1 htrim).1
  · obtain ⟨ws, w, rfl⟩ := (List.eq_nil_or_concat' ws).resolve_left hne
    obtain ⟨hw, htrim⟩ := h w (by simp)
    rw [← List.nil_append w, ← unwords_concat_append, List.reverse_append,
      stopsAt_append (by simpa using hw)]
    exact (trim_eq_self_iff.1 htrim).2

section

variable {ws : List (List Char)} (hws : ∀ w ∈ ws, IsPlainWord w)
include hws

theorem words_unwords_plain : words (unwords ws) = ws :=
  words_unwords fun w hw => ⟨(hws w hw).ne_nil, (hws w hw).isBlank_eq_false⟩

theorem unwords_plain_ne_nil (hne : ws ≠ []) : unwords ws ≠ [] := by
  intro he
  have hwords := words_unwords_plain hws
  rw [he] at hwords
  exact hne hwords.symm

/-- The star can as well be taken for the end of the last word. -/
theorem exists_unwords_starOf (hne : ws ≠ []) (isPrefix : Bool) : ∃ us, us ≠ [] ∧
    (∀ w ∈ us, w ≠ [] ∧ (∀ c ∈ w, isWordChar c) ∧ isOperator w = false) ∧
      unwords us = unwords ws ++ starOf isPrefix := by
  obtain ⟨ws, w, rfl⟩ := (List.eq_nil_or_concat' ws).resolve_left hne
  obtain ⟨hws, hw⟩ := List.forall_mem_append.1 hws
  refine ⟨ws ++ [w ++ starOf isPrefix], by simp, ?_, (unwords_concat_append ws w _).symm⟩
  rw [List.forall_mem_append, List.forall_mem_singleton]
  exact ⟨fun v hv => ⟨(hws v hv).ne_nil, (hws v hv).isWordChar, (hws v hv).not_operator⟩,
    (hw w (by simp)).append_starOf isPrefix⟩

theorem trim_unwords_starOf (hne : ws ≠ []) (isPrefix : Bool) :
    trim (unwords ws ++ starOf isPrefix) = unwords ws ++ starOf isPrefix := by
  obtain ⟨us, hus, h, he⟩ := exists_unwords_starOf hws hne isPrefix
  rw [← he]
  exact trim_unwords hus fun w hw =>
    ⟨(h w hw).1, trim_of_no_blank fun c hc => (isWordChar_iff.1 ((h w hw).2.1 c hc)).1⟩

/-- Plain words and a star are read as one literal. -/
theorem readLiteral_unwords (config : Config) (hne : ws ≠ []) (isPrefix : Bool) :
    readLiteral config (unwords ws ++ starOf isPrefix) =
      .ok { value := config.normalize (String.ofList (unwords ws)), isPrefix } := by
  have hunmarked : ∀ c ∈ unwords ws, c ∉ ['*', ':', '\\', '{'] :=
    forall_mem_unwords (by decide) fun w hw => (hws w hw).unmarked
  have hfields : cutFields (unwords ws ++ starOf isPrefix) =
      .ok (∅, unwords ws ++ starOf isPrefix) := by
    refine cutFields_of_unmarked ?_
    rw [List.forall_mem_append]
    refine ⟨fun c hc => ?_, forall_mem_starOf (by decide) isPrefix⟩
    have := hunmarked c hc
    simp_all
  have hmarks := marks_append_starOf
    (fun c (hc : c ∈ unwords ws) => by have := hunmarked c hc; simp_all) isPrefix
  exact readLiteral_of_marks config (trim_unwords_starOf hws hne isPrefix) hfields hmarks
    (words_unwords_plain hws) (unwords_plain_ne_nil hws hne)

end

/-! ## Phrases -/

/-- Outside braces a blank ends a term, and any other character that is no backslash or opening
brace goes on with it. -/
theorem cutTermsAt_cons {c : Char} (hbackslash : c ≠ '\\') (hbrace : c ≠ '{') (cs : List Char) :
    cutTermsAt 0 (c :: cs) =
      if isBlank c then [] :: cutTermsAt 0 cs else (cutTermsAt 0 cs).modifyHead (c :: ·) := by
  have hclose : isBlank '}' = false := by decide
  rw [cutTermsAt.eq_def]
  split <;> simp_all

/-- A text that is cut nowhere, whatever follows it. -/
def IsUncut (t : List Char) : Prop :=
  ∀ cs, cutTermsAt 0 (t ++ cs) = (cutTermsAt 0 cs).modifyHead (t ++ ·)

theorem isUncut_nil : IsUncut [] := fun _ => (congrFun List.modifyHead_id _).symm

theorem IsUncut.append {t u : List Char} (ht : IsUncut t) (hu : IsUncut u) : IsUncut (t ++ u) := by
  intro cs
  rw [List.append_assoc, ht, hu, List.modifyHead_modifyHead]
  congr 1
  exact funext fun v => (List.append_assoc t u v).symm

/-- Outside braces a character that is no blank, no backslash and no opening brace cuts nothing. -/
theorem isUncut_singleton {c : Char} (hblank : isBlank c = false) (hbackslash : c ≠ '\\')
    (hbrace : c ≠ '{') : IsUncut [c] := by
  intro cs
  rw [List.singleton_append, cutTermsAt_cons hbackslash hbrace, hblank, if_neg Bool.false_ne_true]
  rfl

theorem isUncut_of_unmarked {w : List Char}
    (h : ∀ c ∈ w, isBlank c = false ∧ c ≠ '\\' ∧ c ≠ '{') : IsUncut w := by
  induction w with
  | nil => exact isUncut_nil
  | cons c w ih =>
    obtain ⟨⟨hblank, hbackslash, hbrace⟩, hw⟩ := List.forall_mem_cons.1 h
    exact (isUncut_singleton hblank hbackslash hbrace).append (ih hw)

/-- Texts that are cut nowhere are the terms of the text that they are joined to. -/
theorem cutTerms_unwords {ts : List (List Char)} (h : ∀ t ∈ ts, t ≠ [] ∧ IsUncut t) :
    cutTerms (unwords ts) = ts := by
  induction ts with
  | nil => rfl
  | cons t ts ih =>
    obtain ⟨⟨hne, ht⟩, hts⟩ := List.forall_mem_cons.1 h
    have hempty : t.isEmpty = false := List.isEmpty_eq_false_iff.2 hne
    rcases eq_or_ne ts [] with rfl | hs
    · have hcut := ht []
      rw [List.append_nil] at hcut
      rw [unwords_singleton, cutTerms, hcut]
      simp [cutTermsAt.eq_def, hempty]
    · rw [unwords_cons t hs, cutTerms, ht, cutTermsAt_cons (by decide) (by decide),
        if_pos (by decide), List.modifyHead_cons, List.append_nil,
        List.filter_cons_of_pos (by simp [hempty])]
      exact congrArg (t :: ·) (ih hts)

/-- The terms of a phrase of plain words are the literals of the words. -/
theorem readLiterals_unwords (config : Config) {ws : List (List Char)} {w : List Char}
    (hws : ∀ v ∈ ws, IsPlainWord v) (hw : IsPlainWord w) (isPrefix : Bool) :
    readLiterals config (unwords (ws ++ [w]) ++ starOf isPrefix) =
      .ok (ws.map (fun v => { value := config.normalize (String.ofList v) }) ++
        [{ value := config.normalize (String.ofList w), isPrefix }]) := by
  have hread {v : List Char} (hv : IsPlainWord v) (isPrefix : Bool) :
      readLiteral config (v ++ starOf isPrefix) =
        .ok { value := config.normalize (String.ofList v), isPrefix } := by
    have h := readLiteral_unwords (List.forall_mem_singleton.2 hv) config (by simp) isPrefix
    rwa [unwords_singleton] at h
  have huncut {v : List Char} (hv : IsPlainWord v) (isPrefix : Bool) :
      v ++ starOf isPrefix ≠ [] ∧ IsUncut (v ++ starOf isPrefix) := by
    refine ⟨(hv.append_starOf isPrefix).1, isUncut_of_unmarked ?_⟩
    rw [List.forall_mem_append]
    refine ⟨fun c hc => ⟨hv.isBlank_eq_false c hc, ?_⟩, forall_mem_starOf (by decide) isPrefix⟩
    have := hv.unmarked c hc
    simp_all
  have hterms : ∀ v ∈ ws ++ [w ++ starOf isPrefix], v ≠ [] ∧ IsUncut v := by
    rw [List.forall_mem_append, List.forall_mem_singleton]
    exact ⟨fun v hv => by simpa [starOf] using huncut (hws v hv) false, huncut hw isPrefix⟩
  rw [readLiterals, unwords_concat_append, cutTerms_unwords hterms, mapM_eq_ok_iff]
  refine List.rel_append ?_ (.cons (hread hw isPrefix) .nil)
  rw [List.forall₂_map_right_iff, List.forall₂_same]
  intro v hv
  simpa [starOf] using hread (hws v hv) false

end QueryRules.RuleText
