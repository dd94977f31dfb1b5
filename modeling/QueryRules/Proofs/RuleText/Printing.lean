import QueryRules.Proofs.RuleText.Grammar
import QueryRules.Proofs.RuleText.Plain

/-!
# Conditions that are printed and read back

- `Spells cs ts`: the text `cs` falls into the tokens `ts` wherever no word goes on right behind it.
  Spelled texts can be put together.
- `exists_spells_text`: a printed condition spells a primary of the grammar, by induction on the
  condition; parentheses stand around every operator, so that no level is taken for another.
- `readTrigger_enclosed`: a text in parentheses that derives a formula is read as a condition.
- `readTrigger_text`: a condition of plain literals is read back from its text.
-/

namespace QueryRules

open QueryRules.Text

/-- Every conjunction and every disjunction in the formula has at least two operands. -/
inductive Formula.Branches {α : Type} : Formula α → Prop
  | literal (a : α) : Branches (.literal a)
  | all {fs : List (Formula α)} (hlen : 2 ≤ fs.length) (h : ∀ f ∈ fs, Branches f) :
      Branches (.all fs)
  | any {fs : List (Formula α)} (hlen : 2 ≤ fs.length) (h : ∀ f ∈ fs, Branches f) :
      Branches (.any fs)
  | not {f : Formula α} (h : Branches f) : Branches (.not f)

namespace RuleText

/-- A literal of plain words in every field that is normalized. -/
structure IsPlainLiteral (config : Config) (l : Literal) : Prop where
  fields_eq : l.fields = ∅
  normalize_eq : config.normalize l.value = l.value
  words : ∃ ws : List (List Char), ws ≠ [] ∧ (∀ w ∈ ws, IsPlainWord w) ∧ l.value.toList = unwords ws

theorem toList_valueText (l : Literal) :
    l.valueText.toList = l.value.toList ++ starOf l.isPrefix := by
  obtain ⟨value, fields, isPrefix⟩ := l
  rw [Literal.valueText, String.toList_append]
  cases isPrefix <;> simp [Literal.star, starOf]

theorem IsPlainLiteral.readLiteral {config : Config} {l : Literal} (h : IsPlainLiteral config l) :
    readLiteral config l.valueText.toList = .ok l := by
  obtain ⟨ws, hne, hws, hvalue⟩ := h.words
  rw [toList_valueText, hvalue, readLiteral_unwords hws config hne, ← hvalue, String.ofList_toList,
    h.normalize_eq, ← h.fields_eq]

/-! ## Spelling -/

/-- The text falls into the tokens wherever no word goes on right behind it, and its blanks are
layout. -/
structure Spells (cs : List Char) (ts : List Token) : Prop where
  layout : ∀ c ∈ cs, isBlank c → isLayout c
  append : ∀ {rest us}, StopsAt isWordChar rest → FallsInto rest us →
    FallsInto (cs ++ rest) (ts ++ us)

section

variable {cs ds : List Char} {ts us : List Token}

theorem Spells.fallsInto (h : Spells cs ts) : FallsInto cs ts := by
  simpa using h.append (stopsAt_nil _) .nil

theorem spells_word {w : List Char} (hne : w ≠ []) (hw : ∀ c ∈ w, isWordChar c) :
    Spells w [.word w] where
  layout c hc hb := by
    rw [(isWordChar_iff.1 (hw c hc)).1] at hb
    exact nomatch hb
  append hstop hrest := .word hne hw hstop hrest

theorem Spells.append_space (h : Spells cs ts) (h' : Spells ds us) :
    Spells (cs ++ ' ' :: ds) (ts ++ us) where
  layout := by
    rw [List.forall_mem_append, List.forall_mem_cons]
    exact ⟨h.layout, by decide, h'.layout⟩
  append hstop hrest := by
    rw [List.append_assoc, List.append_assoc]
    exact h.append (stopsAt_cons.2 (by decide)) (.blank (by decide) (h'.append hstop hrest))

theorem Spells.enclosed (h : Spells cs ts) :
    Spells ('(' :: (cs ++ [')'])) (.opening :: (ts ++ [.closing])) where
  layout := by
    rw [List.forall_mem_cons, List.forall_mem_append, List.forall_mem_singleton]
    exact ⟨by decide, h.layout, by decide⟩
  append hstop hrest := by
    rw [List.cons_append, List.cons_append, List.append_assoc, List.append_assoc]
    exact .opening (h.append (stopsAt_cons.2 (by decide)) (.closing hrest))

end

theorem spells_unwords {ws : List (List Char)} (hne : ws ≠ [])
    (h : ∀ w ∈ ws, w ≠ [] ∧ ∀ c ∈ w, isWordChar c) : Spells (unwords ws) (ws.map .word) := by
  induction ws with
  | nil => exact absurd rfl hne
  | cons w ws ih =>
    obtain ⟨⟨hw, hchars⟩, hws⟩ := List.forall_mem_cons.1 h
    rcases eq_or_ne ws [] with rfl | hs
    · rw [unwords_singleton]
      exact spells_word hw hchars
    · rw [unwords_cons w hs]
      exact (spells_word hw hchars).append_space (ih hs hws)

open Grammar

/-- Plain words with a star spell a literal. -/
theorem exists_spells_literal {ws : List (List Char)} (hne : ws ≠ [])
    (hws : ∀ w ∈ ws, IsPlainWord w) (isPrefix : Bool) : ∃ ts,
    Spells (unwords ws ++ starOf isPrefix) ts ∧
      Primary ts (.literal (unwords ws ++ starOf isPrefix)) := by
  obtain ⟨us, hus, h, he⟩ := exists_unwords_starOf hws hne isPrefix
  rw [← he]
  exact ⟨_, spells_unwords hus fun w hw => ⟨(h w hw).1, (h w hw).2.1⟩,
    .words hus fun w hw => (h w hw).2.2⟩

/-- If the operands spell primaries, they spell a level of the grammar with its operator between
them. -/
theorem exists_spells_joined {α : Type} (op : List Char)
    (Level : List Token → List (Formula (List Char)) → Prop) (hne : op ≠ [])
    (hop : ∀ c ∈ op, isWordChar c)
    (one : ∀ {ts f}, Primary ts f → Level ts [f])
    (more : ∀ {ts us f gs}, Primary ts f → Level us gs → Level (ts ++ .word op :: us) (f :: gs))
    {text : α → List Char} {tree : α → Formula (List Char)} {as : List α} (has : as ≠ [])
    (h : ∀ a ∈ as, ∃ ts, Spells (text a) ts ∧ Primary ts (tree a)) : ∃ ts,
    Spells ((' ' :: (op ++ [' '])).intercalate (as.map text)) ts ∧ Level ts (as.map tree) := by
  induction as with
  | nil => exact absurd rfl has
  | cons a as ih =>
    obtain ⟨⟨ts, hts, hprimary⟩, h⟩ := List.forall_mem_cons.1 h
    rcases eq_or_ne as [] with rfl | hs
    · rw [List.map_singleton, List.map_singleton, List.intercalate_singleton]
      exact ⟨ts, hts, one hprimary⟩
    · obtain ⟨us, hus, hlevel⟩ := ih hs h
      rw [List.map_cons, List.map_cons, List.intercalate_cons_of_ne_nil (by simpa using hs)]
      refine ⟨_, ?_, more hprimary hlevel⟩
      simpa using hts.append_space ((spells_word hne hop).append_space hus)

/-! ## Printed conditions -/

theorem toList_text_literal (l : Literal) :
    (Condition.text (.literal l)).toList = l.value.toList ++ starOf l.isPrefix := by
  rw [Condition.text, Formula.text, toList_valueText]

theorem toList_text_all (fs : List Condition) : (Condition.text (.all fs)).toList =
    '(' :: ((' ' :: (andWord ++ [' '])).intercalate (fs.map fun f => f.text.toList) ++ [')']) := by
  rw [Condition.text, Formula.text, Formula.texts_eq]
  simp [String.toList_intercalate, andWord, Function.comp_def, Condition.text]

theorem toList_text_any (fs : List Condition) : (Condition.text (.any fs)).toList =
    '(' :: ((' ' :: (orWord ++ [' '])).intercalate (fs.map fun f => f.text.toList) ++ [')']) := by
  rw [Condition.text, Formula.text, Formula.texts_eq]
  simp [String.toList_intercalate, orWord, Function.comp_def, Condition.text]

theorem toList_text_not (c : Condition) : (Condition.text (.not c)).toList =
    '(' :: (notWord ++ ' ' :: c.text.toList ++ [')']) := by
  rw [Condition.text, Formula.text]
  simp [notWord, Condition.text]

theorem conjunction_of_two_le {α : Type} {fs : List (Formula α)} (h : 2 ≤ fs.length) :
    conjunction fs = .all fs := by
  match fs, h with
  | f :: f' :: fs, _ => rfl

theorem disjunction_of_two_le {α : Type} {fs : List (Formula α)} (h : 2 ≤ fs.length) :
    disjunction fs = .any fs := by
  match fs, h with
  | f :: f' :: fs, _ => rfl

/-- A printed condition spells a primary. -/
theorem exists_spells_text {config : Config} {c : Condition} (hbranches : c.Branches)
    (hplain : ∀ l ∈ c.literals, IsPlainLiteral config l) : ∃ ts,
    Spells c.text.toList ts ∧ Primary ts (c.map fun l => l.valueText.toList) := by
  induction hbranches with
  | literal l =>
    obtain ⟨ws, hne, hws, hvalue⟩ := (hplain l (by simp [Formula.literals])).words
    rw [Formula.map, toList_text_literal, toList_valueText, hvalue]
    exact exists_spells_literal hne hws l.isPrefix
  | @all fs hlen h ih =>
    have hne : fs ≠ [] := List.ne_nil_of_length_pos (by omega)
    obtain ⟨ts, hts, hlevel⟩ := exists_spells_joined andWord Conjuncts (by decide)
      (List.all_eq_true.1 rfl) (fun h => .one (.primary h)) (fun h h' => .more (.primary h) h') hne
      fun f hf => ih f hf fun l hl =>
        hplain l (by rw [Formula.literals]; exact Formula.mem_literalsOf.2 ⟨f, hf, hl⟩)
    rw [toList_text_all, Formula.map, Formula.mapList_eq,
      ← conjunction_of_two_le (by rwa [List.length_map])]
    exact ⟨_, hts.enclosed, .parentheses (.one hlevel)⟩
  | @any fs hlen h ih =>
    have hne : fs ≠ [] := List.ne_nil_of_length_pos (by omega)
    obtain ⟨ts, hts, hlevel⟩ := exists_spells_joined orWord Disjuncts (by decide)
      (List.all_eq_true.1 rfl)
      (fun h => .one (.one (.primary h))) (fun h h' => .more (.one (.primary h)) h') hne
      fun f hf => ih f hf fun l hl =>
        hplain l (by rw [Formula.literals]; exact Formula.mem_literalsOf.2 ⟨f, hf, hl⟩)
    rw [toList_text_any, Formula.map, Formula.mapList_eq,
      ← disjunction_of_two_le (by rwa [List.length_map])]
    exact ⟨_, hts.enclosed, .parentheses hlevel⟩
  | @not f h ih =>
    obtain ⟨ts, hts, hprimary⟩ := ih fun l hl => hplain l (by rwa [Formula.literals])
    rw [toList_text_not, Formula.map]
    have hnot : Spells notWord [.word notWord] := spells_word (by decide) (List.all_eq_true.1 rfl)
    exact ⟨_, (hnot.append_space hts).enclosed,
      .parentheses (.one (.one (.not (.primary hprimary))))⟩

/-! ## Reading printed conditions -/

theorem trim_enclosed (inner : List Char) :
    trim ('(' :: (inner ++ [')'])) = '(' :: (inner ++ [')']) := by
  rw [trim_eq_self_iff]
  exact ⟨stopsAt_cons.2 (by decide), by simp +decide⟩

/-- A text in parentheses that derives a formula is read as the condition of the literals that the
formula is over. -/
theorem readTrigger_enclosed {config : Config} (hconfig : config.conditions) {inner : List Char}
    {ts : List Token} (hspells : Spells ('(' :: (inner ++ [')'])) ts)
    {f : Formula (List Char)} (hderives : Primary ts f) {c : Condition}
    (hread : f.traverse (readLiteral config) = .ok c) (hpositive : c.hasPositive) :
    readTrigger config (String.ofList ('(' :: (inner ++ [')']))) =
      .ok (.condition c (String.ofList ('(' :: (inner ++ [')'])))) := by
  have hconditional : (tokens ('(' :: (inner ++ [')']))).any (·.token.isConditional) := rfl
  obtain ⟨raw, hraw, rfl⟩ := exists_readFormula hspells.layout hspells.fallsInto
    ⟨_, .one (.one (.primary hderives)), rfl⟩
  rw [Formula.traverse_map] at hread
  have hcondition : readCondition config ('(' :: (inner ++ [')'])) = .ok c := by
    simp only [readCondition, hraw, Except.mapError, bind, Except.bind, hread, if_pos hpositive]
  simp only [readTrigger, String.toList_ofList, trim_enclosed, reduceCtorEq, if_false, hconfig,
    hconditional, and_self, if_true, hcondition, Except.map]

/-- A condition of plain literals in which every operator has its operands is read back from its
text. -/
theorem readTrigger_text {config : Config} (hconfig : config.conditions) {c : Condition}
    (hliteral : ∀ l, c ≠ .literal l) (hpositive : c.hasPositive) (hbranches : c.Branches)
    (hplain : ∀ l ∈ c.literals, IsPlainLiteral config l) :
    readTrigger config c.text = .ok (.condition c c.text) := by
  obtain ⟨ts, hspells, hprimary⟩ := exists_spells_text hbranches hplain
  obtain ⟨inner, htext⟩ : ∃ inner, c.text.toList = '(' :: (inner ++ [')']) := by
    cases c with
    | literal l => exact absurd rfl (hliteral l)
    | all fs => exact ⟨_, toList_text_all fs⟩
    | any fs => exact ⟨_, toList_text_any fs⟩
    | not f => exact ⟨_, toList_text_not f⟩
  rw [htext] at hspells
  have htraverse : (c.map fun l => l.valueText.toList).traverse (readLiteral config) = .ok c :=
    (Formula.traverse_map _ _ _).trans
      (Formula.traverse_eq_self fun l hl => (hplain l hl).readLiteral)
  have hread := readTrigger_enclosed hconfig hspells hprimary htraverse hpositive
  rwa [← htext, String.ofList_toList] at hread

/-- `(red car AND (NOT (b* OR (NOT c))))`. -/
def nestedCondition : Condition :=
  .all [.literal { value := "red car" },
    .not (.any [.literal { value := "b", isPrefix := true }, .not (.literal { value := "c" })])]

theorem readTrigger_text_nestedCondition :
    nestedCondition.text = "(red car AND (NOT (b* OR (NOT c))))" ∧
      readTrigger {} nestedCondition.text =
        .ok (.condition nestedCondition nestedCondition.text) := by
  refine ⟨by decide +kernel, readTrigger_text rfl nofun rfl ?_ ?_⟩
  · refine .all (by decide) (List.forall_mem_cons.2 ⟨.literal _, List.forall_mem_singleton.2 ?_⟩)
    exact .not (.any (by decide) (List.forall_mem_cons.2
      ⟨.literal _, List.forall_mem_singleton.2 (.not (.literal _))⟩))
  · intro l hl
    have hmem : l ∈ [⟨"red car", ∅, false⟩, ⟨"b", ∅, true⟩, ⟨"c", ∅, false⟩] := hl
    simp only [List.mem_cons, List.not_mem_nil, or_false] at hmem
    rcases hmem with rfl | rfl | rfl
    · exact ⟨rfl, by decide +kernel, [['r', 'e', 'd'], ['c', 'a', 'r']], by decide, by decide,
        by decide⟩
    · exact ⟨rfl, by decide +kernel, [['b']], by decide, by decide, by decide⟩
    · exact ⟨rfl, by decide +kernel, [['c']], by decide, by decide, by decide⟩

end RuleText

end QueryRules
