import Mathlib.Data.List.Induction
import QueryRules.Proofs.RuleText.Plain
import QueryRules.Proofs.RuleText.Triggers

/-!
# Phrases that are written and read again

A phrase is written literal by literal: the fields in braces, the value with a backslash before each
character that means something in a literal, and a star for a prefix.

- `escape`: the written value. Each of its readers takes a backslash and the character after it
  together, so that it is cut nowhere (`isUncut_escape`), has no colon to find
  (`cutAtColon?_escape`) and is marked with the characters of the value (`marks_escape`).
- `writeFields`: the fields in braces. They are cut nowhere either (`isUncut_writeFields`) and are
  cut off the value again (`cutFields_writeFields`).
- `readLiteral_writeLiteral` puts this together for a literal, `readTrigger_writePhrase` for a
  phrase.
-/

namespace QueryRules.RuleText

open QueryRules.Text

/-- A character that means something in a written literal. -/
def isSpecial (c : Char) : Bool := c ∈ ['\\', '*', ':', '{', '}', ' ']

/-- A value with a backslash before each special character. -/
def escape (cs : List Char) : List Char :=
  cs.flatMap fun c => if isSpecial c then ['\\', c] else [c]

/-- Field names in braces with a colon behind them, or nothing if there are no names. -/
def writeFields (names : List String) : List Char :=
  if names = [] then []
  else '{' :: ([','].intercalate (names.map String.toList) ++ ['}', ':'])

/-- A literal whose fields are listed as `names`. -/
def writeLiteral (names : List String) (l : Literal) : List Char :=
  writeFields names ++ (escape l.value.toList ++ starOf l.isPrefix)

/-- The literals of a phrase with spaces between them. -/
def writePhrase (names : Literal → List String) (ls : List Literal) : List Char :=
  unwords (ls.map fun l => writeLiteral (names l) l)

/-- A field name that can stand in braces. -/
structure IsFieldName (n : List Char) : Prop where
  ne_nil : n ≠ []
  trim_eq : trim n = n
  unmarked : ∀ c ∈ n, c ∉ [',', '{', '}', '\\']

/-- A literal that can be written: its value is fixed by the normalizer and consists of words with
single spaces between them and no other blanks, and its fields are field names. -/
structure IsWritable (config : Config) (l : Literal) : Prop where
  normalize_eq : config.normalize l.value = l.value
  hasWords : ∃ ws, ws ≠ [] ∧ (∀ w ∈ ws, w ≠ [] ∧ ∀ c ∈ w, isBlank c = false) ∧
    l.value.toList = unwords ws
  fields : ∀ n ∈ l.fields, IsFieldName n.toList

/-! ## Values -/

theorem escape_cons_of_special {c : Char} (h : isSpecial c = true) (cs : List Char) :
    escape (c :: cs) = '\\' :: c :: escape cs := by
  rw [escape, List.flatMap_cons, if_pos h]
  rfl

theorem escape_cons_of_ne {c : Char} (h : isSpecial c = false) (cs : List Char) :
    escape (c :: cs) = c :: escape cs := by
  rw [escape, List.flatMap_cons, h, if_neg Bool.false_ne_true]
  rfl

theorem ne_of_isSpecial_eq_false {c : Char} (h : isSpecial c = false) :
    c ≠ '\\' ∧ c ≠ '*' ∧ c ≠ ':' ∧ c ≠ '{' ∧ c ≠ '}' ∧ c ≠ ' ' := by
  simpa [isSpecial] using h

theorem escape_ne_nil {cs : List Char} (h : cs ≠ []) : escape cs ≠ [] := by
  obtain ⟨c, cs, rfl⟩ := List.exists_cons_of_ne_nil h
  cases hc : isSpecial c with
  | true => rw [escape_cons_of_special hc]; exact List.cons_ne_nil _ _
  | false => rw [escape_cons_of_ne hc]; exact List.cons_ne_nil _ _

/-- The marks of a written value are its characters and those of what follows it. -/
theorem marks_escape (cs ds : List Char) :
    marks (escape cs ++ ds) = cs.map .char ++ marks ds := by
  induction cs with
  | nil => rfl
  | cons c cs ih =>
    cases hc : isSpecial c with
    | true =>
      rw [escape_cons_of_special hc, List.cons_append, List.cons_append, marks, ih]
      rfl
    | false =>
      obtain ⟨hbackslash, hstar, -⟩ := ne_of_isSpecial_eq_false hc
      rw [escape_cons_of_ne hc, List.cons_append, marks_cons hstar hbackslash, ih]
      rfl

/-- A written value has no colon that could end a field name. -/
theorem cutAtColon?_escape {ds : List Char} (hds : cutAtColon? ds = none) (cs : List Char) :
    cutAtColon? (escape cs ++ ds) = none := by
  induction cs with
  | nil => exact hds
  | cons c cs ih =>
    cases hc : isSpecial c with
    | true =>
      rw [escape_cons_of_special hc, List.cons_append, List.cons_append, cutAtColon?, ih]
      rfl
    | false =>
      obtain ⟨hbackslash, -, hcolon, -⟩ := ne_of_isSpecial_eq_false hc
      rw [escape_cons_of_ne hc, List.cons_append, cutAtColon?.eq_def]
      split <;> simp_all

/-- A written value is cut nowhere if its only blanks are spaces. -/
theorem isUncut_escape {cs : List Char} (h : ∀ c ∈ cs, isBlank c → c = ' ') :
    IsUncut (escape cs) := by
  induction cs with
  | nil => exact isUncut_nil
  | cons c cs ih =>
    obtain ⟨hblank, hcs⟩ := List.forall_mem_cons.1 h
    cases hc : isSpecial c with
    | true =>
      rw [escape_cons_of_special hc]
      exact IsUncut.append (t := ['\\', c]) (cutTermsAt_backslash 0 c) (ih hcs)
    | false =>
      obtain ⟨hbackslash, -, -, hbrace, -, hspace⟩ := ne_of_isSpecial_eq_false hc
      rw [escape_cons_of_ne hc]
      have hc' : isBlank c = false := Bool.eq_false_iff.2 fun hb => hspace (hblank hb)
      exact (isUncut_singleton hc' hbackslash hbrace).append (ih hcs)

/-- A written value begins with a blank only if the value does. -/
theorem stopsAt_escape {cs : List Char} (h : StopsAt isBlank cs) :
    StopsAt isBlank (escape cs) := by
  cases cs with
  | nil => exact h
  | cons c cs =>
    cases hc : isSpecial c with
    | true =>
      rw [escape_cons_of_special hc, stopsAt_cons]
      decide
    | false =>
      rw [escape_cons_of_ne hc, stopsAt_cons]
      exact stopsAt_cons.1 h

/-- It ends with the last character of the value. -/
theorem getLast?_escape (cs : List Char) : (escape cs).getLast? = cs.getLast? := by
  induction cs using List.reverseRecOn with
  | nil => rfl
  | append_singleton cs c =>
    rw [escape, List.flatMap_append, List.flatMap_singleton, List.getLast?_append,
      List.getLast?_append]
    split <;> rfl

/-! ## Fields -/

/-- Text in braces goes on with its term up to the closing brace, blanks included. -/
theorem cutTermsAt_enclosed {cs : List Char} (h : ∀ c ∈ cs, c ∉ ['{', '}', '\\'])
    (ds : List Char) : cutTermsAt 1 (cs ++ '}' :: ds) =
      (cutTermsAt 0 ds).modifyHead (cs ++ '}' :: ·) := by
  induction cs with
  | nil => rfl
  | cons c cs ih =>
    obtain ⟨hc, hcs⟩ := List.forall_mem_cons.1 h
    obtain ⟨hopen, hclose, hbackslash⟩ : c ≠ '{' ∧ c ≠ '}' ∧ c ≠ '\\' := by simpa using hc
    rw [List.cons_append, cutTermsAt_cons_of_ne hbackslash, if_neg hopen, if_neg hclose,
      if_neg (fun hdepth => absurd hdepth.2 Nat.one_ne_zero), ih hcs, List.modifyHead_modifyHead]
    rfl

section

variable {names : List String} (hnames : ∀ n ∈ names, IsFieldName n.toList)
include hnames

/-- No character of the names ends the braces or escapes what follows. -/
theorem joined_unmarked :
    ∀ c ∈ [','].intercalate (names.map String.toList), c ∉ ['{', '}', '\\'] := by
  refine forall_mem_intercalate (List.forall_mem_singleton.2 (by decide))
    (List.forall_mem_map.2 fun n hn c hc hmark => ?_)
  exact (hnames n hn).unmarked c hc (List.mem_cons_of_mem ',' hmark)

/-- Written fields are cut nowhere. -/
theorem isUncut_writeFields : IsUncut (writeFields names) := by
  unfold writeFields
  split
  · exact isUncut_nil
  · intro cs
    have hcolon := isUncut_singleton (c := ':') (by decide) (by decide) (by decide) cs
    rw [List.cons_append, List.append_assoc, List.cons_append,
      cutTermsAt_cons_of_ne (by decide), if_pos rfl, Nat.zero_add, cutTermsAt_enclosed
      (joined_unmarked hnames), hcolon, List.modifyHead_modifyHead, List.modifyHead_modifyHead]
    congr 1
    funext t
    simp

/-- Written fields are read again and cut off what follows them. -/
theorem cutFields_writeFields (hne : names ≠ []) (value : List Char) :
    cutFields (writeFields names ++ value) = .ok (.ofList names, value) := by
  have hclose : '}' ∉ [','].intercalate (names.map String.toList) :=
    fun hc => absurd (joined_unmarked hnames _ hc) (by decide)
  have hsplit : ([','].intercalate (names.map String.toList)).splitOn ',' =
      names.map String.toList := by
    refine List.splitOn_intercalate ',' (List.forall_mem_map.2 fun n hn hc => ?_) (by simpa)
    exact absurd ((hnames n hn).unmarked _ hc) (by decide)
  have htrim : (names.map String.toList).map trim = names.map String.toList :=
    (List.map_congr_left (List.forall_mem_map.2 fun n hn => (hnames n hn).trim_eq)).trans
      (List.map_id _)
  have hfilter : (names.map String.toList).filter (!·.isEmpty) = names.map String.toList :=
    List.filter_eq_self.2 (List.forall_mem_map.2 fun n hn => by simp [(hnames n hn).ne_nil])
  have hback : (names.map String.toList).map String.ofList = names := by
    simp [List.map_map, Function.comp_def]
  rw [writeFields, if_neg hne, List.cons_append, List.append_assoc, List.cons_append, cutFields,
    cutAt?_append hclose]
  simp only [List.singleton_append, hsplit, htrim, hfilter, hback]

end

/-- A written value without fields is read as one without fields. -/
theorem cutFields_escape {cs ds : List Char} (hne : cs ≠ []) (hds : cutAtColon? ds = none) :
    cutFields (escape cs ++ ds) = .ok (∅, escape cs ++ ds) := by
  unfold cutFields
  split
  · rename_i block hbrace
    obtain ⟨c, cs, rfl⟩ := List.exists_cons_of_ne_nil hne
    cases hc : isSpecial c with
    | true => simp [escape_cons_of_special hc] at hbrace
    | false =>
      rw [escape_cons_of_ne hc] at hbrace
      exact absurd (List.cons.inj hbrace).1 (ne_of_isSpecial_eq_false hc).2.2.2.1
  · rw [cutAtColon?_escape hds]

/-! ## Literals -/

section

variable {config : Config} {l : Literal} (hl : IsWritable config l)
include hl

theorem IsWritable.value_ne_nil : l.value.toList ≠ [] := by
  obtain ⟨ws, hne, hws, hvalue⟩ := hl.hasWords
  intro hnil
  have hwords := words_unwords hws
  rw [← hvalue, hnil] at hwords
  exact hne hwords.symm

theorem IsWritable.trim_value : trim l.value.toList = l.value.toList := by
  obtain ⟨ws, hne, hws, hvalue⟩ := hl.hasWords
  rw [hvalue]
  exact trim_unwords hne fun w hw => ⟨(hws w hw).1, trim_of_no_blank (hws w hw).2⟩

theorem IsWritable.eq_space_of_isBlank : ∀ c ∈ l.value.toList, isBlank c → c = ' ' := by
  obtain ⟨ws, -, hws, hvalue⟩ := hl.hasWords
  rw [hvalue]
  refine forall_mem_unwords (fun _ => rfl) fun w hw c hc hblank => ?_
  rw [(hws w hw).2 c hc] at hblank
  exact nomatch hblank

/-- A written value with its star neither begins nor ends with a blank. -/
theorem IsWritable.stopsAt_written :
    StopsAt isBlank (escape l.value.toList ++ starOf l.isPrefix) ∧
      StopsAt isBlank (escape l.value.toList ++ starOf l.isPrefix).reverse := by
  obtain ⟨hfront, hback⟩ := trim_eq_self_iff.1 hl.trim_value
  refine ⟨(stopsAt_append (escape_ne_nil hl.value_ne_nil)).2 (stopsAt_escape hfront), ?_⟩
  cases l.isPrefix with
  | true =>
    rw [starOf, if_pos rfl, List.reverse_concat, stopsAt_cons]
    decide
  | false =>
    rw [starOf, if_neg Bool.false_ne_true, List.append_nil]
    intro c hc
    rw [List.head?_reverse, getLast?_escape, ← List.head?_reverse] at hc
    exact hback c hc

variable {names : List String}

theorem writeLiteral_ne_nil : writeLiteral names l ≠ [] :=
  List.append_ne_nil_of_right_ne_nil _
    (List.append_ne_nil_of_left_ne_nil (escape_ne_nil hl.value_ne_nil) _)

theorem trim_writeLiteral : trim (writeLiteral names l) = writeLiteral names l := by
  obtain ⟨hfront, hback⟩ := hl.stopsAt_written
  unfold writeLiteral writeFields
  split
  · exact trim_eq_self_iff.2 ⟨hfront, hback⟩
  · refine trim_append (List.cons_ne_nil _ _) ?_ (stopsAt_cons.2 (by decide)) hback
    exact List.append_ne_nil_of_left_ne_nil (escape_ne_nil hl.value_ne_nil) _

variable (hnames : ∀ n, n ∈ names ↔ n ∈ l.fields)
include hnames

theorem isUncut_writeLiteral : IsUncut (writeLiteral names l) := by
  have hfields := isUncut_writeFields fun n hn => hl.fields n ((hnames n).1 hn)
  have hvalue := isUncut_escape hl.eq_space_of_isBlank
  have hstar : IsUncut (starOf l.isPrefix) :=
    isUncut_of_unmarked (forall_mem_starOf (by decide) l.isPrefix)
  exact hfields.append (hvalue.append hstar)

theorem cutFields_writeLiteral : cutFields (writeLiteral names l) =
    .ok (l.fields, escape l.value.toList ++ starOf l.isPrefix) := by
  have hset : FieldSet.ofList names = l.fields :=
    FieldSet.ext fun n => FieldSet.mem_ofList.trans (hnames n)
  rcases eq_or_ne names [] with rfl | hne
  · have hstar : cutAtColon? (starOf l.isPrefix) = none :=
      cutAtColon?_eq_none fun hc => forall_mem_starOf (P := (· ≠ ':')) (by decide) _ _ hc rfl
    rw [← hset]
    exact cutFields_escape hl.value_ne_nil hstar
  · rw [← hset]
    exact cutFields_writeFields (fun n hn => hl.fields n ((hnames n).1 hn)) hne _

/-- A written literal is read again. -/
theorem readLiteral_writeLiteral : readLiteral config (writeLiteral names l) = .ok l := by
  obtain ⟨ws, hne, hws, hvalue⟩ := hl.hasWords
  have hmarks : marks (escape l.value.toList ++ starOf l.isPrefix) =
      (unwords ws).map .char ++ if l.isPrefix then [.star] else [] := by
    rw [marks_escape, hvalue]
    cases l.isPrefix <;> rfl
  have hread := readLiteral_of_marks config (trim_writeLiteral hl)
    (cutFields_writeLiteral hl hnames) hmarks (words_unwords hws)
    (hvalue ▸ hl.value_ne_nil)
  rw [← hvalue, String.ofList_toList, hl.normalize_eq] at hread
  exact hread

end

/-! ## Phrases -/

/-- A phrase of literals that can be written, of which only the last may be a prefix, is read again
as it was written, whatever order the fields are listed in. -/
theorem readTrigger_writePhrase {config : Config} (hconditions : config.conditions = false)
    {ls : List Literal} (hne : ls ≠ []) (hls : ∀ l ∈ ls, IsWritable config l)
    (hstars : ∀ l ∈ ls.dropLast, l.isPrefix = false) {names : Literal → List String}
    (hnames : ∀ l ∈ ls, ∀ n, n ∈ names l ↔ n ∈ l.fields) :
    readTrigger config (String.ofList (writePhrase names ls)) = .ok (.phrase ls) := by
  have hmap : (ls.map fun l => writeLiteral (names l) l) ≠ [] := by simpa
  have hterms : cutTerms (writePhrase names ls) = ls.map fun l => writeLiteral (names l) l :=
    cutTerms_unwords (List.forall_mem_map.2 fun l hl =>
      ⟨writeLiteral_ne_nil (hls l hl), isUncut_writeLiteral (hls l hl) (hnames l hl)⟩)
  have htrim : trim (writePhrase names ls) = writePhrase names ls :=
    trim_unwords hmap (List.forall_mem_map.2 fun l hl =>
      ⟨writeLiteral_ne_nil (hls l hl), trim_writeLiteral (hls l hl)⟩)
  have hnil : writePhrase names ls ≠ [] := by
    intro hnil
    rw [hnil] at hterms
    exact hmap hterms.symm
  have hread : readLiterals config (writePhrase names ls) = .ok ls := by
    rw [readLiterals, hterms, mapM_eq_ok_iff, List.forall₂_map_left_iff, List.forall₂_same]
    exact fun l hl => readLiteral_writeLiteral (hls l hl) (hnames l hl)
  have hlast : ls.dropLast.any Literal.isPrefix = false := by simpa using hstars
  have hphrase : readPhrase config (writePhrase names ls) = .ok ls := by
    rw [readPhrase, hread]
    change (if ls.dropLast.any Literal.isPrefix then _ else _) = _
    rw [hlast]
    rfl
  rw [readTrigger, String.toList_ofList]
  simp only [htrim, hnil, hconditions, hphrase]
  rfl

/-- A value with special characters in fields with a blank and a colon, and a prefix. -/
theorem readTrigger_writePhrase_special :
    let config : Config := { conditions := false }
    let names (l : Literal) := l.fields.toList.reverse
    let ls : List Literal := [
      { value := "a*b: c\\\x7b", fields := .ofList ["brand name", "x:y"] },
      { value := "\x7dd", isPrefix := true }]
    writePhrase names ls =
        "\x7bx:y,brand name\x7d:a\\*b\\:\\ c\\\\\\\x7b \\\x7dd*".toList ∧
      readTrigger config (String.ofList (writePhrase names ls)) = .ok (.phrase ls) := by
  intro config names ls
  have hfirst : IsWritable config ls[0] := by
    refine ⟨by decide +kernel, ⟨["a*b:".toList, "c\\\x7b".toList], by simp, by simp [isBlank],
      by decide +kernel⟩, ?_⟩
    intro n hn
    rcases List.mem_pair.1 (FieldSet.mem_ofList.1 hn) with rfl | rfl
    · exact ⟨by decide, by decide +kernel, by simp⟩
    · exact ⟨by decide, by decide +kernel, by simp⟩
  have hsecond : IsWritable config ls[1] :=
    ⟨by decide +kernel, ⟨["\x7dd".toList], by simp, by simp [isBlank], by decide +kernel⟩, nofun⟩
  refine ⟨by decide +kernel, readTrigger_writePhrase rfl (by simp [ls]) ?_ (by decide) ?_⟩
  · exact List.forall_mem_cons.2 ⟨hfirst, List.forall_mem_singleton.2 hsecond⟩
  · intro l _ n
    exact List.mem_reverse

end QueryRules.RuleText
