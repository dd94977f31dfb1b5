import QueryRules.Proofs.Except
import QueryRules.Proofs.Query.Edits
import QueryRules.Proofs.Query.Enriched
import QueryRules.Proofs.Text.Lines
import QueryRules.Proofs.Text.Words
import QueryRules.Query.Reader

/-!
# Queries read from words and written again

- `Query.AsksForTerm`: the words that a query can be made of. They are those that `Query.readWord`
  reads (`Query.exists_readWord_iff`), and what it reads is written as the word again
  (`Query.toList_text_of_readWord`).
- `Query.text_ofTerms`: the text of a query of single terms is made of the texts of the terms. By
  induction from the last term, since each term is grafted on the root as one more clause.
- `Query.ofWords_exact`: when a text is a query, and that the query is written as the words of the
  text and read back as it was.
-/

namespace QueryRules

open QueryRules.Text

namespace Query

/-! ## Single words -/

/-- A word without one plus or minus at its start. -/
def unsigned (word : List Char) : List Char :=
  if word.head? = some '+' ∨ word.head? = some '-' then word.tail else word

/-- The word asks for a term: without its sign it is not empty, and it is not just the name of a
field and the colon that ends the name. -/
def AsksForTerm (word : List Char) : Prop :=
  unsigned word ≠ [] ∧ ∀ field, field ≠ [] → ':' ∉ field → unsigned word ≠ field ++ [':']

theorem splitMark_spec (word : List Char) :
    (splitMark word).2 = unsigned word ∧ (splitMark word).1.mark.toList ++ unsigned word = word := by
  unfold splitMark
  split
  · simp [unsigned, Occur.mark]
  · simp [unsigned, Occur.mark]
  · rename_i hplus hminus
    have hword : unsigned word = word := by
      refine if_neg ?_
      rintro (h | h)
      · obtain ⟨cs, rfl⟩ := List.head?_eq_some_iff.1 h
        exact hplus cs rfl
      · obtain ⟨cs, rfl⟩ := List.head?_eq_some_iff.1 h
        exact hminus cs rfl
    simp [hword, Occur.mark]

theorem cutAt?_eq_some_nil_iff {c : Char} {cs front : List Char} :
    cutAt? c cs = some (front, []) ↔ c ∉ front ∧ cs = front ++ [c] := by
  constructor
  · intro h
    exact (cutAt?_eq_some h).symm
  · rintro ⟨hc, rfl⟩
    exact cutAt?_append hc

/-- In terms of the first colon: it does not end the text unless it begins it. -/
theorem asksForTerm_iff {word : List Char} : AsksForTerm word ↔
    unsigned word ≠ [] ∧ ∀ field ≠ [], cutAt? ':' (unsigned word) ≠ some (field, []) := by
  simp only [AsksForTerm, ne_eq, cutAt?_eq_some_nil_iff, not_and]

/-- The words that are read are those that ask for a term. -/
theorem exists_readWord_iff {word : List Char} :
    (∃ t, readWord word = .ok t) ↔ AsksForTerm word := by
  rw [asksForTerm_iff]
  simp only [readWord, (splitMark_spec word).1]
  generalize hcut : cutAt? ':' (unsigned word) = cut
  rcases cut with - | ⟨- | ⟨c, field⟩, value⟩
  · by_cases hcs : unsigned word = [] <;> simp [hcs]
  · by_cases hcs : unsigned word = [] <;> simp +contextual [hcs]
  · have hcs : unsigned word ≠ [] := by
      rw [(cutAt?_eq_some hcut).1]
      simp
    by_cases hvalue : value = [] <;> simp [hvalue, hcs]

/-- A term without boost and with at most one field is written as its field and its value. -/
theorem text_of_one_field (value field : String) :
    Term.text { value, fields := .ofList [field] } = field ++ ":" ++ value := by
  have hboost : Weight.one.isShown = false := by decide
  have hfields : (FieldSet.ofList [field]).toList = [field] := rfl
  simp [Term.text, hboost, hfields]

theorem text_of_no_field (value : String) : Term.text { value } = value := by
  have hboost : Weight.one.isShown = false := by decide
  have hfields : FieldSet.toList ∅ = [] := rfl
  simp [Term.text, hboost, hfields]

/-- What is read from a word is written as the word again. -/
theorem toList_text_of_readWord {word : List Char} {t : Occur × Term}
    (h : readWord word = .ok t) : (t.1.mark ++ t.2.text).toList = word := by
  obtain ⟨hrest, hword⟩ := splitMark_spec word
  simp only [readWord, hrest] at h
  rw [String.toList_append]
  generalize hcut : cutAt? ':' (unsigned word) = cut at h
  split at h
  · split at h
    · exact nomatch h
    · rw [← Except.ok.inj h, text_of_one_field]
      rw [(cutAt?_eq_some hcut).1] at hword
      simpa using hword
  · split at h
    · exact nomatch h
    · rw [← Except.ok.inj h, text_of_no_field]
      simpa using hword

/-! ## Queries of single terms -/

theorem clauseTexts_append (cs ds : List QueryTree) :
    QueryTree.clauseTexts (cs ++ ds) = QueryTree.clauseTexts cs ++ QueryTree.clauseTexts ds := by
  induction cs with
  | nil => rfl
  | cons c cs ih => simp only [List.cons_append, QueryTree.clauseTexts, ih]

/-- One more group with one term is one more clause. -/
theorem WellFormed.pushTerm_grafted {q : Query} (h : q.WellFormed) (occur : Occur) (t : Term) :
    q.Grafted (q.pushTerm occur t) Query.root 2
      (.group q.entries.length occur false [.term (q.entries.length + 1) t]) :=
  (h.addSingle_grafted h.hasKind_root occur false t).2.2

/-- The clauses of a query of single terms are written as the terms are. -/
theorem exists_tree?_ofTerms (terms : List (Occur × Term)) : ∃ cs,
    (ofTerms terms).tree? root = some (.boolean root .should false cs) ∧
      QueryTree.clauseTexts cs = terms.map fun t => t.1.mark ++ t.2.text := by
  induction terms using List.reverseRecOn with
  | nil =>
    have hroot : empty.lookup? root = some ⟨none, .boolean .should false []⟩ := rfl
    exact ⟨[], tree?_of_lookup? hroot, rfl⟩
  | append_singleton terms t ih =>
    obtain ⟨cs, htree, htexts⟩ := ih
    have hq : (ofTerms terms).WellFormed := (regular_ofTerms terms).wellFormed
    have hpush : ofTerms (terms ++ [t]) = (ofTerms terms).pushTerm t.1 t.2 := by
      rw [ofTerms, List.foldl_append]
      rfl
    rw [hpush, (hq.pushTerm_grafted t.1 t.2).tree?_withChild hq htree]
    refine ⟨_, rfl, ?_⟩
    rw [clauseTexts_append, htexts, List.map_append]
    rfl

/-- A query of single terms is written as the terms with spaces between them. -/
theorem text_ofTerms (terms : List (Occur × Term)) :
    (ofTerms terms).text = " ".intercalate (terms.map fun t => t.1.mark ++ t.2.text) := by
  obtain ⟨cs, htree, htexts⟩ := exists_tree?_ofTerms terms
  rw [text, tree, htree, ← htexts]
  rfl

/-! ## Whole texts -/

theorem ofWords_eq_ok_iff {text : String} {q : Query} : ofWords text = .ok q ↔
    ∃ terms, (words text.toList).mapM readWord = .ok terms ∧ terms ≠ [] ∧ q = ofTerms terms := by
  rw [ofWords, bind_eq_ok_iff]
  refine exists_congr fun terms => and_congr_right fun _ => ?_
  by_cases hterms : terms = [] <;> simp [hterms, eq_comm]

theorem map_text_of_forall₂ {ws : List (List Char)} {terms : List (Occur × Term)}
    (h : List.Forall₂ (fun w t => readWord w = .ok t) ws terms) :
    terms.map (fun t => t.1.mark ++ t.2.text) = ws.map String.ofList := by
  induction h with
  | nil => rfl
  | cons hword _ ih =>
    rw [List.map_cons, List.map_cons, ih, ← toList_text_of_readWord hword, String.ofList_toList]

/-- The query of a text is written as the words of the text. -/
theorem text_of_ofWords {text : String} {q : Query} (h : ofWords text = .ok q) :
    q.text = " ".intercalate ((words text.toList).map String.ofList) := by
  obtain ⟨terms, hread, -, rfl⟩ := ofWords_eq_ok_iff.1 h
  rw [text_ofTerms, map_text_of_forall₂ (mapM_eq_ok_iff.1 hread)]

/-- A text is read as a query if and only if it has words and all of them ask for a term. Then the
query is written as the words with single spaces between them, and that is read as the same
query. -/
theorem ofWords_exact (text : String) :
    ((∃ q, ofWords text = .ok q) ↔
      words text.toList ≠ [] ∧ ∀ w ∈ words text.toList, AsksForTerm w) ∧
    ∀ q, ofWords text = .ok q →
      q.text = " ".intercalate ((words text.toList).map String.ofList) ∧
        ofWords q.text = .ok q := by
  refine ⟨?_, fun q hq => ⟨text_of_ofWords hq, ?_⟩⟩
  · simp only [ofWords_eq_ok_iff, ← exists_readWord_iff, ← exists_mapM_eq_ok_iff]
    constructor
    · rintro ⟨q, terms, hread, hne, -⟩
      refine ⟨fun hws => hne ?_, terms, hread⟩
      exact List.length_eq_zero_iff.1 ((mapM_eq_ok_iff.1 hread).length_eq ▸ by rw [hws]; rfl)
    · rintro ⟨hne, terms, hread⟩
      refine ⟨ofTerms terms, terms, hread, fun hterms => hne ?_, rfl⟩
      exact List.length_eq_zero_iff.1 ((mapM_eq_ok_iff.1 hread).length_eq ▸ by rw [hterms]; rfl)
  · have hwords : words q.text.toList = words text.toList := by
      rw [text_of_ofWords hq, toList_intercalate_space, List.map_map]
      simpa using words_unwords fun w hw => mem_words hw
    rw [ofWords_eq_ok_iff, hwords]
    exact ofWords_eq_ok_iff.1 hq

/-- Signs, colons at the start of a value and within it, and a field name in braces. -/
theorem ofWords_exact_signs :
    let text := " +brand:acme\t-:x  a:b:c\n+-\u00e9 \x7ba,b\x7d:y "
    ∃ q, ofWords text = .ok q ∧ q.text = "+brand:acme -:x a:b:c +-\u00e9 \x7ba,b\x7d:y" ∧
      ofWords q.text = .ok q := by
  intro text
  have hread : fault? (ofWords text) = none := by decide +kernel
  obtain ⟨q, hq⟩ := fault?_eq_none_iff.1 hread
  obtain ⟨htext, hagain⟩ := (ofWords_exact text).2 q hq
  have hwords : " ".intercalate ((words text.toList).map String.ofList) =
      "+brand:acme -:x a:b:c +-\u00e9 \x7ba,b\x7d:y" := by decide +kernel
  exact ⟨q, hq, htext.trans hwords, hagain⟩

end Query

end QueryRules
