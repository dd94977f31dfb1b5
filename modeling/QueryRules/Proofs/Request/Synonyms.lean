import QueryRules.Proofs.Query.Enriched
import QueryRules.Proofs.Request.Frame

/-!
# What a synonym does to a query

- `Replaces`: one text stands in place of every `$1` of another one. `replaces_fillSuffix`: that is
  so in the value of an added term.
- `IsSynonym`: the term that is added for a literal.
- `Engine.lt_length_of_mem_actions`: the terms of an action have numbers that the query has given
  out, also after other actions of the run.
- `Progress.addSynonyms_exact`: each group of a matched term that is still there gets one
  alternative of these terms, and nothing else is changed.
-/

namespace QueryRules

/-! ## Terms -/

/-- `filled` is `text` with `suffix` in place of every `$1`. -/
def Replaces (suffix text filled : List Char) : Prop :=
  ∃ pieces : List (List Char), pieces ≠ [] ∧ (∀ piece ∈ pieces, ¬ ['$', '1'] <:+: piece) ∧
    text = ['$', '1'].intercalate pieces ∧ filled = suffix.intercalate pieces

/-- A term that a synonym adds for a literal: it is made by a rule and has the fields of the literal
and the weight as its boost. If a term went on behind a prefix, what it went on with stands in place
of every `$1` of the value. -/
structure IsSynonym (suffix : Option String) (weight : Weight) (l : Literal) (t : Term) : Prop where
  generated : t.generated = true
  boost : t.boost = weight
  fields : t.fields = l.fields
  value_of_none : suffix = none → t.value = l.value
  value_of_some : ∀ s, suffix = some s → Replaces s.toList l.value.toList t.value.toList

theorem intercalate_cons_cons (sep : List Char) (c : Char) (w : List Char)
    (ws : List (List Char)) :
    sep.intercalate ((c :: w) :: ws) = c :: sep.intercalate (w :: ws) := by
  rcases eq_or_ne ws [] with rfl | hne
  · rw [List.intercalate_singleton, List.intercalate_singleton]
  · rw [List.intercalate_cons_of_ne_nil hne, List.intercalate_cons_of_ne_nil hne]
    rfl

/-- Filling in the suffix replaces every `$1`. -/
theorem replaces_fillSuffix (suffix text : List Char) :
    Replaces suffix text (fillSuffix suffix text) := by
  fun_induction fillSuffix suffix text with
  | case1 => exact ⟨[[]], by simp, by simp, rfl, rfl⟩
  | case2 cs ih =>
    obtain ⟨pieces, hne, hpieces, htext, hfilled⟩ := ih
    refine ⟨[] :: pieces, List.cons_ne_nil _ _, List.forall_mem_cons.2 ⟨by simp, hpieces⟩, ?_, ?_⟩
    · rw [List.intercalate_cons_of_ne_nil hne, ← htext]
      rfl
    · rw [List.intercalate_cons_of_ne_nil hne, ← hfilled]
      rfl
  | case3 c cs hmark ih =>
    obtain ⟨pieces, hne, hpieces, htext, hfilled⟩ := ih
    obtain ⟨piece, pieces, rfl⟩ := List.exists_cons_of_ne_nil hne
    obtain ⟨hpiece, hpieces⟩ := List.forall_mem_cons.1 hpieces
    refine ⟨(c :: piece) :: pieces, List.cons_ne_nil _ _,
      List.forall_mem_cons.2 ⟨fun hinfix => ?_, hpieces⟩, ?_, ?_⟩
    · -- a new `$1` would begin with `c`
      rcases List.infix_cons_iff.1 hinfix with hprefix | hinfix
      · obtain ⟨rfl, rest, rfl⟩ := List.cons_prefix_cons.1 hprefix
        rw [List.singleton_append, intercalate_cons_cons] at htext
        exact hmark _ rfl htext
      · exact hpiece hinfix
    · rw [intercalate_cons_cons, htext]
    · rw [intercalate_cons_cons, hfilled]

theorem isSynonym_synonymTerm (suffix : Option String) (weight : Weight) (l : Literal) :
    IsSynonym suffix weight l (synonymTerm suffix weight l) where
  generated := rfl
  boost := rfl
  fields := rfl
  value_of_none h := by rw [h]; rfl
  value_of_some s h := by
    rw [h, synonymTerm, String.toList_ofList]
    exact replaces_fillSuffix _ _

/-! ## Queries -/

/-- The terms of an action of a request have numbers that its query has given out, whatever has been
done to the query since. -/
theorem Engine.lt_length_of_mem_actions {e : Engine} {r : Request} {a : Action}
    (h : a ∈ e.actions r) {q : Query} (hq : r.query.Framed q) :
    ∀ c ∈ a.terms, c.id < q.entries.length := by
  intro c hc
  obtain ⟨t, ht, -⟩ := exists_term?_of_mem_actions h hc
  obtain ⟨n, hn, -⟩ := Query.term?_eq_some_iff.1 ht
  exact Nat.lt_of_lt_of_le (Query.lt_length_of_lookup? hn) hq.length_le

/-- A synonym adds one alternative of its terms to every group of a matched term that is still
there, as the last one, in the order in which the groups first occur. It changes nothing else. The
terms of the action have numbers that the query has given out; some may be gone. -/
theorem Progress.addSynonyms_exact (config : Config) (a : Action) {p : Progress}
    (h : p.request.query.WellFormed) (hids : ∀ c ∈ a.terms, c.id < p.request.query.entries.length)
    (ls : List Literal) (weight : Weight) :
    ∃ q ts, p.take config a (.addSynonyms ls weight) = .ok (p.setQuery q) ∧
      List.Forall₂ (IsSynonym a.suffix weight) ls ts ∧
      p.request.query.Enriched q (p.request.query.groupsOf (a.terms.map (·.id))) ts := by
  obtain ⟨q, hadd, hq⟩ := h.addSynonyms_enriched (List.forall_mem_map.2 hids)
    (ls.map (synonymTerm a.suffix weight))
  refine ⟨q, _, ?_, ?_, hq⟩
  · rw [take, hadd]
    rfl
  · rw [List.forall₂_map_right_iff, List.forall₂_same]
    exact fun l _ => isSynonym_synonymTerm a.suffix weight l

/-- Two alternatives of one group and a word that has been removed are matched besides a word of
another group. -/
theorem Progress.addSynonyms_exact_removed :
    let q := (Query.ofTerms [(.should, { value := "laptops" }), (.should, { value := "red" })]).edits
      [.addTerm 1 { value := "laptopset" }, .addTerm 3 { value := "pink" }, .eraseTerm 6]
    let p : Progress := { request := { query := q } }
    let a : Action := ⟨[], [⟨6, "pink", ∅⟩, ⟨4, "red", ∅⟩, ⟨2, "laptops", ∅⟩, ⟨5, "laptopset", ∅⟩],
      0, 2, some "s"⟩
    let ls : List Literal := [{ value := "note$1" }, { value := "$1book" }]
    q.WellFormed ∧ (∀ c ∈ a.terms, c.id < q.entries.length) ∧
      q.groupsOf (a.terms.map (·.id)) = [3, 1] ∧
      ∃ q' ts, p.take {} a (.addSynonyms ls .one) = .ok (p.setQuery q') ∧
        List.Forall₂ (IsSynonym (some "s") .one) ls ts ∧ q.Enriched q' [3, 1] ts ∧
        q'.text = "(laptops | laptopset | [+notes +sbook]) (red | [+notes +sbook])" := by
  intro q p a ls
  have hq : q.WellFormed := ((Query.regular_ofTerms _).edits _).1.wellFormed
  have hids : ∀ c ∈ a.terms, c.id < q.entries.length := by decide +kernel
  have hgroups : q.groupsOf (a.terms.map (·.id)) = [3, 1] := by decide +kernel
  have htext : (p.take {} a (.addSynonyms ls .one)).map (·.request.query.text) =
      .ok "(laptops | laptopset | [+notes +sbook]) (red | [+notes +sbook])" := by decide +kernel
  obtain ⟨q', ts, htake, hts, henriched⟩ := addSynonyms_exact {} a (p := p) hq hids ls .one
  rw [show p.request.query.groupsOf _ = _ from hgroups] at henriched
  rw [htake] at htext
  exact ⟨hq, hids, hgroups, q', ts, htake, hts, henriched, Except.ok.inj htext⟩

end QueryRules
