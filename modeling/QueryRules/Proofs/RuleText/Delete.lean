import QueryRules.Proofs.Match.Consumed
import QueryRules.Proofs.RuleText.Queries
import QueryRules.Proofs.RuleText.Triggers
import QueryRules.Proofs.Text.Lowercase

/-!
# Delete lines in rules text

- `Config.KeepsWords`: normalizing text made of words gives text made of words. The default
  configuration does so (`keepsWords_default`).
- `RuleText.haveWords_of_readTrigger`: then the literals of a phrase consist of words.
- `RuleText.mem_resolveTerms`: if no two literals of a phrase agree, a delete line lists just those
  of them that it names.
- `Ruleset.exists_delete_of_ofText`: what becomes of a delete line in the rule set of a text.
-/

namespace QueryRules

open QueryRules.Text

/-- Text made of words is still made of words once it is normalized. -/
def Config.KeepsWords (config : Config) : Prop :=
  ∀ s : String, IsWords s.toList → IsWords (config.normalize s).toList

theorem Config.keepsWords_default : KeepsWords {} := fun _ h => isWords_lowerIfUpper h

theorem Config.KeepsWords.normalizeLiteral {config : Config} (hc : config.KeepsWords)
    {literals : List Literal} (h : HaveWords literals) :
    HaveWords (literals.map config.normalizeLiteral) := by
  intro l hl
  obtain ⟨k, hk, rfl⟩ := List.mem_map.1 hl
  exact hc _ (h k hk)

theorem Literal.agrees_iff {l k : Literal} :
    l.agrees k ↔ l.value = k.value ∧ l.fields = k.fields := by
  simp [agrees]

namespace RuleText

variable {config : Config}

/-! ## Literals -/

/-- The literals of a phrase consist of words. -/
theorem haveWords_of_readTrigger (hc : config.KeepsWords) {text : String} {literals : List Literal}
    (h : readTrigger config text = .ok (.phrase literals)) : HaveWords literals := by
  obtain ⟨hne, ⟨read, hphrase, he⟩ | ⟨c, -, he⟩⟩ := exists_of_readTrigger h
  · obtain rfl := Trigger.phrase.inj he
    obtain ⟨-, hread, -⟩ := readPhrase_spec hne (stopsAt_trim _) hphrase
    intro l hl
    obtain ⟨value, hvalue, hl⟩ := exists_isWords_of_readLiterals hread l hl
    rw [hl]
    exact hc value hvalue
  · exact nomatch he

/-! ## Delete lines -/

/-- Each term of a list stands for the first literal of the trigger that agrees with it. -/
theorem forall₂_of_resolveTerms {trigger : Trigger} {named resolved : List Literal}
    (h : resolveTerms trigger named = .ok resolved) :
    List.Forall₂ (fun k r => trigger.literals.find? (·.agrees k) = some r) named resolved := by
  refine (mapM_eq_ok_iff.1 h).imp fun k r he => ?_
  split at he
  · rename_i literal hfind
    rw [hfind, Except.ok.inj he]
  · cases he

/-- If no two literals of a trigger agree, a list of terms stands for the literals that agree with
one of them. -/
theorem mem_resolveTerms {trigger : Trigger} {named resolved : List Literal}
    (h : resolveTerms trigger named = .ok resolved)
    (hdistinct : trigger.literals.Pairwise fun l k => l.agrees k = false) {l : Literal} :
    l ∈ resolved ↔ l ∈ trigger.literals ∧ ∃ k ∈ named, l.agrees k := by
  have hfind := forall₂_of_resolveTerms h
  constructor
  · intro hl
    have hback : List.Forall₂ (fun r k => trigger.literals.find? (·.agrees k) = some r) resolved
      named := hfind.flip
    obtain ⟨n, hn⟩ := List.mem_iff_getElem?.1 hl
    obtain ⟨k, hk, he⟩ := exists_getElem?_of_forall₂ hback hn
    refine ⟨List.mem_of_find?_eq_some he, k, List.mem_of_getElem? hk, ?_⟩
    exact List.find?_some (p := fun l => Literal.agrees l k) he
  · rintro ⟨hl, k, hk, hagrees⟩
    obtain ⟨n, hn⟩ := List.mem_iff_getElem?.1 hk
    obtain ⟨r, hr, he⟩ := exists_getElem?_of_forall₂ hfind hn
    have hragrees := List.find?_some (p := fun l => Literal.agrees l k) he
    have hsymm : Std.Symm fun l k : Literal => l.agrees k = false := by
      refine ⟨fun l k hlk => ?_⟩
      rw [← hlk, Bool.eq_iff_iff, Literal.agrees_iff, Literal.agrees_iff]
      exact ⟨fun h => ⟨h.1.symm, h.2.symm⟩, fun h => ⟨h.1.symm, h.2.symm⟩⟩
    -- two literals that agree with one term agree with each other
    have hsame : r = l := by
      by_contra hne
      have hfalse := hdistinct.forall (List.mem_of_find?_eq_some he) hl hne
      rw [Literal.agrees_iff] at hagrees hragrees
      have := Literal.agrees_iff.2
        ⟨hragrees.1.trans hagrees.1.symm, hragrees.2.trans hagrees.2.symm⟩
      simp [hfalse] at this
    exact hsame ▸ List.mem_of_getElem? hr

/-- Rule `n` of a text has a phrase of certain literals, and its instruction `j` is a delete line
that lists certain terms. -/
def WritesDelete (config : Config) (text : String) (n j : Nat) (literals named : List Literal) :
    Prop :=
  ∃ drafts draft line value, readDrafts config text = .ok drafts ∧ drafts[n]? = some draft ∧
    readTrigger config draft.input = .ok (.phrase literals) ∧
    draft.instructions[j]? = some line ∧ line.kind = .delete ∧ line.value = some value ∧
    readLiterals config value.toList = .ok named

theorem exists_of_readBody_delete {literals named : List Literal} {d : DraftInstruction}
    {i : Instruction} (h : readBody config (.phrase literals) d = .ok i) (hk : d.kind = .delete)
    {value : String} (hv : d.value = some value)
    (hnamed : readLiterals config value.toList = .ok named) : ∃ resolved,
      resolveTerms (.phrase literals) named = .ok resolved ∧ i = .delete (some resolved) := by
  unfold readBody at h
  rw [if_neg (by simp [Trigger.isCondition]), hk] at h
  obtain ⟨_, -, h⟩ := bind_eq_ok_iff.1 h
  rw [hv] at h
  obtain ⟨terms, hterms, h⟩ := bind_eq_ok_iff.1 h
  obtain rfl := Except.ok.inj (hnamed.symm.trans hterms)
  obtain ⟨resolved, hr, h⟩ := bind_eq_ok_iff.1 h
  exact ⟨resolved, hr, (Except.ok.inj h).symm⟩

end RuleText

/-- The rule that a delete line of a text belongs to, and what the line has become in the rule set:
it lists just the literals of the phrase that it names. -/
theorem Ruleset.exists_delete_of_ofText {config : Config} {text : String} {s : Ruleset}
    (hs : ofText config text = .ok s) {n j : Nat} {literals named : List Literal}
    (hline : RuleText.WritesDelete config text n j literals named)
    (hdistinct : literals.Pairwise fun l k => l.agrees k = false) :
    ∃ r terms, s.rules[n]? = some r ∧
      r.trigger = .phrase (literals.map config.normalizeLiteral) ∧
      r.instructions[j]? = some (.delete (some terms)) ∧
      ∀ l, l ∈ terms ↔ ∃ k ∈ literals, config.normalizeLiteral k = l ∧ ∃ m ∈ named, k.agrees m := by
  obtain ⟨drafts, draft, line, value, hdrafts, hdraft, htrigger, hline, hkind, hvalue, hnamed⟩ :=
    hline
  obtain ⟨rules, hrules, hs⟩ := bind_eq_ok_iff.1 hs
  obtain ⟨drafts', hdrafts', hread⟩ := bind_eq_ok_iff.1 hrules
  obtain rfl := Except.ok.inj (hdrafts.symm.trans hdrafts')
  have hplaced : drafts.zipIdx[n]? = some (draft, n) := by simp [hdraft]
  obtain ⟨q, hq, hrule⟩ :=
    exists_getElem?_of_forall₂ (RuleText.forall₂_of_readRulesFrom hread) hplaced
  obtain ⟨trigger, htrigger', hrule⟩ := bind_eq_ok_iff.1 hrule
  rw [htrigger] at htrigger'
  obtain rfl := Except.ok.inj htrigger'
  obtain ⟨is, his, hrule⟩ := bind_eq_ok_iff.1 hrule
  have hq' := Except.ok.inj hrule
  obtain ⟨i, hi, hbody⟩ := exists_getElem?_of_forall₂ (mapM_eq_ok_iff.1 his) hline
  obtain ⟨resolved, hresolved, rfl⟩ :=
    RuleText.exists_of_readBody_delete (mapError_eq_ok_iff.1 hbody) hkind hvalue hnamed
  refine ⟨normalized config q, resolved.map config.normalizeLiteral, ?_, ?_, ?_, fun l => ?_⟩
  · rw [rules_of_compile hs, List.getElem?_map, hq]
    rfl
  · rw [← hq']
    rfl
  · rw [← hq']
    simp [normalized, Rule.mapLiterals, Rule.make, hi, Instruction.mapLiterals]
  · simp only [List.mem_map, RuleText.mem_resolveTerms hresolved hdistinct]
    exact ⟨fun ⟨k, ⟨hk, hm⟩, he⟩ => ⟨k, hk, he, hm⟩, fun ⟨k, hk, he, hm⟩ => ⟨k, ⟨hk, hm⟩, he⟩⟩

end QueryRules
