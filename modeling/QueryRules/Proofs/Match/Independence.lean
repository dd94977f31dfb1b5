import QueryRules.Proofs.Match.Firings
import QueryRules.Proofs.Ruleset.Compile

/-!
# Rules do not disturb one another

`Ruleset.firingsOf` lists where the rule with an id matches. For a compiled rule set it is what the
trigger of the rule asks for (`firingsOf_perm`), so that no other rule has any influence on it
(`firingsOf_independent`).
-/

namespace QueryRules

/-- The elements of a list with different keys whose key is that of one of them. -/
theorem flatMap_of_nodup_keys {α β κ : Type} [DecidableEq κ] (key : α → κ) (f : α → List β)
    {as : List α} (h : (as.map key).Nodup) {a : α} (ha : a ∈ as) :
    (as.flatMap fun b => if key b = key a then f b else []) = f a := by
  induction as with
  | nil => simp at ha
  | cons b as ih =>
    obtain ⟨hb, hs⟩ := List.nodup_cons.1 (List.map_cons ▸ h)
    rw [List.flatMap_cons]
    rcases List.mem_cons.1 ha with rfl | ha
    · have hnone : (as.flatMap fun b => if key b = key a then f b else []) = [] := by
        rw [List.flatMap_eq_nil_iff]
        intro c hc
        exact if_neg fun he : key c = key a => hb (he ▸ List.mem_map_of_mem hc)
      rw [if_pos rfl, hnone, List.append_nil]
    · have hne : key b ≠ key a := fun he => hb (he ▸ List.mem_map_of_mem ha)
      rw [if_neg hne, List.nil_append, ih hs ha]

namespace Ruleset

/-- Where the actions of a sequence say that the rule with an id matches. -/
def firingsOf (s : Ruleset) (sequence : Sequence) (id : Json) : List Firing :=
  (s.firings sequence).filterMap fun p => if p.1.id.compact = id.compact then some p.2 else none

variable {config : Config} {rules : List Rule} {s : Ruleset}

/-- A rule of a compiled rule set matches where its trigger does. -/
theorem firingsOf_perm (hs : compile config rules = .ok s) {r : Rule} (hr : r ∈ s.rules)
    (sequence : Sequence) :
    (s.firingsOf sequence r.id).Perm (config.firings sequence r.trigger) := by
  have hperm := (indexed_of_compile hs).firings_perm sequence
  unfold firingsOf
  refine (hperm.filterMap _).trans (.of_eq ?_)
  rw [List.filterMap_flatMap, config_of_compile hs]
  have hrule (q : Rule) : ((config.firings sequence q.trigger).map fun f => (q, f)).filterMap
      (fun p => if p.1.id.compact = r.id.compact then some p.2 else none) =
        if q.id.compact = r.id.compact then config.firings sequence q.trigger else [] := by
    rw [List.filterMap_map]
    by_cases hq : q.id.compact = r.id.compact <;> simp [hq]
  simp only [hrule]
  exact flatMap_of_nodup_keys _ (fun q => config.firings sequence q.trigger)
    (nodup_ids_of_compile hs) hr

/-- The same for a rule as it was before it was compiled. -/
theorem firingsOf_perm_normalized (hs : compile config rules = .ok s) {r : Rule} (hr : r ∈ rules)
    (sequence : Sequence) : (s.firingsOf sequence r.id).Perm
      (config.firings sequence (normalized config r).trigger) := by
  have hmem : normalized config r ∈ s.rules := by
    rw [rules_of_compile hs]
    exact List.mem_map_of_mem hr
  exact firingsOf_perm hs hmem sequence

/-- A rule matches a sequence at the same places, with the same terms and suffixes and equally
often, whether it has been compiled alone or together with any other rules. -/
theorem firingsOf_independent (hs : compile config rules = .ok s) {r : Rule} (hr : r ∈ rules) :
    (∃ t, compile config [r] = .ok t ∧ ∀ sequence,
      (s.firingsOf sequence r.id).Perm (t.firingsOf sequence r.id)) ∧
    ∀ rules' s', compile config rules' = .ok s' → r ∈ rules' → ∀ sequence,
      (s.firingsOf sequence r.id).Perm (s'.firingsOf sequence r.id) := by
  have hany (rules' : List Rule) (s' : Ruleset) (hs' : compile config rules' = .ok s')
      (hr' : r ∈ rules') (sequence : Sequence) :
      (s.firingsOf sequence r.id).Perm (s'.firingsOf sequence r.id) :=
    (firingsOf_perm_normalized hs hr sequence).trans
      (firingsOf_perm_normalized hs' hr' sequence).symm
  have halone := compile_singleton hs hr
  exact ⟨⟨_, halone, hany [r] _ halone (by simp)⟩, hany⟩

/-- A condition among rules that share its literals and the texts of these. -/
theorem firingsOf_independent_shared :
    let big : Condition := .literal { value := "big" }
    let red : Condition := .literal { value := "red" }
    let r := Rule.bare "c" (.condition (.all [big, .not red]) "")
    let rules := [.bare "a" (.phrase [{ value := "big" }]),
      .bare "b" (.phrase [{ value := "big", isPrefix := true }]), r,
      .bare "d" (.condition (.any [big, red]) "")]
    ∃ s t, compile {} rules = .ok s ∧ compile {} [r] = .ok t ∧
      ∀ sequence, (s.firingsOf sequence r.id).Perm (t.firingsOf sequence r.id) := by
  intro big red r rules
  have hs : compile {} rules = .ok (build {} (rules.map (normalized {}))) :=
    compile_eq_ok_iff.2 ⟨by decide +kernel, by decide +kernel, rfl⟩
  have hr : r ∈ rules := by simp [rules]
  obtain ⟨⟨t, ht, hsame⟩, -⟩ := firingsOf_independent hs hr
  exact ⟨_, t, hs, ht, hsame⟩

end Ruleset

end QueryRules
