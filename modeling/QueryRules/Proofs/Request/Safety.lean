import QueryRules.Proofs.Match.Actions
import QueryRules.Proofs.Query.Written
import QueryRules.Proofs.Request.Effect
import QueryRules.Proofs.Ruleset.Compile

/-!
# Runs are safe

The actions of a run are found before the first of them is applied, so that an action may name terms
that an earlier one has deleted, together with their groups.

- `Progress.Effect.regular`: what instructions do to a request keeps its queries well formed.
- `Engine.Sound.apply_safe`: one action keeps them well formed and never fails to add a node.
- `Engine.run_safe`: so do whole runs, one after the other over the same request.
-/

namespace QueryRules

/-! ## Well-formed requests -/

theorem Query.wellFormed_ofWords {text : String} {q : Query} (h : Query.ofWords text = .ok q) :
    q.WellFormed := by
  obtain ⟨terms, -, -, rfl⟩ := ofWords_eq_ok_iff.1 h
  exact (regular_ofTerms terms).wellFormed

/-- The query, if it has been read, is well formed. -/
def AttachedQuery.WellFormed : AttachedQuery → Prop
  | .raw _ => True
  | .query q => q.WellFormed

namespace Request

/-- The queries of the boosts and filters. -/
def attached (r : Request) : List AttachedQuery :=
  r.ups.map Boost.query ++ r.downs.map Boost.query ++ r.filters

/-- The query of the user and those of the boosts and filters are well formed. -/
structure WellFormed (r : Request) : Prop where
  query : r.query.WellFormed
  attached : ∀ a ∈ r.attached, a.WellFormed

/-- The same with what the operations of a query need. -/
structure Regular (r : Request) : Prop where
  query : r.query.Regular
  attached : ∀ a ∈ r.attached, a.WellFormed

theorem Regular.wellFormed {r : Request} (h : r.Regular) : r.WellFormed :=
  ⟨h.query.wellFormed, h.attached⟩

end Request

/-- The query that a text asks for is well formed if whatever is read is. -/
theorem QueryText.Builds.wellFormed {parse : String → Except QueryFault Query}
    (hparse : ∀ text q, parse text = .ok q → q.WellFormed) {required : Bool} {text : QueryText}
    {a : AttachedQuery} (h : text.Builds parse required a) : a.WellFormed := by
  cases h with
  | raw text => trivial
  | @parsed text q hq =>
    have hrequired : (if required then q.requireAll else q).WellFormed := by
      split
      · exact (hparse text q hq).congr q.sameShape_requireAll
      · exact hparse text q hq
    exact hrequired.congr (Query.sameShape_asGenerated _)

/-- Instructions keep a request regular, whichever terms their action names. -/
theorem Progress.Effect.regular {parse : String → Except QueryFault Query}
    (hparse : ∀ text q, parse text = .ok q → q.WellFormed) {is : List Instruction}
    {deleted : List Nat} {messages : List String} {skipped : Nat} {p p' : Progress}
    (h : p.Effect parse is deleted messages skipped p') (hp : p.request.Regular) :
    p'.request.Regular where
  query := h.framed.regular hp.query
  attached := by
    have hboost {i : Instruction} {b : Boost} (hb : i.BuildsBoost parse b) :
        b.query.WellFormed := by
      obtain ⟨hb, -, -⟩ := hb
      exact hb.wellFormed hparse
    have hfilter {i : Instruction} {a : AttachedQuery} (ha : i.BuildsFilter parse a) :
        a.WellFormed := by
      obtain ⟨ha⟩ := ha
      exact ha.wellFormed hparse
    have hattached := hp.attached
    unfold Request.attached at hattached ⊢
    simp only [List.mem_append, or_imp, forall_and, List.forall_mem_map] at hattached ⊢
    obtain ⟨⟨hups, hdowns⟩, hfilters⟩ := hattached
    exact ⟨⟨h.ups.forall_mem hups fun _ _ => hboost, h.downs.forall_mem hdowns fun _ _ => hboost⟩,
      h.filters.forall_mem hfilters fun _ _ => hfilter⟩

/-! ## Runs -/

namespace Outcome

/-- No node has failed to be added, and the request is well formed. -/
structure Safe (o : Outcome) : Prop where
  halt : ∀ fault, o.halt ≠ some (.add fault)
  regular : o.request.Regular

end Outcome

namespace Engine

/-- The engine has a compiled rule set, and whatever it reads is a well-formed query. -/
structure Sound (e : Engine) : Prop where
  compiled : ∃ config rules, Ruleset.compile config rules = .ok e.ruleset
  readQuery : ∀ text q, e.readQuery text = .ok q → q.WellFormed

variable {e : Engine}

/-- An action is applied or left out, unless a query of it cannot be read. -/
theorem Sound.apply_safe (he : e.Sound) (action : Action) {p : Progress}
    (h : p.request.Regular) :
    Succeeds (e.apply action p) (fun p' => p'.request.Regular) ∨
      ∃ fault, e.apply action p = .error (.unreadable fault) := by
  cases ha : action.unreadable? e.readQuery with
  | none =>
    have happly := effect_apply h.query.wellFormed ha
    exact .inl (happly.imp fun p' heffect => heffect.regular he.readQuery h)
  | some fault =>
    rw [apply_of_unreadable ha]
    by_cases hhalt : e.haltOnFault
    · exact .inr ⟨fault, if_pos hhalt⟩
    · exact .inl ⟨_, if_neg hhalt, h⟩

theorem Sound.applyAll_safe (he : e.Sound) (actions : List Action) (n : Nat) {p : Progress}
    (h : p.request.Regular) : (e.applyAll n p actions).Safe := by
  induction actions generalizing n p with
  | nil => exact ⟨by simp [applyAll], h⟩
  | cons action actions ih =>
    rw [applyAll]
    by_cases ht : e.isTimeUp n
    · rw [if_pos ht]
      exact ⟨by simp, h⟩
    · rw [if_neg ht]
      rcases he.apply_safe action h with ⟨p', hp', hregular⟩ | ⟨fault, hfault⟩
      · rw [hp']
        exact ih (n + 1) hregular
      · rw [hfault]
        exact ⟨by simp, h⟩

/-- The engine of a compiled rule set that reads queries as words. -/
theorem sound_ofRuleset {config : Config} {rules : List Rule} {s : Ruleset}
    (hs : Ruleset.compile config rules = .ok s) (hread : config.readQuery = Query.ofWords) :
    (ofRuleset s).Sound where
  compiled := ⟨config, rules, hs⟩
  readQuery text q hq := by
    rw [ofRuleset, Ruleset.config_of_compile hs, hread] at hq
    exact Query.wellFormed_ofWords hq

theorem Sound.safe_run (he : e.Sound) {r : Request} (h : r.Regular) : (e.run r).Safe :=
  he.applyAll_safe _ _ h

/-- The request after the runs of some engines, one after the other. -/
def runAll (es : List Engine) (r : Request) : Request := es.foldl (fun r e => (e.run r).request) r

theorem regular_runAll {es : List Engine} (hes : ∀ e ∈ es, e.Sound) {r : Request}
    (h : r.Regular) : (runAll es r).Regular := by
  unfold runAll
  induction es generalizing r with
  | nil => exact h
  | cons e es ih =>
    obtain ⟨he, hes⟩ := List.forall_mem_cons.1 hes
    exact ih hes (he.safe_run h).regular

/-- After any number of runs over a request whose query has been built by operations, one more run
never fails to add a node, only looks up positions that its sequences have, and leaves the request
well formed. -/
theorem run_safe {es : List Engine} (hes : ∀ e ∈ es, e.Sound) (he : e.Sound) {r : Request}
    (hq : r.query.Built) (ha : ∀ a ∈ r.attached, a.WellFormed) :
    (∀ fault, (e.run (runAll es r)).halt ≠ some (.add fault)) ∧
    (∀ sequence ∈ (runAll es r).query.sequences, ∀ reported,
      ∀ a ∈ (e.ruleset.scan sequence reported).1, a.isCondition →
        sequence.span? a.start a.stop = some a.terms) ∧
    (e.run (runAll es r)).request.WellFormed := by
  have hsafe := he.safe_run (regular_runAll hes ⟨hq.regular, ha⟩)
  refine ⟨hsafe.halt, fun sequence _ reported a hm hc => ?_, hsafe.regular.wellFormed⟩
  obtain ⟨config, rules, hs⟩ := he.compiled
  exact (Ruleset.indexed_of_compile hs).span?_of_mem_scan hm hc

/-- Runs over a request in which one rule deletes the terms that the others have been found for. -/
theorem run_safe_deleted :
    let rules := [
      .make (.phrase [{ value := "big" }, { value := "house" }]) 0 (.string "a") [.delete none] [],
      .make (.phrase [{ value := "house" }]) 1 (.string "b")
        [.synonym [{ value := "large" }, { value := "home" }] .one] [],
      .make (.condition (.literal { value := "big" }) "") 2 (.string "c")
        [.filter (.parsed "red"), .delete none] []]
    let r : Request :=
      { query := .ofTerms [(.should, { value := "Big" }), (.must, { value := "house" })] }
    ∃ s, Ruleset.compile {} rules = .ok s ∧
      (∀ fault, ((ofRuleset s).run (runAll [ofRuleset s] r)).halt ≠ some (.add fault)) ∧
      ((ofRuleset s).run (runAll [ofRuleset s] r)).request.WellFormed := by
  intro rules r
  have hs : Ruleset.compile {} rules = .ok (Ruleset.build {} (rules.map (Ruleset.normalized {}))) :=
    Ruleset.compile_eq_ok_iff.2 ⟨by decide +kernel, by decide +kernel, rfl⟩
  have he := sound_ofRuleset hs rfl
  have hes : ∀ e ∈ [ofRuleset (Ruleset.build {} (rules.map (Ruleset.normalized {})))], e.Sound :=
    fun e hm => List.mem_singleton.1 hm ▸ he
  obtain ⟨hhalt, -, hw⟩ := run_safe hes he (r := r) (.ofTerms _) fun a ha => nomatch ha
  exact ⟨_, hs, hhalt, hw⟩

end Engine

end QueryRules
