import QueryRules.Proofs.Request.Rerun
import QueryRules.Proofs.RuleText.Queries

/-!
# Requests to rules that were accepted

`Engine.run_accepted`: if an engine reads queries as the rules text was read, then every run
succeeds, no action is left out, and every rule of every action is reported.
-/

namespace QueryRules.Engine

variable {e : Engine} {a : Action} {r : Request} {config : Config} {text : String}

/-- The queries of actions are those that were read with the rules text. -/
theorem isReadable_of_mem_actions (hs : Ruleset.ofText config text = .ok e.ruleset)
    (hparser : e.readQuery = e.ruleset.config.readQuery) (h : a ∈ e.actions r) :
    e.isReadable a = true := by
  rw [isReadable, Option.isNone_iff_eq_none, Action.unreadable?_eq_none_iff, hparser]
  intro i hi
  obtain ⟨rule, hrule, hi⟩ := List.mem_flatMap.1 hi
  exact Ruleset.isReadable_of_ofText hs rule (mem_rules_of_mem_actions h hrule) i hi

/-- If an engine reads queries as the rules text was read, and nothing limits the time, then every
run succeeds, also if a query that cannot be read would end it. No action is left out, and the
report has one message for every rule of every action. -/
theorem run_accepted (hs : Ruleset.ofText config text = .ok e.ruleset)
    (hparser : e.readQuery = e.ruleset.config.readQuery) (htime : ∀ n, e.isTimeUp n = false)
    (hr : r.query.WellFormed) : ∃ report, (e.run r).report = .ok report ∧
      report.applied = ((e.actions r).flatMap fun a => a.rules.map Rule.message) ∧
      report.skipped = 0 ∧ report.cutShort = false := by
  have hread : ∀ a ∈ e.actions r, e.isReadable a := fun a ha =>
    isReadable_of_mem_actions hs hparser ha
  refine ⟨_, report_run htime hr fun _ => hread, ?_, ?_, rfl⟩
  · rw [fullReport, List.filter_eq_self.2 hread]
    rfl
  · rw [fullReport, List.countP_eq_zero]
    intro a ha
    simp [hread a ha]

/-- Rules with raw and parsed queries, for an engine that any query that cannot be read would stop. -/
theorem run_accepted_halting :
    let text := "tv set =>\n  UP(2): oled brand:apple\n  FILTER: * price:[* TO 5]\n" ++
      "  SYNONYM: television\ntv AND NOT radio =>\n  FILTER: +new\n  DOWN: old"
    let r : Request :=
      { query := .ofTerms [(.should, { value := "TV" }), (.must, { value := "set" })] }
    ∃ s, Ruleset.ofText {} text = .ok s ∧ ∃ report,
      (Engine.run { ofRuleset s with haltOnFault := true } r).report = .ok report ∧
      report.applied = ["tv set#0", "tv AND NOT radio#1"] ∧ report.skipped = 0 := by
  intro text r
  -- the messages of the actions, for the rule set that the text gives
  have hmessages : (Ruleset.ofText {} text).toOption.map (fun s =>
      ((ofRuleset s).actions r).flatMap fun a => a.rules.map Rule.message) =
        some ["tv set#0", "tv AND NOT radio#1"] := by decide +kernel
  cases hs : Ruleset.ofText {} text with
  | error fault =>
    rw [hs] at hmessages
    exact nomatch hmessages
  | ok s =>
    rw [hs] at hmessages
    have hr : r.query.WellFormed := (Query.regular_ofTerms _).wellFormed
    let e : Engine := { ofRuleset s with haltOnFault := true }
    obtain ⟨report, hreport, happlied, hskipped, -⟩ :=
      run_accepted (show Ruleset.ofText {} text = .ok e.ruleset from hs) rfl (fun _ => rfl) hr
    exact ⟨s, rfl, report, hreport, happlied.trans (Option.some.inj hmessages), hskipped⟩

end QueryRules.Engine
