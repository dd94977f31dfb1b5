import QueryRules.Proofs.Query.Sequences
import QueryRules.Proofs.Request.Report

/-!
# Running again

`Engine.run_again`: if no rule deletes terms, then a run leaves the sequences of the query as they
are. So the rules do not match what a run has added, and a second run reports what the first one
has reported.
-/

namespace QueryRules.Engine

variable {e : Engine} {a : Action} {r : Request}

/-- The rules of the actions of a request are rules of the rule set. -/
theorem mem_rules_of_mem_actions (h : a ∈ e.actions r) {rule : Rule} (hr : rule ∈ a.rules) :
    rule ∈ e.ruleset.rules := by
  obtain ⟨sequence, -, reported, h⟩ := exists_of_mem_actionsFrom h
  exact Ruleset.mem_rules_of_mem_scan h hr

/-- Without delete instructions no action deletes a term. -/
theorem deleted_eq_nil
    (hdelete : ∀ rule ∈ e.ruleset.rules, ∀ i ∈ rule.instructions, i.kind ≠ .delete)
    (h : a ∈ e.actions r) (config : Config) : a.deleted config = [] := by
  refine List.flatMap_eq_nil_iff.2 fun i hi => ?_
  obtain ⟨rule, hrule, hi⟩ := List.mem_flatMap.1 hi
  have hkind := hdelete rule (mem_rules_of_mem_actions h hrule) i hi
  cases i with
  | delete terms => exact absurd rfl hkind
  | _ => rfl

/-- If no rule deletes terms, nothing limits the time and no query that cannot be read ends the run,
then the sequences of the query are after a run what they were before, and one more run over the
request has the same report. -/
theorem run_again (e : Engine) (r : Request) (hr : r.query.WellFormed)
    (hdelete : ∀ rule ∈ e.ruleset.rules, ∀ i ∈ rule.instructions, i.kind ≠ .delete)
    (htime : ∀ n, e.isTimeUp n = false) (hhalt : e.haltOnFault = false) :
    (e.run r).request.query.sequences = r.query.sequences ∧
    ∃ report, (e.run r).report = .ok report ∧ (e.run (e.run r).request).report = .ok report := by
  have hread (r : Request) : e.haltOnFault = true → ∀ a ∈ e.actions r, e.isReadable a := by
    rw [hhalt]
    exact fun h => nomatch h
  obtain ⟨p, hp, -, heffect⟩ := applyAll_untimed htime (hread r) 0 (p := { request := r }) hr
  have hrequest : (e.run r).request = p.request := by
    rw [run, hp]
    rfl
  have hwidened : r.query.Widened p.request.query := by
    refine heffect.widened (List.flatMap_eq_nil_iff.2 fun a ha => ?_)
    exact deleted_eq_nil hdelete (List.mem_of_mem_filter ha) _
  have hsequences : (e.run r).request.query.sequences = r.query.sequences := by
    rw [hrequest]
    exact hwidened.sequences_eq hr
  refine ⟨hsequences, _, report_run htime hr (hread r), ?_⟩
  have hagain : e.actions (e.run r).request = e.actions r := by
    rw [actions, actions, hsequences]
  rw [report_run htime (hrequest ▸ hwidened.wellFormed) (hread _), hagain]

/-- A run that adds to a query what other rules wait for, and whose last action cannot be applied. -/
theorem run_again_synonyms :
    let tv : Literal := { value := "tv" }
    let set : Literal := { value := "set" }
    let rules := [
      .make (.phrase [tv]) 0 (.string "a")
        [.synonym [{ value := "television" }, set] .one, .synonym [tv] .one] [],
      .make (.phrase [set]) 1 (.string "b") [.decorate "box" none] [],
      .make (.condition (.all [.literal tv, .not (.literal set)]) "") 2 (.string "c")
        [.filter (.parsed "+")] []]
    let r : Request :=
      { query := .ofTerms [(.should, { value := "tv" }), (.must, { value := "stand" })] }
    let e : Engine := { ruleset := .build {} rules, readQuery := Query.ofWords }
    r.query.WellFormed ∧ (e.run r).request.query.text = "(tv | [+television +set] | tv) +stand" ∧
      (e.run r).progress.applied = ["a"] ∧ (e.run r).progress.skipped = 1 ∧
      (e.run r).request.query.sequences = r.query.sequences ∧
      ∃ report, (e.run r).report = .ok report ∧
        (e.run (e.run r).request).report = .ok report := by
  intro tv set rules r e
  have hr : r.query.WellFormed := (Query.regular_ofTerms _).wellFormed
  obtain ⟨hsequences, hreport⟩ :=
    run_again e r hr (by decide +kernel) (fun _ => rfl) rfl
  exact ⟨hr, by decide +kernel, by decide +kernel, by decide +kernel, hsequences, hreport⟩

end QueryRules.Engine
