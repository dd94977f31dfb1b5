import QueryRules.Proofs.Request.Report

/-!
# Runs that halt and runs that go on

An engine either ends a run at the first query that cannot be read or leaves out the action that has
it.

- `Engine.applyAll_append`: actions whose queries can be read are applied by both engines alike,
  whatever follows them.
- `Action.exists_isRejected`: an action that cannot be applied has a first rule with a query that is
  rejected, and that rule is the one at fault.
- `Engine.run_halting`: so a run that halts is a run that goes on up to the first action that this
  one leaves out, and the whole run if it leaves out none.
-/

namespace QueryRules

/-! ## Rejected queries -/

/-- The rule has a boost or filter whose query is parsed and rejected. -/
def Rule.IsRejected (parse : String → Except QueryFault Query) (rule : Rule) : Prop :=
  ∃ i ∈ rule.instructions, ∃ text fault, i.query? = some (.parsed text) ∧
    parse text = .error fault

variable {parse : String → Except QueryFault Query}

theorem Rule.unreadable?_eq_some_iff {rule : Rule} {i : Instruction} {fault : UnreadableQuery} :
    rule.unreadable? parse i = some fault ↔ ∃ text cause, i.query? = some (.parsed text) ∧
      parse text = .error cause ∧ fault = ⟨rule.label, i.kind, text, cause⟩ := by
  unfold unreadable?
  split
  · rename_i text hquery
    rw [hquery, Option.map_eq_some_iff]
    constructor
    · rintro ⟨cause, hcause, rfl⟩
      exact ⟨text, cause, rfl, fault?_eq_some_iff.1 hcause, rfl⟩
    · rintro ⟨text', cause, htext, hcause, rfl⟩
      obtain rfl := QueryText.parsed.inj (Option.some.inj htext)
      exact ⟨cause, fault?_eq_some_iff.2 hcause, rfl⟩
  · rename_i hquery
    constructor
    · exact fun h => nomatch h
    · rintro ⟨text, -, htext, -⟩
      exact absurd htext (hquery text)

theorem Rule.findSome?_unreadable?_eq_none_iff {rule : Rule} :
    rule.instructions.findSome? (rule.unreadable? parse) = none ↔ ¬ rule.IsRejected parse := by
  rw [List.findSome?_eq_none_iff]
  constructor
  · rintro h ⟨i, hi, text, cause, hquery, hcause⟩
    have hnone := h i hi
    rw [unreadable?_eq_some_iff.2 ⟨text, cause, hquery, hcause, rfl⟩] at hnone
    exact nomatch hnone
  · intro h i hi
    rw [Option.eq_none_iff_forall_ne_some]
    intro fault hfault
    obtain ⟨text, cause, hquery, hcause, -⟩ := unreadable?_eq_some_iff.1 hfault
    exact h ⟨i, hi, text, cause, hquery, hcause⟩

/-- The queries of an action can be read if none of its rules has one that is rejected. -/
theorem Action.unreadable?_eq_none_iff_isRejected {a : Action} :
    a.unreadable? parse = none ↔ ∀ rule ∈ a.rules, ¬ rule.IsRejected parse := by
  unfold unreadable?
  rw [List.findSome?_eq_none_iff]
  exact forall₂_congr fun rule _ => Rule.findSome?_unreadable?_eq_none_iff

/-- The first rule of an action with a query that is rejected is the one at fault. -/
theorem Action.exists_isRejected {a : Action} {fault : UnreadableQuery}
    (h : a.unreadable? parse = some fault) : ∃ rules rule rules', a.rules = rules ++ rule :: rules' ∧
      rule.IsRejected parse ∧ (∀ other ∈ rules, ¬ other.IsRejected parse) ∧
      fault.ruleId = rule.label := by
  obtain ⟨rules, rule, rules', hrules, hfault, hbefore⟩ := List.findSome?_eq_some_iff.1 h
  obtain ⟨_, i, _, hi, hunreadable, -⟩ := List.findSome?_eq_some_iff.1 hfault
  obtain ⟨text, cause, hquery, hcause, rfl⟩ := Rule.unreadable?_eq_some_iff.1 hunreadable
  refine ⟨rules, rule, rules', hrules, ⟨i, ?_, text, cause, hquery, hcause⟩, ?_, rfl⟩
  · rw [hi]
    simp
  · exact fun other hother => Rule.findSome?_unreadable?_eq_none_iff.1 (hbefore other hother)

/-! ## Actions that can be applied -/

namespace Engine

variable {e : Engine} {a : Action} {as : List Action} {p : Progress}

theorem isReadable_iff : e.isReadable a ↔ ∀ rule ∈ a.rules, ¬ rule.IsRejected e.readQuery := by
  rw [isReadable, Option.isNone_iff_eq_none, Action.unreadable?_eq_none_iff_isRejected]

/-- Whether a fault would end the run makes no difference to an action without one. -/
theorem apply_haltOnFault (ha : e.isReadable a) (halts : Bool) (p : Progress) :
    Engine.apply { e with haltOnFault := halts } a p = e.apply a p := by
  have hfault : fault? (a.steps e.readQuery) = none := by
    rw [fault?_steps]
    exact Option.isNone_iff_eq_none.1 ha
  obtain ⟨prepared, hprepared⟩ := fault?_eq_none_iff.1 hfault
  rw [apply_eq, apply_eq]
  dsimp only
  rw [hprepared]

/-- Actions whose queries can be read are applied one after the other, whatever follows them and
whether a fault would end the run or not. -/
theorem applyAll_append (htime : ∀ n, e.isTimeUp n = false) (hp : p.request.query.WellFormed)
    (hread : ∀ a ∈ as, e.isReadable a) : ∃ p', as.foldlM (fun p a => e.apply a p) p = .ok p' ∧
      ∀ halts n rest, Engine.applyAll { e with haltOnFault := halts } n p (as ++ rest) =
        Engine.applyAll { e with haltOnFault := halts } (n + as.length) p' rest := by
  induction as generalizing p with
  | nil => exact ⟨p, rfl, fun halts n rest => rfl⟩
  | cons a as ih =>
    obtain ⟨ha, has⟩ := List.forall_mem_cons.1 hread
    obtain ⟨p₁, hp₁, heffect⟩ := effect_apply hp (Option.isNone_iff_eq_none.1 ha)
    obtain ⟨p₂, hp₂, hrest⟩ := ih heffect.framed.wellFormed has
    refine ⟨p₂, ?_, fun halts n rest => ?_⟩
    · rw [List.foldlM_cons, hp₁]
      exact hp₂
    · have happly := (apply_haltOnFault ha halts p).trans hp₁
      rw [List.cons_append, applyAll, if_neg (by simp [htime]), happly]
      dsimp only
      rw [hrest, List.length_cons, Nat.add_right_comm, Nat.add_assoc]

/-- A run that a query that cannot be read would end, next to one that leaves out the action with
that query: if the latter leaves out none, both are the same. Otherwise the former ends with the
fault of the first rule that has a query that is rejected, after just the actions before that rule's
action have been applied. -/
theorem run_halting (e : Engine) {r : Request} (hr : r.query.WellFormed)
    (htime : ∀ n, e.isTimeUp n = false) :
    let skipping : Engine := { e with haltOnFault := false }
    let halting : Engine := { e with haltOnFault := true }
    ∃ report, (skipping.run r).report = .ok report ∧
      (report.skipped = 0 → halting.run r = skipping.run r) ∧
      (report.skipped ≠ 0 → ∃ before a after rules rule rules' fault,
        skipping.actions r = before ++ a :: after ∧ a.rules = rules ++ rule :: rules' ∧
        rule.IsRejected e.readQuery ∧
        (∀ other ∈ before.flatMap Action.rules ++ rules, ¬ other.IsRejected e.readQuery) ∧
        fault.ruleId = rule.label ∧ (halting.run r).report = .error (.unreadable fault) ∧
        before.foldlM (fun p a => skipping.apply a p) { request := r } =
          .ok (halting.run r).progress) := by
  intro skipping halting
  have hreport := report_run (e := skipping) htime hr fun h => nomatch h
  refine ⟨_, hreport, fun hnone => ?_, fun hsome => ?_⟩
  · have hread : ∀ a ∈ e.actions r, e.isReadable a := fun a ha => by
      have hcount : ¬ (!e.isReadable a) = true := List.countP_eq_zero.1 hnone a ha
      simpa using hcount
    obtain ⟨p', -, hall⟩ := applyAll_append htime (p := { request := r }) hr hread
    have hrun (halts : Bool) : Engine.run { e with haltOnFault := halts } r = { progress := p' } := by
      have happly := hall halts 0 []
      rw [List.append_nil] at happly
      exact happly
    exact (hrun true).trans (hrun false).symm
  · -- the first action that cannot be applied
    obtain ⟨b, hb, hunread⟩ := List.countP_pos_iff.1 (Nat.pos_of_ne_zero hsome)
    obtain ⟨a, ha⟩ : ∃ a, (e.actions r).find? (fun a => !e.isReadable a) = some a :=
      Option.isSome_iff_exists.1 (List.find?_isSome.2 ⟨b, hb, hunread⟩)
    obtain ⟨hfails, before, after, hactions, hbefore⟩ := List.find?_eq_some_iff_append.1 ha
    have hread : ∀ b ∈ before, e.isReadable b := fun b hb => by simpa using hbefore b hb
    obtain ⟨fault, hfault⟩ : ∃ fault, a.unreadable? e.readQuery = some fault := by
      simpa [isReadable, Option.isSome_iff_exists] using hfails
    obtain ⟨rules, rule, rules', hrules, hrejected, hothers, hlabel⟩ :=
      Action.exists_isRejected hfault
    obtain ⟨p', hp', hall⟩ :=
      applyAll_append (e := skipping) htime (p := { request := r }) hr hread
    have hrun : halting.run r = { progress := p', halt := some (.unreadable fault) } := by
      have happly := hall true 0 (a :: after)
      rw [applyAll, if_neg (by simp [skipping, htime]),
        apply_of_unreadable (e := { skipping with haltOnFault := true }) hfault] at happly
      unfold run
      rw [show halting.actions r = before ++ a :: after from hactions]
      exact happly
    refine ⟨before, a, after, rules, rule, rules', fault, hactions, hrules, hrejected, ?_, hlabel,
      ?_, ?_⟩
    · refine List.forall_mem_append.2 ⟨fun other hother => ?_, hothers⟩
      obtain ⟨b, hb, hother⟩ := List.mem_flatMap.1 hother
      exact isReadable_iff.1 (hread b hb) other hother
    · rw [hrun]
      rfl
    · rw [hrun]
      exact hp'

/-- Of the actions of three rules the second one has a query that is rejected. -/
theorem run_halting_second :
    let tv : Literal := { value := "tv" }
    let stand : Literal := { value := "stand" }
    let rules := [
      .make (.phrase [tv]) 0 (.string "a") [.delete none, .decorate "screen" none] [],
      .make (.phrase [tv, stand]) 1 (.string "b")
        [.delete none, .boost .up (.parsed "oled") .one, .filter (.parsed "+")] [],
      .make (.phrase [stand]) 2 (.string "c") [.synonym [{ value := "rack" }] .one] []]
    let r : Request :=
      { query := .ofTerms [(.should, { value := "TV" }), (.should, { value := "stand" })] }
    let e : Engine := { ruleset := .build {} rules, readQuery := Query.ofWords }
    let halting : Engine := { e with haltOnFault := true }
    (e.run r).progress.applied = ["a", "c"] ∧ (e.run r).progress.skipped = 1 ∧
    (∃ before a after fault, e.actions r = before ++ a :: after ∧ fault.ruleId = "b" ∧
      (halting.run r).report = .error (.unreadable fault) ∧
      before.foldlM (fun p a => e.apply a p) { request := r } = .ok (halting.run r).progress) ∧
    (halting.run r).progress.applied = ["a"] ∧ (halting.run r).request.query.text = "stand" := by
  intro tv stand rules r e halting
  have hr : r.query.WellFormed := (Query.regular_ofTerms _).wellFormed
  have hskipped : (e.run r).progress.skipped = 1 := by decide +kernel
  obtain ⟨report, hreport, -, hsome⟩ := run_halting e hr fun _ => rfl
  have hreport' : (e.run r).report = .ok report := hreport
  have hcount : report.skipped = 1 := by
    unfold Outcome.report at hreport'
    split at hreport'
    · cases hreport'
    · rw [← Except.ok.inj hreport', ← hskipped]
  obtain ⟨before, a, after, -, -, -, fault, hactions, -, -, -, -, hhalt, hbefore⟩ :=
    hsome (by rw [hcount]; decide)
  have hrun : (halting.run r).halt = some (.unreadable
      ⟨"b", .filter, "+", .invalidToken "+" "operator without a term"⟩) := by decide +kernel
  have hlabel : fault.ruleId = "b" := by
    unfold Outcome.report at hhalt
    split at hhalt
    · rename_i halt hhalt'
      obtain rfl := Except.error.inj hhalt
      have hfault := Halt.unreadable.inj (Option.some.inj (hhalt'.symm.trans hrun))
      exact congrArg UnreadableQuery.ruleId hfault
    · cases hhalt
  exact ⟨by decide +kernel, hskipped, ⟨before, a, after, fault, hactions, hlabel, hhalt, hbefore⟩,
    by decide +kernel, by decide +kernel⟩

end Engine

end QueryRules
