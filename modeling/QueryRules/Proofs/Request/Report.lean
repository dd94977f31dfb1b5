import QueryRules.Proofs.Request.Frame

/-!
# What a run reports

- `Engine.applyAll_untimed`: without a time limit, and if no query that cannot be read ends the run,
  every action is applied or counted as left out.
- `Engine.report_run`: so the report depends on the actions of the request only.
-/

namespace QueryRules

/-- No step cuts a run short. -/
theorem Progress.cutShort_take {config : Config} {a : Action} {p p' : Progress} {step : Step}
    (h : p.take config a step = .ok p') : p'.cutShort = p.cutShort := by
  cases step with
  | addSynonyms terms weight =>
    obtain ⟨q, -, h⟩ := bind_eq_ok_iff.1 h
    rw [← Except.ok.inj h]
    rfl
  | _ => exact Except.ok.inj h ▸ rfl

theorem Progress.cutShort_takeRule {config : Config} {a : Action} {p p' : Progress}
    {rule : Rule × List Step} (h : p.takeRule config a rule = .ok p') :
    p'.cutShort = p.cutShort := by
  obtain ⟨p₁, h₁, h⟩ := bind_eq_ok_iff.1 h
  have hsteps : p₁.cutShort = p.cutShort :=
    foldlM_keeps Progress.cutShort (fun _ _ _ => cutShort_take) h₁
  rw [← Except.ok.inj h]
  exact hsteps

namespace Engine

variable {e : Engine} {a : Action} {as : List Action} {p p' : Progress} {r : Request}

theorem cutShort_apply (h : e.apply a p = .ok p') : p'.cutShort = p.cutShort := by
  rw [apply_eq] at h
  split at h
  · split at h
    · exact nomatch h
    · rw [← Except.ok.inj h]
  · exact foldlM_keeps Progress.cutShort (fun _ _ _ => Progress.cutShort_takeRule)
      (mapError_eq_ok_iff.1 h)

/-- Without a time limit the actions whose queries can be read are applied and the others are left
out, unless one of these ends the run. -/
theorem applyAll_untimed (htime : ∀ n, e.isTimeUp n = false)
    (hread : e.haltOnFault = true → ∀ a ∈ as, e.isReadable a) (n : Nat)
    (hp : p.request.query.WellFormed) : ∃ p', e.applyAll n p as = { progress := p' } ∧
      p'.cutShort = p.cutShort ∧
      p.Effect e.readQuery ((as.filter e.isReadable).flatMap Action.instructions)
        ((as.filter e.isReadable).flatMap (Action.deleted e.ruleset.config))
        ((as.filter e.isReadable).flatMap Action.messages)
        (as.countP fun a => !e.isReadable a) p' := by
  induction as generalizing n p with
  | nil => exact ⟨p, rfl, rfl, .refl _ hp⟩
  | cons a as ih =>
    have hread' : e.haltOnFault = true → ∀ a ∈ as, e.isReadable a := fun hhalt b hb =>
      hread hhalt b (List.mem_cons_of_mem a hb)
    rw [applyAll, if_neg (by simp [htime]), List.filter_cons, List.countP_cons]
    cases ha : a.unreadable? e.readQuery with
    | none =>
      have hreadable : e.isReadable a = true := by rw [isReadable, ha]; rfl
      obtain ⟨p₁, hp₁, h₁⟩ := effect_apply hp ha
      obtain ⟨p₂, hp₂, hcut, h₂⟩ := ih hread' (n + 1) h₁.framed.wellFormed
      rw [hp₁, hreadable]
      refine ⟨p₂, hp₂, hcut.trans (cutShort_apply hp₁), ?_⟩
      simpa using h₁.trans hp h₂
    | some fault =>
      have hreadable : e.isReadable a = false := by rw [isReadable, ha]; rfl
      have hhalt : ¬ e.haltOnFault := fun hhalt =>
        Bool.false_ne_true (hreadable.symm.trans (hread hhalt a List.mem_cons_self))
      obtain ⟨p₂, hp₂, hcut, h₂⟩ := ih hread' (n + 1) (p := { p with skipped := p.skipped + 1 }) hp
      rw [apply_of_unreadable ha, if_neg hhalt, hreadable]
      have hskip : p.Effect e.readQuery [] [] [] 1 { p with skipped := p.skipped + 1 } :=
        { Progress.Effect.refl e.readQuery hp with skipped := rfl }
      refine ⟨p₂, hp₂, hcut, ?_⟩
      simpa [Nat.add_comm] using hskip.trans hp h₂

/-- What is reported if every action is applied or left out. -/
def fullReport (e : Engine) (as : List Action) : Report where
  applied := (as.filter e.isReadable).flatMap Action.messages
  skipped := as.countP fun a => !e.isReadable a
  cutShort := false
  decorations := (((as.filter e.isReadable).flatMap Action.instructions).filterMap
    Instruction.decoration?).foldl Decorations.add {}

/-- Without a time limit the report depends on the actions of the request only. -/
theorem report_run (htime : ∀ n, e.isTimeUp n = false) (hr : r.query.WellFormed)
    (hread : e.haltOnFault = true → ∀ a ∈ e.actions r, e.isReadable a) :
    (e.run r).report = .ok (e.fullReport (e.actions r)) := by
  obtain ⟨p', hp', hcut, h⟩ := applyAll_untimed htime hread 0 (p := { request := r }) hr
  rw [run, hp', Outcome.report, Outcome.decorations]
  dsimp only
  rw [h.applied, h.skipped, h.decorations, hcut, List.nil_append, List.nil_append, Nat.zero_add]
  rfl

end Engine

end QueryRules
