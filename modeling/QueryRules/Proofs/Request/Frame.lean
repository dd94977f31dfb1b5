import QueryRules.Proofs.Match.Actions
import QueryRules.Proofs.Query.Candidates
import QueryRules.Proofs.Request.Effect

/-!
# What a run leaves alone

- `Engine.applied`: the actions that a run applies. `Engine.effect_run`: a run has the effect of
  these actions.
- `Engine.exists_term?_of_mem_actions`: the terms of an action are terms of the query before the
  run.
- `Engine.run_frame`: what the run deletes, and that nothing else of the request is changed.
-/

namespace QueryRules

/-- The terms that an instruction deletes are matched terms that a delete instruction names. -/
theorem Instruction.mem_deleted {config : Config} {matched : List Candidate} {i : Instruction}
    {id : Nat} : id ∈ i.deleted config matched ↔
      ∃ terms, i = .delete terms ∧ ∃ c ∈ matched, config.names terms c ∧ c.id = id := by
  cases i <;> simp [deleted, and_assoc]

namespace Engine

variable {e : Engine} {n : Nat} {a : Action} {as : List Action} {p : Progress} {r : Request}

/-! ## The actions that are applied -/

/-- Every query of the action can be read. -/
def isReadable (e : Engine) (a : Action) : Bool := (a.unreadable? e.readQuery).isNone

/-- The actions that are reached before time is up; the first one has the number `n`. -/
def inTime (e : Engine) (n : Nat) (as : List Action) : List Action :=
  ((as.zipIdx n).takeWhile fun p => !e.isTimeUp p.2).map Prod.fst

/-- The actions that are applied: of those in time the ones whose queries can be read, up to the
first one that ends the run. -/
def applied (e : Engine) (n : Nat) (as : List Action) : List Action :=
  if e.haltOnFault then (e.inTime n as).takeWhile e.isReadable
  else (e.inTime n as).filter e.isReadable

theorem inTime_cons (e : Engine) (n : Nat) (a : Action) (as : List Action) :
    e.inTime n (a :: as) = if e.isTimeUp n then [] else a :: e.inTime (n + 1) as := by
  unfold inTime
  rw [List.zipIdx_cons, List.takeWhile_cons]
  cases e.isTimeUp n <;> rfl

theorem applied_of_isTimeUp (h : e.isTimeUp n) (as : List Action) : e.applied n as = [] := by
  cases as with
  | nil => simp [applied, inTime]
  | cons a as => simp [applied, inTime_cons, h]

theorem applied_cons_of_readable (ht : ¬ e.isTimeUp n) (ha : e.isReadable a) (as : List Action) :
    e.applied n (a :: as) = a :: e.applied (n + 1) as := by
  unfold applied
  rw [inTime_cons, if_neg ht, List.takeWhile_cons_of_pos ha, List.filter_cons_of_pos ha]
  split <;> rfl

theorem applied_cons_of_unreadable (ht : ¬ e.isTimeUp n) (ha : ¬ e.isReadable a)
    (as : List Action) :
    e.applied n (a :: as) = if e.haltOnFault then [] else e.applied (n + 1) as := by
  unfold applied
  rw [inTime_cons, if_neg ht, List.takeWhile_cons_of_neg ha, List.filter_cons_of_neg ha]
  split <;> rfl

theorem mem_of_mem_applied (h : a ∈ e.applied n as) : a ∈ as := by
  have htime : a ∈ e.inTime n as := by
    unfold applied at h
    split at h
    · exact List.takeWhile_subset _ h
    · exact List.mem_of_mem_filter h
  obtain ⟨⟨b, i⟩, hb, rfl⟩ := List.mem_map.1 htime
  exact List.fst_mem_of_mem_zipIdx (List.takeWhile_subset _ hb)

/-! ## The effect of a run -/

/-- Actions one after the other have the effect of those that are applied. -/
theorem effect_applyAll (e : Engine) (n : Nat) (as : List Action)
    (hp : p.request.query.WellFormed) : ∃ skipped,
      p.Effect e.readQuery ((e.applied n as).flatMap Action.instructions)
        ((e.applied n as).flatMap (Action.deleted e.ruleset.config))
        ((e.applied n as).flatMap Action.messages) skipped (e.applyAll n p as).progress := by
  induction as generalizing n p with
  | nil =>
    refine ⟨0, ?_⟩
    have hnone : e.applied n [] = [] := by simp [applied, inTime]
    rw [hnone]
    exact .refl _ hp
  | cons a as ih =>
    rw [applyAll]
    by_cases ht : e.isTimeUp n
    · rw [if_pos ht, applied_of_isTimeUp ht]
      exact ⟨0, { Progress.Effect.refl e.readQuery hp with skipped := rfl }⟩
    rw [if_neg ht]
    cases ha : a.unreadable? e.readQuery with
    | none =>
      obtain ⟨p₁, hp₁, h₁⟩ := effect_apply hp ha
      obtain ⟨skipped, h₂⟩ := ih (n + 1) h₁.framed.wellFormed
      rw [hp₁, applied_cons_of_readable ht (by rw [isReadable, ha]; rfl)]
      exact ⟨0 + skipped, h₁.trans hp h₂⟩
    | some fault =>
      rw [apply_of_unreadable ha, applied_cons_of_unreadable ht (by simp [isReadable, ha])]
      by_cases hhalt : e.haltOnFault
      · rw [if_pos hhalt, if_pos hhalt]
        exact ⟨0, .refl _ hp⟩
      · rw [if_neg hhalt, if_neg hhalt]
        obtain ⟨skipped, h₂⟩ := ih (n + 1) (p := { p with skipped := p.skipped + 1 }) hp
        have hskip : p.Effect e.readQuery [] [] [] 1 { p with skipped := p.skipped + 1 } :=
          { Progress.Effect.refl e.readQuery hp with skipped := rfl }
        exact ⟨1 + skipped, hskip.trans hp h₂⟩

/-- A run has the effect of the actions that it applies. -/
theorem effect_run (e : Engine) (hr : r.query.WellFormed) : ∃ skipped,
    Progress.Effect e.readQuery ((e.applied 0 (e.actions r)).flatMap Action.instructions)
      ((e.applied 0 (e.actions r)).flatMap (Action.deleted e.ruleset.config))
      ((e.applied 0 (e.actions r)).flatMap Action.messages) skipped
      { request := r } (e.run r).progress :=
  e.effect_applyAll 0 (e.actions r) hr

/-! ## The terms of actions -/

/-- The actions of a request are found in its sequences. -/
theorem exists_of_mem_actionsFrom {s : Ruleset} {reported : List Nat} {sequences : List Sequence}
    (h : a ∈ actionsFrom s reported sequences) :
    ∃ sequence ∈ sequences, ∃ reported, a ∈ (s.scan sequence reported).1 := by
  induction sequences generalizing reported with
  | nil => exact nomatch h
  | cons sequence sequences ih =>
    rcases List.mem_append.1 h with h | h
    · exact ⟨sequence, by simp, reported, h⟩
    · obtain ⟨sequence', hm, h⟩ := ih h
      exact ⟨sequence', List.mem_cons_of_mem _ hm, h⟩

/-- The terms of an action are terms of the query that no rule has made. -/
theorem exists_term?_of_mem_actions (h : a ∈ e.actions r) {c : Candidate} (hc : c ∈ a.terms) :
    ∃ t, r.query.term? c.id = some t ∧ c.value = t.value ∧ c.fields = t.fields ∧
      t.generated = false := by
  obtain ⟨sequence, hs, reported, ha⟩ := exists_of_mem_actionsFrom h
  exact Query.exists_term?_of_mem_sequences hs (Ruleset.mem_flatten_of_mem_scan ha hc)

/-- What an action of a request deletes are the matched terms that a delete instruction of its rules
names. -/
theorem mem_deleted_of_mem_actions (h : a ∈ e.actions r) {id : Nat} {t : Term}
    (ht : r.query.term? id = some t) :
    id ∈ a.deleted e.ruleset.config ↔ ∃ rule ∈ a.rules, ∃ terms,
      .delete terms ∈ rule.instructions ∧ id ∈ a.terms.map Candidate.id ∧
      ∀ literals ∈ terms, ∃ l ∈ literals,
        l.matchesValue (e.ruleset.config.normalize t.value) ∧ l.allowsFields t.fields := by
  -- a candidate with this number has the value and the fields of the term
  have hcandidate (terms : Option (List Literal)) :
      (∃ c ∈ a.terms, e.ruleset.config.names terms c ∧ c.id = id) ↔
        id ∈ a.terms.map Candidate.id ∧ ∀ literals ∈ terms, ∃ l ∈ literals,
          l.matchesValue (e.ruleset.config.normalize t.value) ∧ l.allowsFields t.fields := by
    have hterm {c : Candidate} (hc : c ∈ a.terms) (hid : c.id = id) :
        c.value = t.value ∧ c.fields = t.fields := by
      obtain ⟨t', ht', hvalue, hfields, -⟩ := exists_term?_of_mem_actions h hc
      rw [hid, ht] at ht'
      obtain rfl := Option.some.inj ht'
      exact ⟨hvalue, hfields⟩
    constructor
    · rintro ⟨c, hc, hnames, hid⟩
      obtain ⟨hvalue, hfields⟩ := hterm hc hid
      rw [Config.names_iff, hvalue, hfields] at hnames
      exact ⟨List.mem_map.2 ⟨c, hc, hid⟩, hnames⟩
    · rintro ⟨hm, hnames⟩
      obtain ⟨c, hc, hid⟩ := List.mem_map.1 hm
      obtain ⟨hvalue, hfields⟩ := hterm hc hid
      refine ⟨c, hc, ?_, hid⟩
      rw [Config.names_iff, hvalue, hfields]
      exact hnames
  unfold Action.deleted Action.instructions
  simp only [List.mem_flatMap, Instruction.mem_deleted, hcandidate]
  constructor
  · rintro ⟨_, ⟨rule, hrule, hi⟩, terms, rfl, hm⟩
    exact ⟨rule, hrule, terms, hi, hm⟩
  · rintro ⟨rule, hrule, terms, hi, hm⟩
    exact ⟨_, ⟨rule, hrule, hi⟩, terms, rfl, hm⟩

/-! ## The frame of a run -/

/-- After a run, also one that has ended early: a term is gone if and only if an action that was
applied has matched it and deletes it. A node that is still there has its own data, its parent and,
in the same order, those of its children that are still there. A node that was not there before is
marked as made by a rule, and new boosts and filters stand behind the old ones. -/
theorem run_frame (e : Engine) {r : Request} (hr : r.query.WellFormed) :
    let r' := (e.run r).request
    let applied := e.applied 0 (e.actions r)
    (e.run r).progress.applied = applied.flatMap Action.messages ∧
    (∀ id t, r.query.term? id = some t → (r'.query.isLive id = false ↔
      ∃ a ∈ applied, ∃ rule ∈ a.rules, ∃ terms, .delete terms ∈ rule.instructions ∧
        id ∈ a.terms.map Candidate.id ∧ ∀ literals ∈ terms, ∃ l ∈ literals,
          l.matchesValue (e.ruleset.config.normalize t.value) ∧ l.allowsFields t.fields)) ∧
    (∀ id n n', r.query.lookup? id = some n → r'.query.lookup? id = some n' →
      n'.parent = n.parent ∧ n'.node.bare = n.node.bare ∧
      n'.node.children.filter r.query.isLive = n.node.children.filter r'.query.isLive) ∧
    (∀ id n', r.query.lookup? id = none → r'.query.lookup? id = some n' →
      n'.node.isGenerated) ∧
    r.ups <+: r'.ups ∧ r.downs <+: r'.downs ∧ r.filters <+: r'.filters := by
  intro r' applied
  obtain ⟨skipped, h⟩ := e.effect_run hr
  refine ⟨h.applied, fun id t ht => ?_, fun id n n' hn hn' => ?_, fun id n' hn hn' => ?_,
    h.ups.isPrefix, h.downs.isPrefix, h.filters.isPrefix⟩
  · have hactions (a : Action) (ha : a ∈ applied) :=
      mem_deleted_of_mem_actions (mem_of_mem_applied ha) ht
    refine (h.isLive_eq_false_iff ht).trans (List.mem_flatMap.trans ?_)
    constructor
    · rintro ⟨a, ha, hid⟩
      exact ⟨a, ha, (hactions a ha).1 hid⟩
    · rintro ⟨a, ha, hid⟩
      exact ⟨a, ha, (hactions a ha).2 hid⟩
  · obtain ⟨hparent, hbare⟩ := h.framed.kept id n n' hn hn'
    exact ⟨hparent, hbare, h.framed.order id n n' hn hn'⟩
  · exact (h.framed.fresh id n' hn hn').1

/-- A run that ends at the second of two actions, whose filter is no query: the first one has
deleted one of the terms that it has matched. -/
theorem run_frame_halted :
    let rules := [
      .make (.phrase [{ value := "big" }, { value := "house" }]) 0 (.string "a")
        [.delete (some [{ value := "big" }])] [],
      .make (.phrase [{ value := "house" }]) 1 (.string "b")
        [.filter (.parsed "+"), .delete none] []]
    let r : Request :=
      { query := .ofTerms [(.should, { value := "Big" }), (.must, { value := "house" })]
        filters := [.raw "sale"] }
    let e : Engine :=
      { ruleset := .build {} rules, readQuery := Query.ofWords, haltOnFault := true }
    r.query.WellFormed ∧ (e.run r).halt.isSome ∧
    (∃ a ∈ e.applied 0 (e.actions r), ∃ rule ∈ a.rules, ∃ terms,
      .delete terms ∈ rule.instructions ∧ 2 ∈ a.terms.map Candidate.id) ∧
    (e.run r).request.query.isLive 4 ∧ [.raw "sale"] <+: (e.run r).request.filters := by
  intro rules r e
  have hr : r.query.WellFormed := (Query.regular_ofTerms _).wellFormed
  obtain ⟨-, hterms, -, -, -, -, hfilters⟩ := run_frame e hr
  have hgone : (e.run r).request.query.isLive 2 = false := by decide +kernel
  obtain ⟨a, ha, rule, hrule, terms, hi, hid, -⟩ :=
    (hterms 2 { value := "Big" } (by decide +kernel)).1 hgone
  exact ⟨hr, by decide +kernel, ⟨a, ha, rule, hrule, terms, hi, hid⟩, by decide +kernel, hfilters⟩

end Engine

end QueryRules
