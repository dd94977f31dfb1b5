import QueryRules.Proofs.Query.Filled
import QueryRules.Proofs.Request.Rerun
import QueryRules.Proofs.Request.Safety

/-!
# Runs leave no clause empty

- `Engine.applyAll_invariant`: what synonyms and deletions keep of a query, a run keeps.
- `Engine.run_filled`: so no boolean query and no group below the root is without children after
  any number of runs, if none was before them.
-/

namespace QueryRules

/-- What adding synonyms of at least one term and removing a term keep of a query. -/
structure Query.KeptByRules (P : Query → Prop) : Prop where
  addSynonyms : ∀ {q q' : Query} {matched : List Nat} {terms : List Term}, P q → terms ≠ [] →
    q.addSynonyms matched terms = .ok q' → P q'
  eraseTerm : ∀ {q : Query} (id : Nat), P q → P (q.eraseTerm id)

theorem Query.KeptByRules.eraseTerms {P : Query → Prop} (hP : KeptByRules P) {q : Query}
    (ids : List Nat) (h : P q) : P (ids.foldl Query.eraseTerm q) := by
  induction ids generalizing q with
  | nil => exact h
  | cons id ids ih => exact ih (hP.eraseTerm id h)

/-- The instruction, if it adds synonyms, lists at least one term. -/
def Instruction.listsTerms : Instruction → Bool
  | synonym terms _ => !terms.isEmpty
  | _ => true

theorem Instruction.ne_nil_of_listsTerms {terms : List Literal} {weight : Weight}
    (h : (synonym terms weight).listsTerms) : terms ≠ [] := by
  rintro rfl
  exact nomatch h

namespace Progress

variable {P : Query → Prop} {config : Config} {a : Action} {rule : Rule}
  {parse : String → Except QueryFault Query} {p p' : Progress}

theorem take_invariant (hP : Query.KeptByRules P) {i : Instruction} {step : Step}
    (hi : i.listsTerms) (hs : Step.ofInstruction parse rule i = .ok step)
    (h : P p.request.query) (ht : p.take config a step = .ok p') : P p'.request.query := by
  cases i with
  | synonym terms weight =>
    obtain rfl := Except.ok.inj hs
    obtain ⟨q, hq, ht⟩ := bind_eq_ok_iff.1 ht
    obtain rfl := Except.ok.inj ht
    have hne := Instruction.ne_nil_of_listsTerms hi
    exact hP.addSynonyms h (fun hnil => hne (List.map_eq_nil_iff.1 hnil)) hq
  | boost direction text weight =>
    obtain ⟨q, -, rfl⟩ := exists_of_map_eq_ok hs
    obtain rfl := Except.ok.inj ht
    cases direction <;> exact h
  | filter text =>
    obtain ⟨q, -, rfl⟩ := exists_of_map_eq_ok hs
    obtain rfl := Except.ok.inj ht
    exact h
  | delete terms =>
    obtain rfl := Except.ok.inj hs
    obtain rfl := Except.ok.inj ht
    show P (deleteTerms config a.terms terms p.request.query)
    rw [deleteTerms_eq]
    exact hP.eraseTerms _ h
  | decorate value key =>
    cases key <;> obtain rfl := Except.ok.inj hs <;> exact Except.ok.inj ht ▸ h
  | replace value =>
    obtain rfl := Except.ok.inj hs
    obtain rfl := Except.ok.inj ht
    exact h

theorem takeRule_invariant (hP : Query.KeptByRules P) {steps : List Step}
    (hi : ∀ i ∈ rule.instructions, i.listsTerms) (hs : Step.ofRule parse rule = .ok steps)
    (h : P p.request.query) (ht : p.takeRule config a (rule, steps) = .ok p') :
    P p'.request.query := by
  obtain ⟨p₁, hp₁, ht⟩ := bind_eq_ok_iff.1 ht
  obtain rfl := Except.ok.inj ht
  refine foldlM_invariant (P := fun p => P p.request.query) h (fun p₂ h₂ step hm p₃ h₃ => ?_) hp₁
  obtain ⟨i, hmem, hi'⟩ := exists_of_mem_mapM hs hm
  exact take_invariant hP (hi i hmem) hi' h₂ h₃

end Progress

namespace Engine

variable {P : Query → Prop} {e : Engine} {a : Action} {as : List Action} {p p' : Progress}

theorem apply_invariant (hP : Query.KeptByRules P) (hi : ∀ i ∈ a.instructions, i.listsTerms)
    (h : P p.request.query) (ha : e.apply a p = .ok p') : P p'.request.query := by
  rw [apply_eq] at ha
  split at ha
  · split at ha
    · exact nomatch ha
    · obtain rfl := Except.ok.inj ha
      exact h
  · rename_i prepared hprepared
    refine foldlM_invariant (P := fun p => P p.request.query) h (fun p₁ h₁ r hm p₂ h₂ => ?_)
      (mapError_eq_ok_iff.1 ha)
    obtain ⟨rule, hrule, hr⟩ := exists_of_mem_mapM hprepared hm
    obtain ⟨steps, hsteps, rfl⟩ := exists_of_map_eq_ok hr
    exact Progress.takeRule_invariant hP
      (fun i hmem => hi i (List.mem_flatMap.2 ⟨rule, hrule, hmem⟩)) hsteps h₁ h₂

/-- What synonyms and deletions keep of a query, actions one after the other keep, also if time is up
or a fault ends them. -/
theorem applyAll_invariant (hP : Query.KeptByRules P)
    (hi : ∀ a ∈ as, ∀ i ∈ a.instructions, i.listsTerms) (n : Nat) (h : P p.request.query) :
    P (e.applyAll n p as).request.query := by
  induction as generalizing n p with
  | nil => exact h
  | cons a as ih =>
    obtain ⟨ha, has⟩ := List.forall_mem_cons.1 hi
    unfold applyAll
    split
    · exact h
    · split
      · rename_i p₁ hp₁
        exact ih has (n + 1) (apply_invariant hP ha h hp₁)
      · exact h

theorem run_invariant (hP : Query.KeptByRules P)
    (hi : ∀ rule ∈ e.ruleset.rules, ∀ i ∈ rule.instructions, i.listsTerms) {r : Request}
    (h : P r.query) : P (e.run r).request.query := by
  refine applyAll_invariant hP (fun a ha i hm => ?_) 0 h
  obtain ⟨rule, hrule, hm⟩ := List.mem_flatMap.1 hm
  exact hi rule (mem_rules_of_mem_actions ha hrule) i hm

theorem runAll_invariant (hP : Query.KeptByRules P) {es : List Engine}
    (hi : ∀ e ∈ es, ∀ rule ∈ e.ruleset.rules, ∀ i ∈ rule.instructions, i.listsTerms) {r : Request}
    (h : P r.query) : P (runAll es r).query := by
  unfold runAll
  induction es generalizing r with
  | nil => exact h
  | cons e es ih =>
    obtain ⟨he, hes⟩ := List.forall_mem_cons.1 hi
    exact ih hes (run_invariant hP he h)

/-- If every synonym instruction lists at least one term, and every boolean query and every group
below the root of a query has a child, then so it is after any number of runs. -/
theorem run_filled {es : List Engine}
    (hes : ∀ e ∈ es, ∀ rule ∈ e.ruleset.rules, ∀ terms weight,
      .synonym terms weight ∈ rule.instructions → terms ≠ [])
    {r : Request} (hr : r.query.Regular)
    (hfilled : ∀ id n, id ≠ Query.root → r.query.lookup? id = some n → n.node.kind ≠ .term →
      n.node.children ≠ []) :
    let q := (runAll es r).query
    ∀ id n, id ≠ Query.root → q.lookup? id = some n → n.node.kind ≠ .term →
      n.node.children ≠ [] := by
  intro q id n hid hn hk hnone
  have hP : Query.KeptByRules fun q => q.Regular ∧ q.Filled :=
    { addSynonyms := fun h hne ha => h.2.addSynonyms h.1 hne ha
      eraseTerm := fun id h => ⟨h.1.eraseTerm id, h.2.eraseTerm h.1 id⟩ }
  have hi : ∀ e ∈ es, ∀ rule ∈ e.ruleset.rules, ∀ i ∈ rule.instructions, i.listsTerms := by
    intro e he rule hrule i hm
    cases i with
    | synonym terms weight =>
      have hne := hes e he rule hrule terms weight hm
      cases terms with
      | nil => exact absurd rfl hne
      | cons l ls => rfl
    | _ => rfl
  have hr' : r.query.Filled := by
    rintro id ⟨n, hn, hk, hnone⟩
    by_contra hid
    exact hfilled id n hid hn hk hnone
  exact hid ((runAll_invariant hP hi ⟨hr, hr'⟩).2 id ⟨n, hn, hk, hnone⟩)

/-- A nested query loses its last term, and with it the group that it was the only alternative of,
while other rules add alternatives to that group and to another one. -/
theorem run_filled_nested :
    let rules := [
      .make (.phrase [{ value := "smart" }, { value := "tv" }]) 0 (.string "a")
        [.synonym [{ value := "oled" }, { value := "screen" }] .one] [],
      .make (.phrase [{ value := "tv" }]) 1 (.string "b") [.delete none] [],
      .make (.phrase [{ value := "old" }]) 2 (.string "c")
        [.delete none, .synonym [{ value := "used" }] .one] []]
    let e : Engine := { ruleset := .build {} rules, readQuery := Query.ofWords }
    let r : Request :=
      { query := (Query.ofTerms [(.should, { value := "smart" }), (.should, { value := "tv" })]).edits
          [.addGroup 0 .must false, .addNested 5 .should false, .addGroup 6 .must false,
            .addTerm 7 { value := "old" }] }
    r.query.text = "smart tv +[+old]" ∧
    (∀ rule ∈ e.ruleset.rules, ∀ terms weight,
      .synonym terms weight ∈ rule.instructions → terms ≠ []) ∧
    (runAll [e] r).query.text = "(smart | [+oled +screen]) [+oled +screen]" ∧
    let q := (runAll [e, e] r).query
    ∀ id n, id ≠ Query.root → q.lookup? id = some n → n.node.kind ≠ .term →
      n.node.children ≠ [] := by
  intro rules e r
  have hr : r.query.Regular := ((Query.regular_ofTerms _).edits _).1
  have hall : ∀ id < r.query.entries.length, id ≠ Query.root → ∀ n ∈ r.query.lookup? id,
      n.node.kind ≠ .term → n.node.children ≠ [] := by decide +kernel
  have hterms : ∀ rule ∈ e.ruleset.rules, ∀ i ∈ rule.instructions, i.listsTerms := by
    decide +kernel
  have hrules : ∀ rule ∈ e.ruleset.rules, ∀ terms weight,
      .synonym terms weight ∈ rule.instructions → terms ≠ [] := fun rule hrule terms weight hm =>
    Instruction.ne_nil_of_listsTerms (hterms rule hrule _ hm)
  refine ⟨by decide +kernel, hrules, by decide +kernel, ?_⟩
  refine run_filled (fun e' he' => ?_) hr fun id n hid hn =>
    hall id (Query.lt_length_of_lookup? hn) hid n hn
  simp only [List.mem_cons, List.not_mem_nil, or_false, or_self] at he'
  rw [he']
  exact hrules

end Engine

end QueryRules
