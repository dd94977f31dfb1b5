import QueryRules.Proofs.Query.Alternatives
import QueryRules.Proofs.Query.Edits
import QueryRules.Proofs.Request.Queue

/-!
# What actions do to a request

- `QueryText.Builds`, `Instruction.BuildsBoost`, `Instruction.BuildsFilter`: the boost or filter
  that an instruction asks for. `Action.unreadable?` is why the first query of an action that cannot
  be read cannot.
- `Progress.Effect`: what instructions have done to a request. Effects compose (`Effect.trans`), so
  that they describe one step, the steps of a rule, an action and any number of actions.
- `Engine.effect_apply`, `Engine.apply_of_unreadable`: an action has the effect of all its
  instructions or none. `Engine.apply_whole` says so of what it adds to a request. Both rest on
  `Engine.apply_eq`: no instruction takes the query of another one from the queue.
-/

namespace QueryRules

/-! ## What instructions ask for -/

/-- The query that a text asks for, with every node marked as made by a rule. The clauses of a
filter must hold. -/
inductive QueryText.Builds (parse : String → Except QueryFault Query) (required : Bool) :
    QueryText → AttachedQuery → Prop
  | raw (text : String) : Builds parse required (.raw text) (.raw text)
  | parsed {text : String} {q : Query} (h : parse text = .ok q) :
    Builds parse required (.parsed text)
      (.query (if required then q.requireAll else q).asGenerated)

namespace Instruction

variable (parse : String → Except QueryFault Query)

/-- The boost that an instruction asks for: its own query with its own weight. -/
inductive BuildsBoost : Instruction → Boost → Prop
  | boost {text : QueryText} {q : AttachedQuery} (h : text.Builds parse false q)
    (direction : Direction) (weight : Weight) :
    BuildsBoost (.boost direction text weight) ⟨q, weight⟩

/-- The filter that an instruction asks for. -/
inductive BuildsFilter : Instruction → AttachedQuery → Prop
  | filter {text : QueryText} {q : AttachedQuery} (h : text.Builds parse true q) :
    BuildsFilter (.filter text) q

/-- The decoration that an instruction asks for. -/
def decoration? : Instruction → Option Decoration
  | decorate value none => some (.unnamed value)
  | decorate value (some key) => some (.named key value)
  | _ => none

end Instruction

/-- A delete instruction names a matched term: it has no term list, or one of its literals accepts
the term. -/
def Config.names (config : Config) (terms : Option (List Literal)) (c : Candidate) : Bool :=
  match terms with
  | none => true
  | some literals =>
    literals.any fun l => l.matchesValue (config.normalize c.value) && l.allowsFields c.fields

theorem Config.names_iff {config : Config} {terms : Option (List Literal)} {c : Candidate} :
    config.names terms c ↔ ∀ literals ∈ terms, ∃ l ∈ literals,
      l.matchesValue (config.normalize c.value) ∧ l.allowsFields c.fields := by
  cases terms <;> simp [names]

/-- The numbers of the matched terms that an instruction deletes. -/
def Instruction.deleted (config : Config) (matched : List Candidate) : Instruction → List Nat
  | delete terms => (matched.filter (config.names terms)).map Candidate.id
  | _ => []

/-- Why the query of an instruction of a rule cannot be read, if it cannot. -/
def Rule.unreadable? (parse : String → Except QueryFault Query) (rule : Rule) (i : Instruction) :
    Option UnreadableQuery :=
  match i.query? with
  | some (.parsed text) =>
    (fault? (parse text)).map fun fault => ⟨rule.label, i.kind, text, fault⟩
  | _ => none

namespace Action

/-- Why the first query of an action that cannot be read cannot. -/
def unreadable? (parse : String → Except QueryFault Query) (a : Action) : Option UnreadableQuery :=
  a.rules.findSome? fun rule => rule.instructions.findSome? (rule.unreadable? parse)

/-- The instructions of the rules. -/
def instructions (a : Action) : List Instruction := a.rules.flatMap Rule.instructions

/-- The numbers of the terms that an action deletes. -/
def deleted (config : Config) (a : Action) : List Nat :=
  a.instructions.flatMap (Instruction.deleted config a.terms)

/-- The messages of the rules. -/
def messages (a : Action) : List String := a.rules.map Rule.message

theorem unreadable?_eq_none_iff {parse : String → Except QueryFault Query} {a : Action} :
    a.unreadable? parse = none ↔ ∀ i ∈ a.instructions, ∀ text,
      i.query? = some (.parsed text) → ∃ q, parse text = .ok q := by
  have hone (rule : Rule) (i : Instruction) : rule.unreadable? parse i = none ↔
      ∀ text, i.query? = some (.parsed text) → ∃ q, parse text = .ok q := by
    unfold Rule.unreadable?
    split
    · rename_i text hq
      rw [Option.map_eq_none_iff, fault?_eq_none_iff, hq]
      simp
    · rename_i hq
      exact ⟨fun _ text htext => absurd htext (hq text), fun _ => rfl⟩
  simp only [unreadable?, instructions, List.findSome?_eq_none_iff, List.mem_flatMap, hone]
  exact ⟨fun h i ⟨rule, hrule, hi⟩ => h rule hrule i hi,
    fun h rule hrule i hi => h i ⟨rule, hrule, hi⟩⟩

end Action

/-! ## Effects -/

section

variable {α β : Type} {R : α → β → Prop} {as as' : List α} {bs bs' bs'' : List β}

/-- One element for each of some others has been appended to a list, in their order. -/
def Appends (R : α → β → Prop) (as : List α) (bs bs' : List β) : Prop :=
  ∃ cs, bs' = bs ++ cs ∧ List.Forall₂ R as cs

theorem Appends.refl (R : α → β → Prop) (bs : List β) : Appends R [] bs bs :=
  ⟨[], (List.append_nil bs).symm, .nil⟩

theorem Appends.singleton {a : α} {b : β} (h : R a b) (bs : List β) :
    Appends R [a] bs (bs ++ [b]) :=
  ⟨[b], rfl, .cons h .nil⟩

theorem Appends.trans (h : Appends R as bs bs') (h' : Appends R as' bs' bs'') :
    Appends R (as ++ as') bs bs'' := by
  obtain ⟨cs, rfl, hcs⟩ := h
  obtain ⟨cs', rfl, hcs'⟩ := h'
  exact ⟨cs ++ cs', List.append_assoc _ _ _, List.rel_append hcs hcs'⟩

theorem Appends.isPrefix (h : Appends R as bs bs') : bs <+: bs' := by
  obtain ⟨cs, rfl, -⟩ := h
  exact List.prefix_append bs cs

/-- What holds of the old elements and of those that are appended holds of all. -/
theorem Appends.forall_mem (h : Appends R as bs bs') {P : β → Prop} (hbs : ∀ b ∈ bs, P b)
    (hR : ∀ a b, R a b → P b) : ∀ b ∈ bs', P b := by
  obtain ⟨cs, rfl, hcs⟩ := h
  have hnew : ∀ c ∈ cs, P c := by
    induction hcs with
    | nil => exact fun c hc => nomatch hc
    | cons hc _ ih => exact List.forall_mem_cons.2 ⟨hR _ _ hc, ih⟩
  exact List.forall_mem_append.2 ⟨hbs, hnew⟩

end

namespace Progress

/-- What instructions have done to a request, where `deleted` are the numbers of the terms that they
delete. Each boost and each filter has the query of its own instruction, and without deletions the
query of the user is only widened. -/
structure Effect (parse : String → Except QueryFault Query) (is : List Instruction)
    (deleted : List Nat) (messages : List String) (skipped : Nat) (p p' : Progress) : Prop where
  framed : p.request.query.Framed p'.request.query
  widened : deleted = [] → p.request.query.Widened p'.request.query
  terms : ∀ id, id < p.request.query.entries.length → p'.request.query.term? id =
    if id ∈ deleted then none else p.request.query.term? id
  ups : Appends (Instruction.BuildsBoost parse) (is.filter fun i => i.kind = .up)
    p.request.ups p'.request.ups
  downs : Appends (Instruction.BuildsBoost parse) (is.filter fun i => i.kind = .down)
    p.request.downs p'.request.downs
  filters : Appends (Instruction.BuildsFilter parse) (is.filter fun i => i.kind = .filter)
    p.request.filters p'.request.filters
  decorations : p'.decorations = p.decorations ++ is.filterMap Instruction.decoration?
  applied : p'.applied = p.applied ++ messages
  skipped : p'.skipped = p.skipped + skipped

variable {parse : String → Except QueryFault Query} {is is' : List Instruction}
  {deleted deleted' : List Nat} {messages messages' : List String} {skipped skipped' : Nat}
  {p p' p'' : Progress}

theorem Effect.refl (parse : String → Except QueryFault Query) (h : p.request.query.WellFormed) :
    p.Effect parse [] [] [] 0 p where
  framed := .refl h
  widened _ := .refl h
  terms _ _ := rfl
  ups := .refl _ _
  downs := .refl _ _
  filters := .refl _ _
  decorations := (List.append_nil _).symm
  applied := (List.append_nil _).symm
  skipped := rfl

theorem Effect.trans (hp : p.request.query.WellFormed)
    (h : p.Effect parse is deleted messages skipped p')
    (h' : p'.Effect parse is' deleted' messages' skipped' p'') :
    p.Effect parse (is ++ is') (deleted ++ deleted') (messages ++ messages')
      (skipped + skipped') p'' where
  framed := h.framed.trans hp h'.framed
  widened hd := by
    obtain ⟨hd, hd'⟩ := List.append_eq_nil_iff.1 hd
    exact (h.widened hd).trans hp (h'.widened hd')
  terms id hid := by
    rw [h'.terms id (Nat.lt_of_lt_of_le hid h.framed.length_le), h.terms id hid]
    by_cases hd : id ∈ deleted <;> simp [hd]
  ups := by
    rw [List.filter_append]
    exact h.ups.trans h'.ups
  downs := by
    rw [List.filter_append]
    exact h.downs.trans h'.downs
  filters := by
    rw [List.filter_append]
    exact h.filters.trans h'.filters
  decorations := by rw [h'.decorations, h.decorations, List.filterMap_append, List.append_assoc]
  applied := by rw [h'.applied, h.applied, List.append_assoc]
  skipped := by rw [h'.skipped, h.skipped, Nat.add_assoc]

/-- Just the deleted ones are gone of the terms that were there. -/
theorem Effect.isLive_eq_false_iff (h : p.Effect parse is deleted messages skipped p') {id : Nat}
    {t : Term} (ht : p.request.query.term? id = some t) :
    p'.request.query.isLive id = false ↔ id ∈ deleted := by
  obtain ⟨n, hn, -⟩ := Query.term?_eq_some_iff.1 ht
  rw [h.framed.isLive_eq_false_iff ht, h.terms id (Query.lt_length_of_lookup? hn), ht]
  simp

end Progress

/-! ## One step -/

namespace Step

variable {parse : String → Except QueryFault Query} {rule : Rule} {i : Instruction}

/-- A query that is read is the one that its text asks for. -/
theorem builds_of_readQuery {text : QueryText} {q : AttachedQuery}
    (h : rule.readQuery parse i text = .ok q) : text.Builds parse (i.kind = .filter) q := by
  cases text with
  | raw text =>
    obtain rfl := Except.ok.inj h
    exact .raw text
  | parsed text =>
    rw [Rule.readQuery] at h
    cases hq : parse text with
    | error fault =>
      rw [hq] at h
      exact nomatch h
    | ok q =>
      rw [hq] at h
      obtain rfl := Except.ok.inj h
      have hbuilds : QueryText.Builds parse (decide (i.kind = .filter)) (.parsed text) _ :=
        .parsed hq
      simpa using hbuilds

theorem fault?_readQuery {text : QueryText} (h : i.query? = some text) :
    fault? (rule.readQuery parse i text) = rule.unreadable? parse i := by
  rw [Rule.unreadable?, h]
  cases text with
  | raw text => rfl
  | parsed text =>
    rw [Rule.readQuery]
    cases hq : parse text <;> simp [hq, fault?]

/-- An instruction becomes a step unless its query cannot be read. -/
theorem fault?_ofInstruction :
    fault? (ofInstruction parse rule i) = rule.unreadable? parse i := by
  cases i with
  | boost direction text weight => rw [ofInstruction, fault?_map, fault?_readQuery rfl]
  | filter text => rw [ofInstruction, fault?_map, fault?_readQuery rfl]
  | decorate value key => cases key <;> rfl
  | _ => rfl

end Step

/-- Terms removed one after the other: all the others are what they were. -/
theorem Query.WellFormed.framed_eraseTerms {q : Query} (h : q.WellFormed) (ids : List Nat) :
    q.Framed (ids.foldl Query.eraseTerm q) ∧
      ∀ i, (ids.foldl Query.eraseTerm q).term? i = if i ∈ ids then none else q.term? i := by
  induction ids generalizing q with
  | nil => exact ⟨.refl h, fun _ => rfl⟩
  | cons id ids ih =>
    obtain ⟨hframe, hterm⟩ := h.framed_eraseTerm id
    obtain ⟨hframe', hterm'⟩ := ih hframe.wellFormed
    refine ⟨hframe.trans h hframe', fun i => ?_⟩
    rw [List.foldl_cons, hterm', hterm]
    by_cases hi : i = id <;> simp [hi]

namespace Progress

variable {parse : String → Except QueryFault Query} {p : Progress}

theorem deleteTerms_eq (config : Config) (matched : List Candidate)
    (terms : Option (List Literal)) (q : Query) : deleteTerms config matched terms q =
      ((Instruction.delete terms).deleted config matched).foldl Query.eraseTerm q :=
  List.foldl_map.symm

/-- Synonyms are terms of rules. -/
theorem generated_synonymTerms (suffix : Option String) (weight : Weight) (terms : List Literal) :
    ∀ t ∈ terms.map (synonymTerm suffix weight), t.generated := by
  intro t ht
  obtain ⟨l, -, rfl⟩ := List.mem_map.1 ht
  rfl

/-- A step never fails and has the effect of its instruction. -/
theorem effect_take (h : p.request.query.WellFormed) (config : Config) (a : Action) {rule : Rule}
    {i : Instruction} {step : Step} (hs : Step.ofInstruction parse rule i = .ok step) :
    Succeeds (p.take config a step)
      (p.Effect parse [i] (i.deleted config a.terms) [] 0) := by
  have hrefl : p.Effect parse [] [] [] 0 p := .refl parse h
  cases i with
  | synonym terms weight =>
    obtain rfl := Except.ok.inj hs
    have hadd := h.addSynonyms_ok (a.terms.map (·.id))
      (generated_synonymTerms a.suffix weight terms)
    refine hadd.bind fun q hwidened => ⟨_, rfl, ?_⟩
    exact { hrefl with
      framed := hwidened.toFramed
      widened := fun _ => hwidened
      terms := fun id hid => hwidened.term?_eq hid }
  | boost direction text weight =>
    obtain ⟨q, hq, rfl⟩ := exists_of_map_eq_ok hs
    have hbuilds := Step.builds_of_readQuery hq
    refine ⟨_, rfl, ?_⟩
    cases direction with
    | up => exact { hrefl with ups := .singleton (.boost hbuilds .up weight) _ }
    | down => exact { hrefl with downs := .singleton (.boost hbuilds .down weight) _ }
  | filter text =>
    obtain ⟨q, hq, rfl⟩ := exists_of_map_eq_ok hs
    exact ⟨_, rfl, { hrefl with
      filters := .singleton (.filter (Step.builds_of_readQuery hq)) _ }⟩
  | delete terms =>
    obtain rfl := Except.ok.inj hs
    obtain ⟨hframe, hterm⟩ :=
      h.framed_eraseTerms ((Instruction.delete terms).deleted config a.terms)
    have hnone (hd : (Instruction.delete terms).deleted config a.terms = []) :
        p.request.query.Widened (deleteTerms config a.terms terms p.request.query) := by
      rw [deleteTerms_eq, hd]
      exact .refl h
    rw [← deleteTerms_eq] at hframe hterm
    exact ⟨_, rfl, { hrefl with
      framed := hframe
      widened := hnone
      terms := fun id _ => hterm id }⟩
  | decorate value key =>
    cases key with
    | none =>
      obtain rfl := Except.ok.inj hs
      exact ⟨_, rfl, { hrefl with decorations := rfl }⟩
    | some key =>
      obtain rfl := Except.ok.inj hs
      exact ⟨_, rfl, { hrefl with decorations := rfl }⟩
  | replace value =>
    obtain rfl := Except.ok.inj hs
    exact ⟨_, rfl, { hrefl with skipped := rfl }⟩

/-- The steps of some instructions have the effect of all of them. -/
theorem effect_takeAll (h : p.request.query.WellFormed) (config : Config) (a : Action)
    {rule : Rule} {is : List Instruction} {steps : List Step}
    (hs : List.Forall₂ (fun i step => Step.ofInstruction parse rule i = .ok step) is steps) :
    Succeeds (steps.foldlM (take config a) p)
      (p.Effect parse is (is.flatMap (Instruction.deleted config a.terms)) [] 0) := by
  induction hs generalizing p with
  | nil => exact ⟨p, rfl, .refl parse h⟩
  | cons hi _ ih =>
    rw [List.foldlM_cons]
    refine (effect_take h config a hi).bind fun p₁ h₁ => ?_
    exact (ih h₁.framed.wellFormed).imp fun p₂ h₂ => h₁.trans h h₂

/-- A rule has the effect of its instructions, and its message is reported. -/
theorem effect_takeRule (h : p.request.query.WellFormed) (config : Config) (a : Action)
    {rule : Rule} {steps : List Step} (hs : Step.ofRule parse rule = .ok steps) :
    Succeeds (p.takeRule config a (rule, steps))
      (p.Effect parse rule.instructions
        (rule.instructions.flatMap (Instruction.deleted config a.terms)) [rule.message] 0) := by
  refine (effect_takeAll h config a (mapM_eq_ok_iff.1 hs)).bind fun p₁ h₁ => ⟨_, rfl, ?_⟩
  exact { h₁ with applied := by rw [h₁.applied, List.append_nil] }

end Progress

/-! ## Actions -/

namespace Engine

variable {e : Engine} {a : Action} {p : Progress}

/-- The instructions of an action become steps unless a query of it cannot be read. -/
theorem fault?_steps (parse : String → Except QueryFault Query) (a : Action) :
    fault? (a.steps parse) = a.unreadable? parse := by
  unfold Action.steps Action.unreadable? Step.ofRule
  simp only [fault?_mapM, fault?_map, Step.fault?_ofInstruction]

/-- The rules of an action have the effect of all their instructions. -/
theorem effect_takeRules (hp : p.request.query.WellFormed) (config : Config) (a : Action)
    {parse : String → Except QueryFault Query} {rules : List Rule}
    {prepared : List (Rule × List Step)}
    (hs : List.Forall₂ (fun r s => (Step.ofRule parse r).map (r, ·) = .ok s) rules prepared) :
    Succeeds (prepared.foldlM (Progress.takeRule config a) p)
      (p.Effect parse (rules.flatMap Rule.instructions)
        (rules.flatMap fun r => r.instructions.flatMap (Instruction.deleted config a.terms))
        (rules.map Rule.message) 0) := by
  induction hs generalizing p with
  | nil => exact ⟨p, rfl, .refl parse hp⟩
  | cons hr _ ih =>
    obtain ⟨steps, hsteps, rfl⟩ := exists_of_map_eq_ok hr
    rw [List.foldlM_cons]
    refine (Progress.effect_takeRule hp config a hsteps).bind fun p₁ h₁ => ?_
    exact (ih h₁.framed.wellFormed).imp fun p₂ h₂ => h₁.trans hp h₂

/-- An action whose queries can be read has the effect of all the instructions of its rules. -/
theorem effect_apply (hp : p.request.query.WellFormed)
    (ha : a.unreadable? e.readQuery = none) :
    Succeeds (e.apply a p)
      (p.Effect e.readQuery a.instructions (a.deleted e.ruleset.config) a.messages 0) := by
  rw [← fault?_steps, fault?_eq_none_iff] at ha
  obtain ⟨prepared, hprepared⟩ := ha
  obtain ⟨p', hp', heffect⟩ :=
    effect_takeRules hp e.ruleset.config a (mapM_eq_ok_iff.1 hprepared)
  rw [← List.flatMap_assoc] at heffect
  refine ⟨p', ?_, heffect⟩
  rw [apply_eq, hprepared]
  dsimp only
  rw [hp']
  rfl

/-- An action with a query that cannot be read is left out or ends the run. -/
theorem apply_of_unreadable {fault : UnreadableQuery}
    (ha : a.unreadable? e.readQuery = some fault) (p : Progress) :
    e.apply a p = if e.haltOnFault then .error (.unreadable fault)
      else .ok { p with skipped := p.skipped + 1 } := by
  rw [← fault?_steps, fault?_eq_some_iff] at ha
  rw [apply_eq, ha]

/-- An action is applied wholly or not at all. If every query of it that is parsed can be read, each
boost and each filter is added with the query of its own instruction, in the order of the
instructions, and so are the decorations and the messages of its rules. Otherwise nothing changes:
the action is counted as left out, or the run ends with the fault of the first query that cannot be
read. -/
theorem apply_whole (e : Engine) (a : Action) {p : Progress}
    (hp : p.request.query.WellFormed) :
    ((∀ i ∈ a.instructions, ∀ text, i.query? = some (.parsed text) →
        ∃ q, e.readQuery text = .ok q) →
      ∃ p', e.apply a p = .ok p' ∧
        Appends (Instruction.BuildsBoost e.readQuery)
          (a.instructions.filter fun i => i.kind = .up) p.request.ups p'.request.ups ∧
        Appends (Instruction.BuildsBoost e.readQuery)
          (a.instructions.filter fun i => i.kind = .down) p.request.downs p'.request.downs ∧
        Appends (Instruction.BuildsFilter e.readQuery)
          (a.instructions.filter fun i => i.kind = .filter) p.request.filters p'.request.filters ∧
        p'.decorations = p.decorations ++ a.instructions.filterMap Instruction.decoration? ∧
        p'.applied = p.applied ++ a.rules.map Rule.message ∧ p'.skipped = p.skipped) ∧
    ((∃ i ∈ a.instructions, ∃ text fault, i.query? = some (.parsed text) ∧
        e.readQuery text = .error fault) →
      ∃ fault, a.unreadable? e.readQuery = some fault ∧
        (e.haltOnFault = false → e.apply a p = .ok { p with skipped := p.skipped + 1 }) ∧
        (e.haltOnFault = true → e.apply a p = .error (.unreadable fault) ∧
          ∀ n as, e.isTimeUp n = false →
            e.applyAll n p (a :: as) = { progress := p, halt := some (.unreadable fault) })) := by
  refine ⟨fun ha => ?_, fun ha => ?_⟩
  · obtain ⟨p', hp', h⟩ := effect_apply hp (Action.unreadable?_eq_none_iff.2 ha)
    exact ⟨p', hp', h.ups, h.downs, h.filters, h.decorations, h.applied, h.skipped⟩
  · obtain ⟨i, hi, text, cause, hquery, hcause⟩ := ha
    cases hunreadable : a.unreadable? e.readQuery with
    | none =>
      obtain ⟨q, hq⟩ := Action.unreadable?_eq_none_iff.1 hunreadable i hi text hquery
      rw [hq] at hcause
      exact nomatch hcause
    | some fault =>
      have happly := apply_of_unreadable hunreadable p
      refine ⟨fault, rfl, fun hhalt => ?_, fun hhalt => ?_⟩
      · rw [happly, if_neg (by simp [hhalt])]
      · rw [if_pos hhalt] at happly
        refine ⟨happly, fun n as htime => ?_⟩
        rw [applyAll, if_neg (by simp [htime]), happly]

/-- Two rules that match together are applied wholly; with a third one whose filter is no query they
are not applied at all. -/
theorem apply_whole_together :
    let e : Engine :=
      { ruleset := { config := {}, rules := [] }, readQuery := Query.ofWords, haltOnFault := true }
    let rules := [
      .make (.phrase [{ value := "tv" }]) 0 (.string "a")
        [.boost .up (.parsed "oled") .one, .delete none, .filter (.parsed "red")] [],
      .make (.phrase [{ value := "tv" }]) 1 (.string "b")
        [.decorate "sale" none, .boost .up (.raw "new") .one] []]
    let bad := .make (.phrase [{ value := "tv" }]) 2 (.string "c") [.filter (.parsed "+")] []
    let a : Action :=
      { rules, terms := [{ id := 2, value := "tv" }], start := 0, stop := 1, suffix := none }
    let p : Progress := { request := { query := .ofTerms [(.should, { value := "tv" })] } }
    p.request.query.WellFormed ∧
    (∃ p', e.apply a p = .ok p' ∧ p'.applied = ["a", "b"] ∧ p'.decorations = [.unnamed "sale"] ∧
      Appends (Instruction.BuildsBoost e.readQuery)
        [.boost .up (.parsed "oled") .one, .boost .up (.raw "new") .one] [] p'.request.ups ∧
      Appends (Instruction.BuildsFilter e.readQuery) [.filter (.parsed "red")] []
        p'.request.filters) ∧
    e.apply { a with rules := rules ++ [bad] } p =
      .error (.unreadable ⟨"c", .filter, "+", .invalidToken "+" "operator without a term"⟩) := by
  intro e rules bad a p
  have hp : p.request.query.WellFormed := (Query.regular_ofTerms _).wellFormed
  refine ⟨hp, ?_, ?_⟩
  · have hread : a.unreadable? e.readQuery = none := by decide +kernel
    obtain ⟨p', happly, hups, -, hfilters, hdecorations, happlied, -⟩ :=
      (apply_whole e a hp).1 (Action.unreadable?_eq_none_iff.1 hread)
    refine ⟨p', happly, ?_, ?_, ?_, ?_⟩
    · rw [happlied]
      decide +kernel
    · rw [hdecorations]
      decide +kernel
    · convert hups using 1
      decide +kernel
    · convert hfilters using 1
      decide +kernel
  · have hbad : ∃ i ∈ Action.instructions { a with rules := rules ++ [bad] }, ∃ text fault,
        i.query? = some (.parsed text) ∧ e.readQuery text = .error fault :=
      ⟨.filter (.parsed "+"), by decide +kernel, "+", _, rfl, rfl⟩
    obtain ⟨fault, hfault, -, hhalt⟩ := (apply_whole e _ hp).2 hbad
    obtain ⟨happly, -⟩ := hhalt rfl
    rw [happly]
    have hsome : Action.unreadable? e.readQuery { a with rules := rules ++ [bad] } =
        some ⟨"c", .filter, "+", .invalidToken "+" "operator without a term"⟩ := by
      decide +kernel
    rw [Option.some.inj (hfault.symm.trans hsome)]

end Engine

end QueryRules
