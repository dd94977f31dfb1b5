import QueryRules.Proofs.Permutation
import QueryRules.Proofs.Query.Candidates
import QueryRules.Proofs.Query.Lineage

/-!
# What the sequences of a query cover

- `Query.booleansFrom`: a boolean query and the given ones inside it, depth first. They are those
  that the root reaches without passing a boolean query that a rule has made (`Query.Reached`), and
  `Regular.nodup_booleansFrom` says that none comes twice.
- `Query.sequenceAt`: the sequence of a boolean query, a position for each of its groups.
  `Regular.sequencesBelow_eq`: the sequences of a query are those of these boolean queries.
- `Regular.sequences_exact`: so a given term without such a boolean query above it stands once in
  the sequences of a query, and nothing else stands there.
-/

namespace QueryRules

namespace Query

variable {q : Query}

/-! ## The nodes that count -/

/-- A group of alternatives stands behind a number. -/
def isGroup (q : Query) (id : Nat) : Bool := (q.node? id).any fun n => n.kind = .group

/-- A boolean query that no rule has made stands behind a number. -/
def isGivenBoolean (q : Query) (id : Nat) : Bool :=
  (q.node? id).any fun n => n.kind = .boolean && !n.isGenerated

/-- A boolean query that a rule has made stands behind a number. -/
def isGeneratedBoolean (q : Query) (id : Nat) : Bool :=
  (q.node? id).any fun n => n.kind = .boolean && n.isGenerated

/-- The term behind a number, unless a rule has made it. -/
def candidate? (q : Query) (id : Nat) : Option Candidate :=
  (q.term? id).bind fun t =>
    if t.generated then none else some { id, value := t.value, fields := t.fields }

/-- The terms of a group that no rule has made. -/
def alternatives (q : Query) (id : Nat) : List Candidate := (q.children id).filterMap q.candidate?

/-- The sequence of a boolean query: its groups are the positions. -/
def sequenceAt (q : Query) (id : Nat) : Sequence :=
  ⟨((q.children id).filter q.isGroup).map q.alternatives⟩

/-- The boolean queries right inside a boolean query, as clauses or in groups, that no rule has
made. -/
def inner (q : Query) (id : Nat) : List Nat :=
  (q.children id).flatMap fun c =>
    (if q.isGroup c then q.children c else [c]).filter q.isGivenBoolean

/-- A boolean query and those inside it that no rule has made, depth first. The number of a child is
larger than its parent's. -/
def booleansFrom (q : Query) (id : Nat) : List Nat :=
  id :: (q.inner id).flatMap fun c =>
    if _h : id < c ∧ c < q.entries.length then q.booleansFrom c else []
termination_by q.entries.length - id

/-- The boolean queries that one gets to from the root through boolean queries that no rule has
made. -/
inductive Reached (q : Query) : Nat → Prop
  | root : Reached q root
  | clause {b c : Nat} (hb : Reached q b) (hc : c ∈ q.children b) (hgiven : q.isGivenBoolean c) :
    Reached q c
  | disjunct {b g c : Nat} (hb : Reached q b) (hg : g ∈ q.children b) (hgroup : q.isGroup g)
    (hc : c ∈ q.children g) (hgiven : q.isGivenBoolean c) : Reached q c

/-- No boolean query above a node, below the root, was made by a rule. -/
def IsOpen (q : Query) (id : Nat) : Prop :=
  ∀ a ∈ q.ancestors id, a ≠ root → q.isGeneratedBoolean a = false

/-- Everything that stands in the sequences of a query. -/
def candidates (q : Query) : List Candidate := q.sequences.flatMap fun s => s.positions.flatten

theorem candidate?_eq_some_iff {id : Nat} {c : Candidate} :
    q.candidate? id = some c ↔ c.id = id ∧ ∃ t, q.term? id = some t ∧ t.generated = false ∧
      c.value = t.value ∧ c.fields = t.fields := by
  rw [candidate?, Option.bind_eq_some_iff, exists_and_left.symm]
  refine exists_congr fun t => ?_
  rw [Option.ite_none_left_eq_some, Option.some.injEq, Bool.not_eq_true]
  obtain ⟨i, value, fields⟩ := c
  simp only [Candidate.mk.injEq]
  tauto

theorem isGroup_of_lookup? {id : Nat} {e : Entry} (he : q.lookup? id = some e) :
    q.isGroup id = decide (e.node.kind = .group) := by
  rw [isGroup, node?_of_lookup? he, Option.any_some]

theorem isGroup_iff {id : Nat} :
    q.isGroup id ↔ ∃ e, q.lookup? id = some e ∧ e.node.kind = .group := by
  rw [isGroup, node?]
  cases q.lookup? id <;> simp

theorem isGivenBoolean_iff {id : Nat} : q.isGivenBoolean id ↔
    ∃ e, q.lookup? id = some e ∧ e.node.kind = .boolean ∧ e.node.isGenerated = false := by
  rw [isGivenBoolean, node?]
  cases q.lookup? id <;> simp

/-- A group is no boolean query, neither a given nor a generated one. -/
theorem not_boolean_of_isGroup {id : Nat} (hgroup : q.isGroup id) :
    q.isGivenBoolean id = false ∧ q.isGeneratedBoolean id = false := by
  obtain ⟨e, he, hk⟩ := isGroup_iff.1 hgroup
  rw [isGivenBoolean, isGeneratedBoolean, node?_of_lookup? he, Option.any_some, Option.any_some, hk]
  exact ⟨rfl, rfl⟩

theorem isGivenBoolean_eq_not {id : Nat} {e : Entry} (he : q.lookup? id = some e)
    (hk : e.node.kind = .boolean) : q.isGivenBoolean id = !q.isGeneratedBoolean id := by
  rw [isGivenBoolean, isGeneratedBoolean, node?_of_lookup? he, Option.any_some, Option.any_some, hk]
  rfl

theorem not_generated_of_given {id : Nat} (hgiven : q.isGivenBoolean id) :
    q.isGeneratedBoolean id = false := by
  obtain ⟨e, he, hk, -⟩ := isGivenBoolean_iff.1 hgiven
  rw [isGivenBoolean_eq_not he hk] at hgiven
  simpa using hgiven

/-! ## The sequences of the nodes that count -/

theorem tree?_bind_givenTerm? (id : Nat) :
    (q.tree? id).bind QueryTree.givenTerm? = q.candidate? id := by
  cases he : q.lookup? id with
  | none => rw [tree?, candidate?, term?, node?, he]; rfl
  | some e =>
    rw [tree?_of_lookup? he, candidate?, term?, node?_of_lookup? he]
    obtain ⟨p, n⟩ := e
    cases n <;> rfl

theorem Regular.tree?_bind_position? (h : q.Regular) (id : Nat) :
    (q.tree? id).bind QueryTree.position? =
      if q.isGroup id then some (q.alternatives id) else none := by
  cases he : q.lookup? id with
  | none => rw [tree?, isGroup, node?, he]; rfl
  | some e =>
    have hcandidates : (q.subtrees id e.node.children).filterMap QueryTree.givenTerm? =
        q.alternatives id := by
      rw [subtrees_eq_filterMap (h.lt_of_mem_children he), List.filterMap_filterMap,
        funext tree?_bind_givenTerm?, alternatives, children_of_lookup? he]
    rw [tree?_of_lookup? he, isGroup_of_lookup? he, ← hcandidates]
    cases e.node <;> rfl

/-- The sequences of the tree below a node. -/
def sequencesBelow (q : Query) (id : Nat) : List Sequence :=
  ((q.tree? id).map QueryTree.sequences).getD []

theorem Regular.sequencesOf_subtrees (h : q.Regular) {id : Nat} {e : Entry}
    (he : q.lookup? id = some e) :
    QueryTree.sequencesOf (q.subtrees id e.node.children) = e.node.children.flatMap fun c =>
      if q.isGeneratedBoolean c then [] else q.sequencesBelow c := by
  rw [QueryTree.sequencesOf_eq_flatMap, subtrees_eq_filterMap (h.lt_of_mem_children he),
    flatMap_filterMap]
  refine List.flatMap_congr fun c hc => ?_
  obtain ⟨f, hf, -⟩ := h.lookup?_child he hc
  rw [isGeneratedBoolean, sequencesBelow, tree?_of_lookup? hf, node?_of_lookup? hf]
  obtain ⟨p, n⟩ := f
  cases n <;> rfl

/-- Of a node that is no group only a given boolean query has sequences that are collected. -/
theorem sequencesBelow_of_ne_group {c : Nat} {f : Entry} (hf : q.lookup? c = some f)
    (hk : f.node.kind ≠ .group) :
    (if q.isGeneratedBoolean c then [] else q.sequencesBelow c) =
      if q.isGivenBoolean c then q.sequencesBelow c else [] := by
  rw [isGeneratedBoolean, isGivenBoolean, sequencesBelow, tree?_of_lookup? hf, node?_of_lookup? hf]
  obtain ⟨p, n⟩ := f
  cases n with
  | group o g ds => exact absurd rfl hk
  | term t => rfl
  | boolean o g cs => cases g <;> rfl

/-- The sequences of a group are those of the given boolean queries in it. -/
theorem Regular.sequencesBelow_group (h : q.Regular) {id : Nat} {e : Entry}
    (he : q.lookup? id = some e) (hk : e.node.kind = .group) :
    q.sequencesBelow id = ((q.children id).filter q.isGivenBoolean).flatMap q.sequencesBelow := by
  have hbelow : q.sequencesBelow id = QueryTree.sequencesOf (q.subtrees id e.node.children) := by
    rw [sequencesBelow, tree?_of_lookup? he]
    cases hn : e.node with
    | group o g ds => rfl
    | _ => rw [hn] at hk; exact nomatch hk
  rw [hbelow, h.sequencesOf_subtrees he, flatMap_filter_eq_flatMap, children_of_lookup? he]
  refine List.flatMap_congr fun d hd => ?_
  obtain ⟨f, hf, -, hadmits⟩ := h.listed_child he hd
  refine sequencesBelow_of_ne_group hf fun hgroup => ?_
  rw [hk, hgroup] at hadmits
  exact nomatch hadmits

/-- The sequences of a boolean query are its own and those of the given ones right inside it. -/
theorem Regular.sequencesBelow_boolean (h : q.Regular) {id : Nat} {e : Entry}
    (he : q.lookup? id = some e) (hk : e.node.kind = .boolean) :
    q.sequencesBelow id = q.sequenceAt id :: (q.inner id).flatMap q.sequencesBelow := by
  have hbelow : q.sequencesBelow id =
      ⟨(q.subtrees id e.node.children).filterMap QueryTree.position?⟩ ::
        QueryTree.sequencesOf (q.subtrees id e.node.children) := by
    rw [sequencesBelow, tree?_of_lookup? he]
    cases hn : e.node with
    | boolean o g cs => rfl
    | _ => rw [hn] at hk; exact nomatch hk
  have hpositions : (q.subtrees id e.node.children).filterMap QueryTree.position? =
      ((q.children id).filter q.isGroup).map q.alternatives := by
    rw [subtrees_eq_filterMap (h.lt_of_mem_children he), List.filterMap_filterMap,
      funext h.tree?_bind_position?, ← List.filterMap_eq_map, List.filterMap_filter,
      children_of_lookup? he]
    rfl
  rw [hbelow, hpositions, sequenceAt, h.sequencesOf_subtrees he, inner, List.flatMap_assoc,
    children_of_lookup? he]
  refine congrArg (List.cons _) (List.flatMap_congr fun c hc => ?_)
  obtain ⟨f, hf, -⟩ := h.lookup?_child he hc
  rw [isGroup_of_lookup? hf]
  by_cases hgroup : f.node.kind = .group
  · rw [(not_boolean_of_isGroup (isGroup_iff.2 ⟨f, hf, hgroup⟩)).2, if_neg Bool.false_ne_true,
      decide_eq_true hgroup, if_pos rfl, h.sequencesBelow_group hf hgroup]
  · rw [sequencesBelow_of_ne_group hf hgroup, decide_eq_false hgroup, if_neg Bool.false_ne_true,
      flatMap_filter_eq_flatMap, List.flatMap_singleton]

/-! ## The boolean queries that count -/

theorem mem_inner_iff {b c : Nat} : c ∈ q.inner b ↔ q.isGivenBoolean c ∧
    (c ∈ q.children b ∨ ∃ g ∈ q.children b, q.isGroup g ∧ c ∈ q.children g) := by
  rw [inner, List.mem_flatMap]
  constructor
  · rintro ⟨g, hg, hc⟩
    rw [List.mem_filter] at hc
    refine ⟨hc.2, ?_⟩
    split at hc
    · rename_i hgroup
      exact .inr ⟨g, hg, hgroup, hc.1⟩
    · rw [List.mem_singleton.1 hc.1]
      exact .inl hg
  · rintro ⟨hgiven, hc | ⟨g, hg, hgroup, hc⟩⟩
    · have hgroup : ¬ q.isGroup c := fun hgroup => by
        rw [(not_boolean_of_isGroup hgroup).1] at hgiven
        exact nomatch hgiven
      exact ⟨c, hc, by simp [hgroup, hgiven]⟩
    · exact ⟨g, hg, List.mem_filter.2 ⟨by rwa [if_pos hgroup], hgiven⟩⟩

theorem Regular.lt_of_mem_inner (h : q.Regular) {b c : Nat} (hc : c ∈ q.inner b) :
    b < c ∧ c < q.entries.length := by
  have hlt {i d : Nat} (hd : d ∈ q.children i) : i < d ∧ d < q.entries.length := by
    obtain ⟨e, he, hm⟩ := mem_children.1 hd
    exact h.lt_of_mem_children he d hm
  obtain ⟨-, hc | ⟨g, hg, -, hc⟩⟩ := mem_inner_iff.1 hc
  · exact hlt hc
  · exact ⟨Nat.lt_trans (hlt hg).1 (hlt hc).1, (hlt hc).2⟩

theorem Regular.booleansFrom_eq (h : q.Regular) (b : Nat) :
    q.booleansFrom b = b :: (q.inner b).flatMap q.booleansFrom := by
  rw [booleansFrom]
  exact congrArg (List.cons b) (List.flatMap_congr fun c hc => dif_pos (h.lt_of_mem_inner hc))

/-- Induction over the boolean queries inside a boolean query. -/
theorem Regular.inner_induct (h : q.Regular) {motive : Nat → Prop}
    (step : ∀ b, (∀ c ∈ q.inner b, motive c) → motive b) (b : Nat) : motive b := by
  -- the number of an inner one is larger, so the numbers left decrease
  induction hn : q.entries.length - b using Nat.strongRecOn generalizing b with
  | ind n ih =>
    refine step b fun c hc => ?_
    have := h.lt_of_mem_inner hc
    exact ih _ (by omega) c rfl

/-- The sequences of a boolean query are those of the boolean queries that count in it. -/
theorem Regular.sequencesBelow_eq (h : q.Regular) {b : Nat} {e : Entry}
    (he : q.lookup? b = some e) (hk : e.node.kind = .boolean) :
    q.sequencesBelow b = (q.booleansFrom b).map q.sequenceAt := by
  induction b using h.inner_induct generalizing e with
  | step b ih =>
    rw [h.sequencesBelow_boolean he hk, h.booleansFrom_eq, List.map_cons, List.map_flatMap]
    refine congrArg (List.cons _) (List.flatMap_congr fun c hc => ?_)
    obtain ⟨f, hf, hkind, -⟩ := isGivenBoolean_iff.1 (mem_inner_iff.1 hc).1
    exact ih c hc hf hkind

theorem Regular.mem_booleansFrom_iff (h : q.Regular) {a b : Nat} :
    b ∈ q.booleansFrom a ↔ b = a ∨ ∃ c ∈ q.inner a, b ∈ q.booleansFrom c := by
  rw [h.booleansFrom_eq a, List.mem_cons, List.mem_flatMap]

/-- What is right inside a boolean query that counts counts as well. -/
theorem Regular.mem_booleansFrom_of_mem_inner (h : q.Regular) {a b c : Nat}
    (hb : b ∈ q.booleansFrom a) (hc : c ∈ q.inner b) : c ∈ q.booleansFrom a := by
  induction a using h.inner_induct with
  | step a ih =>
    rw [h.mem_booleansFrom_iff]
    rcases h.mem_booleansFrom_iff.1 hb with rfl | ⟨d, hd, hb⟩
    · exact .inr ⟨c, hc, h.mem_booleansFrom_iff.2 (.inl rfl)⟩
    · exact .inr ⟨d, hd, ih d hd hb⟩

theorem Reached.of_mem_inner {b c : Nat} (hb : q.Reached b) (hc : c ∈ q.inner b) :
    q.Reached c := by
  obtain ⟨hgiven, hc | ⟨g, hg, hgroup, hc⟩⟩ := mem_inner_iff.1 hc
  · exact hb.clause hc hgiven
  · exact hb.disjunct hg hgroup hc hgiven

/-- The boolean queries that count are those that the root reaches. -/
theorem Regular.mem_booleansFrom_root_iff (h : q.Regular) {b : Nat} :
    b ∈ q.booleansFrom root ↔ q.Reached b := by
  constructor
  · have hfrom {a : Nat} (ha : q.Reached a) (hb : b ∈ q.booleansFrom a) : q.Reached b := by
      induction a using h.inner_induct with
      | step a ih =>
        rcases h.mem_booleansFrom_iff.1 hb with rfl | ⟨c, hc, hb⟩
        · exact ha
        · exact ih c hc (ha.of_mem_inner hc) hb
    exact hfrom .root
  · intro hb
    induction hb with
    | root => exact h.mem_booleansFrom_iff.2 (.inl rfl)
    | clause _ hc hgiven ih =>
      exact h.mem_booleansFrom_of_mem_inner ih (mem_inner_iff.2 ⟨hgiven, .inl hc⟩)
    | disjunct _ hg hgroup hc hgiven ih =>
      exact h.mem_booleansFrom_of_mem_inner ih
        (mem_inner_iff.2 ⟨hgiven, .inr ⟨_, hg, hgroup, hc⟩⟩)

/-! ## None counts twice -/

/-- Above an inner boolean query stand the boolean query that it is in, perhaps with a group in
between, and the nodes above that one. -/
theorem Regular.ancestors_of_mem_inner (h : q.Regular) {b c : Nat} (hc : c ∈ q.inner b) :
    q.ancestors c = b :: q.ancestors b ∨
      ∃ g, q.isGroup g ∧ q.ancestors c = g :: b :: q.ancestors b := by
  obtain ⟨-, hc | ⟨g, hg, hgroup, hc⟩⟩ := mem_inner_iff.1 hc
  · exact .inl (h.ancestors_of_mem_children hc)
  · refine .inr ⟨g, hgroup, ?_⟩
    rw [h.ancestors_of_mem_children hc, h.ancestors_of_mem_children hg]

/-- No boolean query right inside another one is inside its neighbours. -/
theorem Regular.not_mem_ancestors_inner (h : q.Regular) {b c c' : Nat} (hc : c ∈ q.inner b)
    (hc' : c' ∈ q.inner b) : c ∉ q.ancestors c' := by
  intro hm
  have habove : c ∉ b :: q.ancestors b := by
    intro hm
    have hlt := (h.lt_of_mem_inner hc).1
    rcases List.mem_cons.1 hm with rfl | hm
    · exact Nat.lt_irrefl _ hlt
    · exact Nat.lt_asymm hlt (lt_of_mem_ancestors hm)
  rcases h.ancestors_of_mem_inner hc' with he | ⟨g, hgroup, he⟩
  · exact habove (he ▸ hm)
  · rw [he, List.mem_cons] at hm
    rcases hm with rfl | hm
    · exact absurd (mem_inner_iff.1 hc).1 (by simp [not_boolean_of_isGroup hgroup])
    · exact habove hm

/-- A boolean query is at or above those that count in it. -/
theorem Regular.mem_ancestors_of_mem_booleansFrom (h : q.Regular) {a b : Nat}
    (hb : b ∈ q.booleansFrom a) : a ∈ b :: q.ancestors b := by
  induction a using h.inner_induct with
  | step a ih =>
    rcases h.mem_booleansFrom_iff.1 hb with rfl | ⟨c, hc, hb⟩
    · exact List.mem_cons_self
    · have hac : a ∈ q.ancestors c := by
        rcases h.ancestors_of_mem_inner hc with he | ⟨g, -, he⟩ <;> simp [he]
      refine List.mem_cons_of_mem _ ?_
      rcases List.mem_cons.1 (ih c hc hb) with rfl | hm
      · exact hac
      · exact (ancestors_suffix hm).subset (List.mem_cons_of_mem _ hac)

theorem Regular.nodup_inner (h : q.Regular) (b : Nat) : (q.inner b).Nodup := by
  refine nodup_flatMap_of_owner (h.children_nodup b) (fun c _ => ?_) fun c hc c' hc' d hd hd' => ?_
  · split
    · exact (h.children_nodup c).filter _
    · exact (List.nodup_singleton c).filter _
  · have hd := (List.mem_filter.1 hd).1
    have hd' := (List.mem_filter.1 hd').1
    -- a child of a child is no child
    have hgrandchild {c c' : Nat} (hc : c ∈ q.children b) (hc' : c' ∈ q.children b)
        (hm : c' ∈ q.children c) : False := by
      obtain rfl := h.children_disjoint hc' hm
      obtain ⟨e, he, hm⟩ := mem_children.1 hc
      exact Nat.lt_irrefl _ (h.lt_of_mem_children he _ hm).1
    split at hd <;> split at hd'
    · exact h.children_disjoint hd hd'
    · rw [List.mem_singleton.1 hd'] at hd
      exact (hgrandchild hc hc' hd).elim
    · rw [List.mem_singleton.1 hd] at hd'
      exact (hgrandchild hc' hc hd').elim
    · exact (List.mem_singleton.1 hd).symm.trans (List.mem_singleton.1 hd')

/-- No boolean query comes twice. -/
theorem Regular.nodup_booleansFrom (h : q.Regular) (b : Nat) : (q.booleansFrom b).Nodup := by
  induction b using h.inner_induct with
  | step b ih =>
    rw [h.booleansFrom_eq, List.nodup_cons]
    constructor
    · intro hm
      obtain ⟨c, hc, hb⟩ := List.mem_flatMap.1 hm
      have hlt := (h.lt_of_mem_inner hc).1
      rcases List.mem_cons.1 (h.mem_ancestors_of_mem_booleansFrom hb) with rfl | hm
      · exact Nat.lt_irrefl _ hlt
      · exact Nat.lt_asymm hlt (lt_of_mem_ancestors hm)
    · refine nodup_flatMap_of_owner (h.nodup_inner b) ih fun c hc c' hc' d hd hd' => ?_
      rcases eq_or_mem_ancestors (h.mem_ancestors_of_mem_booleansFrom hd)
        (h.mem_ancestors_of_mem_booleansFrom hd') with he | hm | hm
      · exact he
      · exact absurd hm (h.not_mem_ancestors_inner hc hc')
      · exact absurd hm (h.not_mem_ancestors_inner hc' hc)

/-! ## What stands in the sequences -/

/-- Below the root every node is a child of one that admits it. -/
theorem Regular.exists_admits (h : q.Regular) {id : Nat} {e : Entry} (hid : id ≠ root)
    (he : q.lookup? id = some e) : ∃ p f, q.lookup? p = some f ∧ id ∈ q.children p ∧
      f.node.kind.admits e.node.kind := by
  obtain ⟨p, f, -, hf, hm, -⟩ := h.exists_parent hid he
  obtain ⟨e', he', -, hadmits⟩ := h.listed_child hf hm
  obtain rfl := Option.some.inj (he'.symm.trans he)
  exact ⟨p, f, hf, mem_children.2 ⟨f, hf, hm⟩, hadmits⟩

/-- A group is a clause of a boolean query. -/
theorem Regular.exists_boolean_of_isGroup (h : q.Regular) {g : Nat} (hgroup : q.isGroup g) :
    ∃ b f, q.lookup? b = some f ∧ f.node.kind = .boolean ∧ g ∈ q.children b := by
  obtain ⟨e, he, hk⟩ := isGroup_iff.1 hgroup
  have hroot : g ≠ root := by
    rintro rfl
    obtain ⟨r, hr, -, hboolean⟩ := h.wellFormed.root
    obtain rfl := Option.some.inj (he.symm.trans hr)
    rw [hk] at hboolean
    exact nomatch hboolean
  obtain ⟨b, f, hf, hg, hadmits⟩ := h.exists_admits hroot he
  refine ⟨b, f, hf, ?_, hg⟩
  cases hb : f.node.kind with
  | boolean => rfl
  | _ => rw [hb, hk] at hadmits; exact nomatch hadmits

/-- A given boolean query below the root is right inside another boolean query. -/
theorem Regular.exists_mem_inner (h : q.Regular) {c : Nat} {e : Entry} (hc : c ≠ root)
    (he : q.lookup? c = some e) (hk : e.node.kind = .boolean) (hgiven : q.isGivenBoolean c) :
    ∃ b f, q.lookup? b = some f ∧ f.node.kind = .boolean ∧ c ∈ q.inner b := by
  obtain ⟨p, f, hf, hm, hadmits⟩ := h.exists_admits hc he
  cases hp : f.node.kind with
  | boolean => exact ⟨p, f, hf, hp, mem_inner_iff.2 ⟨hgiven, .inl hm⟩⟩
  | group =>
    have hgroup := isGroup_iff.2 ⟨f, hf, hp⟩
    obtain ⟨b, f', hb, hboolean, hg⟩ := h.exists_boolean_of_isGroup hgroup
    exact ⟨b, f', hb, hboolean, mem_inner_iff.2 ⟨hgiven, .inr ⟨p, hg, hgroup, hm⟩⟩⟩
  | term => rw [hp, hk] at hadmits; exact nomatch hadmits

/-- No rule has made a boolean query that the root reaches, or one above it. -/
theorem Reached.isGeneratedBoolean_eq_false (h : q.Regular) {b : Nat} (hb : q.Reached b) :
    ∀ a ∈ b :: q.ancestors b, a ≠ Query.root → q.isGeneratedBoolean a = false := by
  induction hb with
  | root =>
    intro a ha hne
    rw [h.ancestors_root, List.mem_singleton] at ha
    exact absurd ha hne
  | clause _ hc hgiven ih =>
    rw [h.ancestors_of_mem_children hc, List.forall_mem_cons]
    exact ⟨fun _ => not_generated_of_given hgiven, ih⟩
  | disjunct _ hg hgroup hc hgiven ih =>
    rw [h.ancestors_of_mem_children hc, h.ancestors_of_mem_children hg, List.forall_mem_cons,
      List.forall_mem_cons]
    exact ⟨fun _ => not_generated_of_given hgiven, fun _ => (not_boolean_of_isGroup hgroup).2, ih⟩

/-- The root reaches a boolean query just if no rule has made it or one above it. -/
theorem Regular.reached_iff (h : q.Regular) {b : Nat} {e : Entry} (he : q.lookup? b = some e)
    (hk : e.node.kind = .boolean) :
    q.Reached b ↔ ∀ a ∈ b :: q.ancestors b, a ≠ root → q.isGeneratedBoolean a = false := by
  refine ⟨Reached.isGeneratedBoolean_eq_false h, fun hopen => ?_⟩
  -- the boolean query that it is in has a smaller number
  induction b using Nat.strongRecOn generalizing e with
  | ind b ih =>
    by_cases hroot : b = root
    · rw [hroot]
      exact .root
    · obtain ⟨hb, hopen⟩ := List.forall_mem_cons.1 hopen
      obtain ⟨b', f, hf, hk', hm⟩ := h.exists_mem_inner hroot he hk
        ((isGivenBoolean_eq_not he hk).trans (by rw [hb hroot]; rfl))
      refine (ih b' (h.lt_of_mem_inner hm).1 hf hk' fun a ha => hopen a ?_).of_mem_inner hm
      rcases h.ancestors_of_mem_inner hm with hancestors | ⟨g, -, hancestors⟩
      · rw [hancestors]
        exact ha
      · rw [hancestors]
        exact List.mem_cons_of_mem g ha

/-- The given terms of the groups of a boolean query. -/
theorem flatten_sequenceAt (b : Nat) : (q.sequenceAt b).positions.flatten =
    ((q.children b).filter q.isGroup).flatMap q.alternatives :=
  List.flatMap_def.symm

theorem Regular.sequences_eq (h : q.Regular) :
    q.sequences = (q.booleansFrom root).map q.sequenceAt := by
  obtain ⟨e, he, -, hk⟩ := h.wellFormed.root
  rw [← h.sequencesBelow_eq he hk, sequences, tree, sequencesBelow, tree?_of_lookup? he]
  rfl

theorem Regular.candidates_eq (h : q.Regular) : q.candidates =
    (q.booleansFrom root).flatMap fun b =>
      ((q.children b).filter q.isGroup).flatMap q.alternatives := by
  rw [candidates, h.sequences_eq, List.flatMap_map]
  exact List.flatMap_congr fun b _ => flatten_sequenceAt b

/-- A boolean query is reached just if the terms of its groups have no generated one above them. -/
theorem Regular.reached_iff_isOpen (h : q.Regular) {b g d : Nat} (hg : g ∈ q.children b)
    (hgroup : q.isGroup g) (hd : d ∈ q.children g) : q.Reached b ↔ q.IsOpen d := by
  obtain ⟨b', e, he, hk, hg'⟩ := h.exists_boolean_of_isGroup hgroup
  obtain rfl := h.children_disjoint hg hg'
  rw [h.reached_iff he hk, IsOpen, h.ancestors_of_mem_children hd,
    h.ancestors_of_mem_children hg, List.forall_mem_cons (a := g)]
  exact (and_iff_right fun _ => (not_boolean_of_isGroup hgroup).2).symm

theorem Regular.mem_candidates_iff (h : q.Regular) {c : Candidate} : c ∈ q.candidates ↔
    ∃ b g d, q.Reached b ∧ g ∈ q.children b ∧ q.isGroup g ∧ d ∈ q.children g ∧
      q.candidate? d = some c := by
  simp only [h.candidates_eq, alternatives, List.mem_flatMap, List.mem_filter, List.mem_filterMap,
    h.mem_booleansFrom_root_iff]
  constructor
  · rintro ⟨b, hb, g, ⟨hg, hgroup⟩, d, hd, hc⟩
    exact ⟨b, g, d, hb, hg, hgroup, hd, hc⟩
  · rintro ⟨b, g, d, hb, hg, hgroup, hd, hc⟩
    exact ⟨b, hb, g, ⟨hg, hgroup⟩, d, hd, hc⟩

/-- What stands in the sequences are the given terms without a generated boolean query above. -/
theorem Regular.mem_candidates_iff_isOpen (h : q.Regular) {c : Candidate} : c ∈ q.candidates ↔
    ∃ t, q.term? c.id = some t ∧ t.generated = false ∧ c.value = t.value ∧
      c.fields = t.fields ∧ q.IsOpen c.id := by
  rw [h.mem_candidates_iff]
  constructor
  · rintro ⟨b, g, d, hb, hg, hgroup, hd, hc⟩
    obtain ⟨rfl, t, ht, hgiven, hvalue, hfields⟩ := candidate?_eq_some_iff.1 hc
    exact ⟨t, ht, hgiven, hvalue, hfields, (h.reached_iff_isOpen hg hgroup hd).1 hb⟩
  · rintro ⟨t, ht, hgiven, hvalue, hfields, hopen⟩
    obtain ⟨e, he, hn⟩ := term?_eq_some_iff.1 ht
    have hroot := h.wellFormed.ne_root_of_term (hasKind_of_term? (by rw [ht]; rfl))
    obtain ⟨g, f, hf, hd, hadmits⟩ := h.exists_admits hroot he
    have hgroup : q.isGroup g := by
      refine isGroup_iff.2 ⟨f, hf, ?_⟩
      rw [← Node.admits_eq] at hadmits
      exact Node.kind_eq_group hadmits (by rw [hn]; rfl)
    obtain ⟨b, -, -, -, hg⟩ := h.exists_boolean_of_isGroup hgroup
    exact ⟨b, g, c.id, (h.reached_iff_isOpen hg hgroup hd).2 hopen, hg, hgroup, hd,
      candidate?_eq_some_iff.2 ⟨rfl, t, ht, hgiven, hvalue, hfields⟩⟩

/-- No term stands twice in the sequences. -/
theorem Regular.nodup_candidates (h : q.Regular) : (q.candidates.map (·.id)).Nodup := by
  have hmem {g id : Nat} (hid : id ∈ (q.alternatives g).map (·.id)) : id ∈ q.children g := by
    obtain ⟨c, hc, rfl⟩ := List.mem_map.1 hid
    obtain ⟨d, hd, hc⟩ := List.mem_filterMap.1 hc
    rwa [(candidate?_eq_some_iff.1 hc).1]
  rw [h.candidates_eq, List.map_flatMap]
  simp only [List.map_flatMap]
  refine nodup_flatMap_of_owner (h.nodup_booleansFrom root) (fun b _ => ?_)
    fun b _ b' _ id hid hid' => ?_
  · refine nodup_flatMap_of_owner ((h.children_nodup b).filter _) (fun g _ => ?_)
      fun g _ g' _ id hid hid' => h.children_disjoint (hmem hid) (hmem hid')
    rw [alternatives, List.map_filterMap]
    refine (h.children_nodup g).filterMap fun d d' id hd hd' => ?_
    have hid {d : Nat} (hd : id ∈ (q.candidate? d).map (·.id)) : id = d := by
      obtain ⟨c, hc, rfl⟩ := Option.map_eq_some_iff.1 hd
      exact (candidate?_eq_some_iff.1 hc).1
    exact (hid hd).symm.trans (hid hd')
  · obtain ⟨g, hg, hid⟩ := List.mem_flatMap.1 hid
    obtain ⟨g', hg', hid'⟩ := List.mem_flatMap.1 hid'
    obtain rfl := h.children_disjoint (hmem hid) (hmem hid')
    exact h.children_disjoint (List.mem_filter.1 hg).1 (List.mem_filter.1 hg').1

/-- The sequences of a query are those of the root and of the boolean queries that it reaches
without passing one that a rule has made, depth first and each once. A term that no rule has made
stands in just one of them, once and as it is, if no boolean query above it below the root was made
by a rule; and nothing else stands there. -/
theorem Regular.sequences_exact (h : q.Regular) :
    q.sequences = (q.booleansFrom root).map q.sequenceAt ∧
    (∀ b, q.booleansFrom b = b :: (q.inner b).flatMap q.booleansFrom) ∧
    (∀ b, b ∈ q.booleansFrom root ↔ q.Reached b) ∧ (q.booleansFrom root).Nodup ∧
    (∀ c, c ∈ q.candidates ↔ ∃ t, q.term? c.id = some t ∧ t.generated = false ∧
      c.value = t.value ∧ c.fields = t.fields ∧ q.IsOpen c.id) ∧
    (q.candidates.map (·.id)).Nodup :=
  ⟨h.sequences_eq, h.booleansFrom_eq, fun _ => h.mem_booleansFrom_root_iff,
    h.nodup_booleansFrom root, fun _ => h.mem_candidates_iff_isOpen, h.nodup_candidates⟩

/-- A boolean query in a group has a sequence of its own. The word that a rule has added and the
words of the boolean query that a rule has added are left out. -/
theorem Regular.sequences_exact_nested : nestedQuery.Regular ∧
    nestedQuery.booleansFrom root = [root, 5] ∧
    nestedQuery.sequences = [⟨[[{ id := 2, value := "red" }], [{ id := 4, value := "laptop" }]]⟩,
      ⟨[[{ id := 7, value := "dark" }, { id := 8, value := "pink" }]]⟩] ∧
    nestedQuery.IsOpen 8 ∧ ∀ c ∈ nestedQuery.candidates, c.id ≠ 9 ∧ c.id ≠ 12 := by
  obtain ⟨hsequences, -, -, -, hcandidates, -⟩ := regular_nestedQuery.sequences_exact
  have hfrom : nestedQuery.booleansFrom root = [root, 5] := by decide +kernel
  have hexact : nestedQuery.sequences =
      [⟨[[{ id := 2, value := "red" }], [{ id := 4, value := "laptop" }]]⟩,
        ⟨[[{ id := 7, value := "dark" }, { id := 8, value := "pink" }]]⟩] := by
    rw [hsequences, hfrom]
    decide +kernel
  have hpink : { id := 8, value := "pink" } ∈ nestedQuery.candidates := by
    rw [candidates, hexact]
    decide
  obtain ⟨-, -, -, -, -, hopen⟩ := (hcandidates _).1 hpink
  refine ⟨regular_nestedQuery, hfrom, hexact, hopen, ?_⟩
  rw [candidates, hexact]
  decide

end Query

end QueryRules
