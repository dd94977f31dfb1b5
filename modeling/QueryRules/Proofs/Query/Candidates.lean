import QueryRules.Proofs.Query.WellFormed
import QueryRules.Query.Sequence

/-!
# The candidates of a query

- `QueryTree.induct`: induction over a tree with the hypothesis for every node below.
- `Query.tree?_of_lookup?`: the tree below a number is made of the node behind it and of the trees
  of its children.
- `Query.term?_of_mem_terms`: the terms of the tree of a query are those behind its numbers.
- `Query.exists_term?_of_mem_sequences`: a candidate of a sequence is a term that no rule has made,
  with its value and fields.
-/

namespace QueryRules

/-- A candidate stands for a term with a number: it has its value and fields, and no rule has made
the term. -/
def Candidate.StandsFor (c : Candidate) (p : Nat × Term) : Prop :=
  c.id = p.1 ∧ c.value = p.2.value ∧ c.fields = p.2.fields ∧ p.2.generated = false

namespace QueryTree

/-- Induction over trees; a node has the hypothesis for each of the nodes right below it. -/
@[elab_as_elim]
theorem induct {motive : QueryTree → Prop}
    (boolean : ∀ id o g cs, (∀ c ∈ cs, motive c) → motive (.boolean id o g cs))
    (group : ∀ id o g ds, (∀ d ∈ ds, motive d) → motive (.group id o g ds))
    (term : ∀ id t, motive (.term id t)) (t : QueryTree) : motive t :=
  @QueryTree.rec motive (fun ts => ∀ t ∈ ts, motive t) boolean group term (by simp)
    (fun _ _ ht hts => List.forall_mem_cons.2 ⟨ht, hts⟩) t

theorem termsOf_eq_flatMap (ts : List QueryTree) : termsOf ts = ts.flatMap terms := by
  induction ts with
  | nil => rfl
  | cons t ts ih => rw [termsOf, ih, List.flatMap_cons]

theorem mem_termsOf {p : Nat × Term} {ts : List QueryTree} :
    p ∈ termsOf ts ↔ ∃ t ∈ ts, p ∈ t.terms := by
  rw [termsOf_eq_flatMap, List.mem_flatMap]

theorem sequencesOf_eq_flatMap (ts : List QueryTree) :
    sequencesOf ts = ts.flatMap fun t => if t.isGeneratedBoolean then [] else t.sequences := by
  induction ts with
  | nil => rfl
  | cons t ts ih => rw [sequencesOf, ih, List.flatMap_cons]

theorem mem_sequencesOf {s : Sequence} {ts : List QueryTree} :
    s ∈ sequencesOf ts ↔ ∃ t ∈ ts, t.isGeneratedBoolean = false ∧ s ∈ t.sequences := by
  rw [sequencesOf_eq_flatMap, List.mem_flatMap]
  refine exists_congr fun t => and_congr_right fun _ => ?_
  cases t.isGeneratedBoolean <;> simp

theorem standsFor_of_givenTerm? {t : QueryTree} {c : Candidate} (h : t.givenTerm? = some c) :
    ∃ p ∈ t.terms, c.StandsFor p := by
  cases t with
  | term id t =>
    rw [givenTerm?, Option.ite_none_left_eq_some] at h
    obtain ⟨hg, h⟩ := h
    obtain rfl := Option.some.inj h
    exact ⟨(id, t), by simp [terms], rfl, rfl, rfl, Bool.eq_false_iff.2 hg⟩
  | _ => exact nomatch h

/-- The candidates of a position are terms of the clause that it stands for. -/
theorem standsFor_of_position? {t : QueryTree} {alternatives : List Candidate}
    (h : t.position? = some alternatives) {c : Candidate} (hc : c ∈ alternatives) :
    ∃ p ∈ t.terms, c.StandsFor p := by
  cases t with
  | group id o g ds =>
    obtain rfl := Option.some.inj h
    obtain ⟨d, hd, hgiven⟩ := List.mem_filterMap.1 hc
    obtain ⟨p, hp, hm⟩ := standsFor_of_givenTerm? hgiven
    exact ⟨p, by rw [terms]; exact mem_termsOf.2 ⟨d, hd, hp⟩, hm⟩
  | _ => exact nomatch h

/-- The candidates of the sequences of a tree are terms of the tree. -/
theorem standsFor_of_mem_sequences {t : QueryTree} {s : Sequence} (hs : s ∈ t.sequences)
    {c : Candidate} (hc : c ∈ s.positions.flatten) : ∃ p ∈ t.terms, c.StandsFor p := by
  have hbelow {ts : List QueryTree}
      (ih : ∀ t ∈ ts, s ∈ t.sequences → ∃ p ∈ t.terms, c.StandsFor p) (h : s ∈ sequencesOf ts) :
      ∃ p ∈ termsOf ts, c.StandsFor p := by
    obtain ⟨t, ht, -, h⟩ := mem_sequencesOf.1 h
    obtain ⟨p, hp, hm⟩ := ih t ht h
    exact ⟨p, mem_termsOf.2 ⟨t, ht, hp⟩, hm⟩
  induction t using induct with
  | boolean id o g cs ih =>
    rw [sequences, List.mem_cons] at hs
    rw [terms]
    rcases hs with rfl | hs
    · obtain ⟨alternatives, ha, hc⟩ := List.mem_flatten.1 hc
      obtain ⟨t, ht, hpos⟩ := List.mem_filterMap.1 ha
      obtain ⟨p, hp, hm⟩ := standsFor_of_position? hpos hc
      exact ⟨p, mem_termsOf.2 ⟨t, ht, hp⟩, hm⟩
    · exact hbelow ih hs
  | group id o g ds ih =>
    rw [sequences] at hs
    rw [terms]
    exact hbelow ih hs
  | term id t =>
    rw [sequences] at hs
    exact nomatch hs

end QueryTree

/-- The tree of a node with a number and the trees below it. -/
def Node.toTree (id : Nat) (ts : List QueryTree) : Node → QueryTree
  | .boolean o g _ => .boolean id o g ts
  | .group o g _ => .group id o g ts
  | .term t => .term id t

namespace Query

variable {q : Query}

/-- The trees of some children of a node. -/
def subtrees (q : Query) (id : Nat) (cs : List Nat) : List QueryTree :=
  cs.filterMap fun c => if id < c ∧ c < q.entries.length then q.tree? c else none

theorem subtrees_eq_filterMap {id : Nat} {cs : List Nat}
    (hcs : ∀ c ∈ cs, id < c ∧ c < q.entries.length) : q.subtrees id cs = cs.filterMap q.tree? :=
  List.filterMap_congr fun c hc => if_pos (hcs c hc)

theorem tree?_of_lookup? {id : Nat} {e : Entry} (h : q.lookup? id = some e) :
    q.tree? id = some (e.node.toTree id (q.subtrees id e.node.children)) := by
  rw [tree?, node?, h]
  cases e with
  | mk parent node => cases node <;> rfl

theorem exists_lookup?_of_tree? {id : Nat} {t : QueryTree} (h : q.tree? id = some t) :
    ∃ e, q.lookup? id = some e := by
  rw [tree?, node?] at h
  cases he : q.lookup? id with
  | none =>
    rw [he] at h
    cases h
  | some e => exact ⟨e, rfl⟩

/-- The terms of the tree below a node are those behind their numbers. -/
theorem term?_of_mem_terms {id : Nat} {t : QueryTree} (h : q.tree? id = some t) {p : Nat × Term}
    (hp : p ∈ t.terms) : q.term? p.1 = some p.2 := by
  -- the number of a node below is larger, so the numbers left decrease
  induction hn : q.entries.length - id using Nat.strongRecOn generalizing id t with
  | ind n ih =>
    have hbelow {cs : List Nat} (hm : p ∈ QueryTree.termsOf (q.subtrees id cs)) :
        q.term? p.1 = some p.2 := by
      obtain ⟨s, hs, hm⟩ := QueryTree.mem_termsOf.1 hm
      obtain ⟨c, -, hc⟩ := List.mem_filterMap.1 hs
      obtain ⟨hlt, hc⟩ := Option.ite_none_right_eq_some.1 hc
      exact ih _ (by omega) hc hm rfl
    obtain ⟨e, he⟩ := exists_lookup?_of_tree? h
    rw [tree?_of_lookup? he, Option.some.injEq] at h
    subst h
    cases hnode : e.node with
    | boolean o g cs =>
      rw [hnode, Node.toTree, QueryTree.terms] at hp
      exact hbelow hp
    | group o g ds =>
      rw [hnode, Node.toTree, QueryTree.terms] at hp
      exact hbelow hp
    | term t =>
      rw [hnode, Node.toTree, QueryTree.terms, List.mem_singleton] at hp
      rw [hp, term?, node?, he, Option.map_some, hnode]

/-- A candidate of a sequence of a query is a term of the query that no rule has made. -/
theorem exists_term?_of_mem_sequences {s : Sequence} (hs : s ∈ q.sequences) {c : Candidate}
    (hc : c ∈ s.positions.flatten) : ∃ t, q.term? c.id = some t ∧ c.value = t.value ∧
      c.fields = t.fields ∧ t.generated = false := by
  obtain ⟨⟨id, t⟩, hp, hid, hm⟩ := QueryTree.standsFor_of_mem_sequences hs hc
  refine ⟨t, ?_, hm⟩
  rw [hid]
  unfold tree at hp
  cases htree : q.tree? root with
  | none =>
    rw [htree] at hp
    exact nomatch hp
  | some tree =>
    rw [htree] at hp
    exact term?_of_mem_terms htree hp

end Query

end QueryRules
