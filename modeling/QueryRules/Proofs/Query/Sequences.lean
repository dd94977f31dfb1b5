import QueryRules.Proofs.Query.Alternatives
import QueryRules.Proofs.Query.Candidates

/-!
# The sequences of a widened query

What rules add to the groups of a query stands in none of its sequences.

- `QueryTree.Alike` and `QueryTree.IsHidden`: two nodes stand for the same in sequences, and a node
  stands for nothing there. `QueryTree.AlikeAll` is the former for lists, up to hidden nodes.
- `Query.Widened.alike`: an old node of a widened query is alike, and its new children are hidden
  (`Query.Widened.isHidden`).
- `Query.Widened.sequences_eq`: so a widened query has the sequences that it had.
-/

namespace QueryRules

namespace QueryTree

variable {t t' : QueryTree} {ts ts' : List QueryTree}

/-- Two nodes stand for the same in the sequences of a query. -/
structure Alike (t t' : QueryTree) : Prop where
  givenTerm? : t'.givenTerm? = t.givenTerm?
  position? : t'.position? = t.position?
  isGeneratedBoolean : t'.isGeneratedBoolean = t.isGeneratedBoolean
  sequences : t'.sequences = t.sequences

/-- A node stands for nothing in the sequences of a query. -/
structure IsHidden (t : QueryTree) : Prop where
  givenTerm? : t.givenTerm? = none
  position? : t.position? = none
  sequences : t.isGeneratedBoolean = true ∨ t.sequences = []

/-- The nodes of the first list are alike those of the second one that are not hidden. -/
inductive AlikeAll : List QueryTree → List QueryTree → Prop
  | nil : AlikeAll [] []
  | cons {t t' : QueryTree} {ts ts' : List QueryTree} (h : t.Alike t') (hs : AlikeAll ts ts') :
    AlikeAll (t :: ts) (t' :: ts')
  | hidden {t' : QueryTree} {ts ts' : List QueryTree} (h : t'.IsHidden) (hs : AlikeAll ts ts') :
    AlikeAll ts (t' :: ts')

/-- What hidden nodes do not have, and alike nodes have in common, is the same for both lists. -/
theorem AlikeAll.filterMap_eq {α : Type} {f : QueryTree → Option α}
    (halike : ∀ {t t' : QueryTree}, t.Alike t' → f t' = f t)
    (hhidden : ∀ {t : QueryTree}, t.IsHidden → f t = none) (h : AlikeAll ts ts') :
    ts'.filterMap f = ts.filterMap f := by
  induction h with
  | nil => rfl
  | cons h _ ih => rw [List.filterMap_cons, List.filterMap_cons, halike h, ih]
  | hidden h _ ih => rw [List.filterMap_cons, hhidden h, ih]

theorem AlikeAll.sequencesOf (h : AlikeAll ts ts') :
    QueryTree.sequencesOf ts' = QueryTree.sequencesOf ts := by
  induction h with
  | nil => rfl
  | cons h _ ih =>
    rw [QueryTree.sequencesOf, QueryTree.sequencesOf, h.isGeneratedBoolean, h.sequences, ih]
  | hidden h _ ih =>
    rw [QueryTree.sequencesOf, ih]
    rcases h.sequences with hgenerated | hnone
    · rw [if_pos hgenerated, List.nil_append]
    · rw [hnone, ite_self, List.nil_append]

end QueryTree

namespace Node

theorem toTree_bare (n : Node) (id : Nat) (ts : List QueryTree) :
    n.bare.toTree id ts = n.toTree id ts := by
  cases n <;> rfl

/-- A node over alike nodes is alike. -/
theorem alike_toTree {n n' : Node} (hn : n'.bare = n.bare) {ts ts' : List QueryTree}
    (h : QueryTree.AlikeAll ts ts') (id : Nat) : (n.toTree id ts).Alike (n'.toTree id ts') := by
  rw [← n'.toTree_bare, hn, toTree_bare]
  cases n with
  | boolean o g cs =>
    refine ⟨rfl, rfl, rfl, ?_⟩
    rw [toTree, toTree, QueryTree.sequences, QueryTree.sequences, h.sequencesOf,
      h.filterMap_eq QueryTree.Alike.position? QueryTree.IsHidden.position?]
  | group o g ds =>
    refine ⟨rfl, ?_, rfl, ?_⟩
    · rw [toTree, toTree, QueryTree.position?, QueryTree.position?,
        h.filterMap_eq QueryTree.Alike.givenTerm? QueryTree.IsHidden.givenTerm?]
    · rw [toTree, toTree, QueryTree.sequences, QueryTree.sequences, h.sequencesOf]
  | term t => exact ⟨rfl, rfl, rfl, rfl⟩

end Node

namespace Query

variable {q q' : Query}

/-- The children of a node that are new in a widened query are hidden. -/
theorem Widened.isHidden (hq : q.WellFormed) (h : q.Widened q') {id : Nat} {e e' : Entry}
    (he : q.lookup? id = some e) (he' : q'.lookup? id = some e') {c : Nat}
    (hc : c ∈ e'.node.children) (hnew : q.isLive c = false) {t : QueryTree}
    (ht : q'.tree? c = some t) : t.IsHidden := by
  obtain ⟨n, hn, hparent⟩ := h.wellFormed.child id e' c he' hc
  obtain ⟨hgenerated, -⟩ := h.fresh c n (isLive_eq_false_iff.1 hnew) hn
  obtain ⟨p, f, hp, hf, -, hadmits⟩ :=
    h.wellFormed.listed c n (h.wellFormed.ne_root hn hparent) hn
  obtain rfl := Option.some.inj (hp.symm.trans hparent)
  obtain rfl := Option.some.inj (hf.symm.trans he')
  have hgroup : f.node.kind = .group := by
    cases hk : f.node.kind with
    | group => rfl
    | term =>
      rw [Node.admits_eq, hk] at hadmits
      exact nomatch hadmits
    | boolean =>
      -- an old boolean query has its old clauses
      rw [h.clauses p e f he hf ((h.kind_eq he hf).symm.trans hk)] at hc
      rw [hq.isLive_of_mem he hc] at hnew
      exact nomatch hnew
  rw [Node.admits_eq, hgroup] at hadmits
  rw [tree?_of_lookup? hn] at ht
  obtain rfl := Option.some.inj ht
  cases hnode : n.node with
  | group o g ds =>
    rw [hnode] at hadmits
    exact nomatch hadmits
  | boolean o g cs =>
    rw [hnode] at hgenerated
    exact ⟨rfl, rfl, .inl hgenerated⟩
  | term t =>
    rw [hnode] at hgenerated
    exact ⟨if_pos hgenerated, rfl, .inr rfl⟩

/-- The subtrees of a node are alike if those of its old children are and the others are hidden. -/
theorem alikeAll_subtrees (hlength : q.entries.length ≤ q'.entries.length) {id : Nat}
    {cs : List Nat} (hold : ∀ c ∈ cs, id < c → q.isLive c = true →
      ∃ t t', q.tree? c = some t ∧ q'.tree? c = some t' ∧ t.Alike t')
    (hnew : ∀ c ∈ cs, q.isLive c = false → ∀ t, q'.tree? c = some t → t.IsHidden) :
    QueryTree.AlikeAll (q.subtrees id (cs.filter q.isLive)) (q'.subtrees id cs) := by
  induction cs with
  | nil => exact .nil
  | cons c cs ih =>
    obtain ⟨hold, hold'⟩ := List.forall_mem_cons.1 hold
    obtain ⟨hnew, hnew'⟩ := List.forall_mem_cons.1 hnew
    have ih := ih hold' hnew'
    cases hlive : q.isLive c with
    | false =>
      rw [List.filter_cons, hlive, if_neg Bool.false_ne_true]
      by_cases hc : id < c ∧ c < q'.entries.length
      · cases ht : q'.tree? c with
        | none => simpa [subtrees, hc, ht] using ih
        | some t => simpa [subtrees, hc, ht] using .hidden (hnew hlive t ht) ih
      · simpa [subtrees, hc] using ih
    | true =>
      have hlt : c < q.entries.length := lt_length_of_isLive hlive
      have hlt' : c < q'.entries.length := Nat.lt_of_lt_of_le hlt hlength
      rw [List.filter_cons, hlive, if_pos rfl]
      by_cases hc : id < c
      · obtain ⟨t, t', ht, ht', halike⟩ := hold hc hlive
        simpa [subtrees, hc, hlt, hlt', ht, ht'] using .cons halike ih
      · simpa [subtrees, hc] using ih

/-- The old nodes of a widened query stand for what they stood for. -/
theorem Widened.alike (hq : q.WellFormed) (h : q.Widened q') {id : Nat} (hid : q.isLive id) :
    ∃ t t', q.tree? id = some t ∧ q'.tree? id = some t' ∧ t.Alike t' := by
  -- the number of a node below is larger, so the numbers left decrease
  induction hn : q.entries.length - id using Nat.strongRecOn generalizing id with
  | ind n ih =>
    obtain ⟨e, he⟩ := isLive_iff.1 hid
    obtain ⟨e', he'⟩ := isLive_iff.1 (h.live id hid)
    have hchildren : e'.node.children.filter q.isLive = e.node.children := by
      rw [h.order id e e' he he', List.filter_eq_self]
      exact fun c hc => h.live c (hq.isLive_of_mem he hc)
    have hbelow : QueryTree.AlikeAll (q.subtrees id e.node.children)
        (q'.subtrees id e'.node.children) := by
      rw [← hchildren]
      refine alikeAll_subtrees h.length_le (fun c _ hc hlive => ?_) fun c hc hnew t ht =>
        h.isHidden hq he he' hc hnew ht
      have hlt := lt_length_of_isLive hlive
      exact ih _ (by omega) hlive rfl
    exact ⟨_, _, tree?_of_lookup? he, tree?_of_lookup? he',
      Node.alike_toTree (h.kept id e e' he he').2 hbelow id⟩

/-- A widened query has the sequences that it had. -/
theorem Widened.sequences_eq (hq : q.WellFormed) (h : q.Widened q') :
    q'.sequences = q.sequences := by
  obtain ⟨e, he, -⟩ := hq.root
  obtain ⟨t, t', ht, ht', halike⟩ := h.alike hq (isLive_of_lookup? he)
  rw [sequences, sequences, tree, tree, ht, ht', Option.getD_some, Option.getD_some,
    halike.sequences]

end Query

end QueryRules
