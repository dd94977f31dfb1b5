import QueryRules.Proofs.Except
import QueryRules.Proofs.Query.Edits
import QueryRules.Request.Step

/-!
# Adding alternatives

- `Query.Grown q q'`: edits have led from `q` to `q'` that only add nodes of rules.
  `Query.Widened q q'`: of the nodes of `q` only groups have new children.
- `Widened.addAlternative_ok`, `WellFormed.addSynonyms_ok`: alternatives of rules can be added to
  the groups of the terms that are still there, and this widens the query.
-/

namespace QueryRules

namespace Query

variable {q q' q'' : Query}

/-- A framed query that still has every node. -/
structure Grown (q q' : Query) : Prop extends Framed q q' where
  live : ∀ id, q.isLive id → q'.isLive id

theorem Grown.refl (h : q.WellFormed) : q.Grown q := ⟨.refl h, fun _ h => h⟩

theorem Grown.trans (hq : q.WellFormed) (h : q.Grown q') (h' : q'.Grown q'') : q.Grown q'' where
  toFramed := h.toFramed.trans hq h'.toFramed
  live id hid := h'.live id (h.live id hid)

theorem Framed.kind_eq (h : q.Framed q') {id : Nat} {e e' : Entry} (he : q.lookup? id = some e)
    (he' : q'.lookup? id = some e') : e'.node.kind = e.node.kind := by
  rw [← Node.kind_bare, (h.kept id e e' he he').2, Node.kind_bare]

/-- What is there keeps its kind. -/
theorem Grown.hasKind (h : q.Grown q') {id : Nat} {k : NodeKind} (hk : q.HasKind id k) :
    q'.HasKind id k := by
  obtain ⟨n, hn, rfl⟩ := hk
  obtain ⟨e, he, rfl⟩ := lookup?_of_node? hn
  obtain ⟨e', he'⟩ := isLive_iff.1 (h.live id (isLive_of_lookup? he))
  exact ⟨e'.node, by rw [node?, he']; rfl, h.kind_eq he he'⟩

/-- The old numbers have the terms behind them that they had. -/
theorem Grown.term?_eq (h : q.Grown q') {id : Nat} (hid : id < q.entries.length) :
    q'.term? id = q.term? id := by
  cases ht : q.term? id with
  | some t =>
    obtain ⟨e, he, -⟩ := term?_eq_some_iff.1 ht
    exact h.toFramed.term?_eq ht (h.live id (isLive_of_lookup? he))
  | none =>
    rw [Option.eq_none_iff_forall_ne_some]
    intro t ht'
    obtain ⟨e', he', hn'⟩ := term?_eq_some_iff.1 ht'
    obtain ⟨e, he⟩ := isLive_iff.1 (h.toLater.isLive_of_isLive hid (isLive_of_lookup? he'))
    have hbare := (h.kept id e e' he he').2
    rw [hn', Node.bare_term] at hbare
    have hn := Node.withChildren_eq_term.1 hbare.symm
    rw [term?_eq_some_iff.2 ⟨e, he, hn⟩] at ht
    exact nomatch ht

/-- The parent of a term that is there is a group. -/
theorem WellFormed.hasKind_groupOf? (h : q.WellFormed) {id g : Nat}
    (hg : q.groupOf? id = some g) : q.HasKind g .group := by
  unfold groupOf? at hg
  obtain ⟨t, ht, hp⟩ := Option.bind_eq_some_iff.1 hg
  have hterm : q.HasKind id .term := hasKind_of_term? (by rw [ht]; rfl)
  have hroot := h.ne_root_of_term hterm
  obtain ⟨n, hn, hk⟩ := hterm
  obtain ⟨e, he, rfl⟩ := lookup?_of_node? hn
  obtain ⟨p, f, hparent, hf, -, hadmits⟩ := h.listed id e hroot he
  rw [parent?, he, Option.bind_some, hparent, Option.some.injEq] at hp
  subst hp
  exact ⟨f.node, by rw [node?, hf]; rfl, Node.kind_eq_group hadmits hk⟩

/-- A grown query in which the old boolean queries have their old clauses. -/
structure Widened (q q' : Query) : Prop extends Grown q q' where
  clauses : ∀ id e e', q.lookup? id = some e → q'.lookup? id = some e' →
    e.node.kind = .boolean → e'.node.children = e.node.children

theorem Widened.refl (h : q.WellFormed) : q.Widened q where
  toGrown := .refl h
  clauses id e e' he he' _ := by
    obtain rfl := Option.some.inj (he.symm.trans he')
    rfl

theorem Widened.trans (hq : q.WellFormed) (h : q.Widened q') (h' : q'.Widened q'') :
    q.Widened q'' where
  toGrown := h.toGrown.trans hq h'.toGrown
  clauses id e e'' he he'' hk := by
    obtain ⟨e', he'⟩ := isLive_iff.1 (h.live id (isLive_of_lookup? he))
    have hk' := (h.kind_eq he he').trans hk
    exact (h'.clauses id e' e'' he' he'' hk').trans (h.clauses id e e' he he' hk)

/-- A node of a rule can be added where one of its kind may stand. -/
theorem WellFormed.addChild_ok (h : q.WellFormed) (node : Node) {parent : Nat} {k : NodeKind}
    (hp : q.HasKind parent k) (ha : k.admits node.kind) (hc : node.children = [])
    (hg : node.isGenerated) :
    Succeeds (q.addChild parent node) fun r => q.Grown r.1 ∧ r.1.HasKind r.2 node.kind := by
  have hattach := addChild_eq_attach hp ha hc
  obtain ⟨p, hp, rfl⟩ := hp
  rw [← Node.admits_eq] at ha
  exact ⟨q.attach parent node, hattach, ⟨h.framed_attach hp ha hc hg, fun id => q.isLive_attach⟩,
    node, q.node?_attach_self parent node, rfl⟩

/-- Attaching a node to a group or to a new node still widens the old query. -/
theorem Widened.of_addChild (hq : q.WellFormed) (h : q.Widened q') {node : Node} {parent : Nat}
    {k : NodeKind} (hp : q'.HasKind parent k) (hk : k = .group ∨ q.lookup? parent = none)
    {r : Query × Nat} (ha : q'.addChild parent node = .ok r) (hgrown : q'.Grown r.1) :
    q.Widened r.1 ∧ q.lookup? r.2 = none := by
  obtain ⟨⟨p, hnode, hadmits, -⟩, rfl⟩ := attach_of_addChild ha
  refine ⟨⟨h.toGrown.trans hq hgrown, fun id e e'' he he'' hboolean => ?_⟩,
    q.lookup?_eq_none_of_le h.length_le⟩
  have hid := Nat.ne_of_lt (Nat.lt_of_lt_of_le (lt_length_of_lookup? he) h.length_le)
  obtain ⟨e', he', -, -, hchildren⟩ := q'.lookup?_attach_of_ne hnode hadmits hid he''
  have hne : id ≠ parent := by
    rintro rfl
    rcases hk with rfl | hnone
    · -- a boolean query of `q` is not a group now
      obtain ⟨n, hn, hgroup⟩ := hp
      rw [node?, he', Option.map_some, Option.some.injEq] at hn
      rw [← hn, h.kind_eq he he', hboolean] at hgroup
      cases hgroup
    · exact Option.some_ne_none e (he.symm.trans hnone)
  rw [hchildren, if_neg hne, List.append_nil]
  exact h.clauses id e e' he he' hboolean

/-- A node of a rule can be added to a group or to a new node. -/
theorem Widened.addChild_ok (hq : q.WellFormed) (h : q.Widened q') (node : Node) {parent : Nat}
    {k : NodeKind} (hp : q'.HasKind parent k) (hk : k = .group ∨ q.lookup? parent = none)
    (ha : k.admits node.kind) (hc : node.children = []) (hg : node.isGenerated) :
    Succeeds (q'.addChild parent node) fun r => (q.Widened r.1 ∧ q.lookup? r.2 = none) ∧
      q'.Grown r.1 ∧ r.1.HasKind r.2 node.kind := by
  obtain ⟨r, hr, hgrown, hkind⟩ := h.wellFormed.addChild_ok node hp ha hc hg
  exact ⟨r, hr, h.of_addChild hq hp hk hr hgrown, hgrown, hkind⟩

/-- An alternative of a rule can be added to a group. -/
theorem Widened.addAlternative_ok (hq : q.WellFormed) (h : q.Widened q') {group : Nat}
    (hg : q'.HasKind group .group) {terms : List Term} (ht : ∀ t ∈ terms, t.generated) :
    Succeeds (q'.addAlternative group terms) q.Widened := by
  unfold addAlternative
  split
  · rename_i t
    have hadd := h.addChild_ok hq (.term t) hg (.inl rfl) rfl rfl (ht t (by simp))
    exact (hadd.imp fun r hr => hr.1.1).map
  · refine (h.addChild_ok hq (.boolean .should true []) hg (.inl rfl) rfl rfl rfl).bind ?_
    rintro ⟨q₁, clause⟩ ⟨⟨h₁, hnew⟩, -, hclause⟩
    -- the new boolean query is still there for every term
    refine (Succeeds.foldlM (P := fun q' => q.Widened q' ∧ q'.HasKind clause .boolean)
      ⟨h₁, hclause⟩ ?_).imp fun q' hq' => hq'.1
    intro q₂ ⟨h₂, hclause₂⟩ t hm
    refine (h₂.addChild_ok hq (.group .must true []) hclause₂ (.inr hnew) rfl rfl rfl).bind ?_
    rintro ⟨q₃, g⟩ ⟨⟨h₃, -⟩, hgrown₃, hg₃⟩
    refine (h₃.addChild_ok hq (.term t) hg₃ (.inl rfl) rfl rfl (ht t hm)).bind ?_
    rintro ⟨q₄, _⟩ ⟨⟨h₄, -⟩, hgrown₄, -⟩
    exact ⟨q₄, rfl, h₄, hgrown₄.hasKind (hgrown₃.hasKind hclause₂)⟩

/-- Alternatives of rules can be added to the groups of the terms that are still there. -/
theorem WellFormed.addSynonyms_ok (h : q.WellFormed) (matched : List Nat) {terms : List Term}
    (ht : ∀ t ∈ terms, t.generated) : Succeeds (q.addSynonyms matched terms) q.Widened := by
  refine Succeeds.map (Succeeds.foldlM (P := fun s : Query × List Nat => q.Widened s.1) ?_ ?_)
  · exact .refl h
  intro s hs id _
  unfold addSynonym
  split
  · exact ⟨s, rfl, hs⟩
  · rename_i group hgroup
    split
    · exact ⟨s, rfl, hs⟩
    · have hkind := hs.wellFormed.hasKind_groupOf? hgroup
      have hadd := hs.addAlternative_ok h hkind ht
      exact Succeeds.map (f := (·, group :: s.2)) hadd

end Query

end QueryRules
