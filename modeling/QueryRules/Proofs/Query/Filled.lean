import QueryRules.Proofs.Query.Alternatives

/-!
# Boolean queries and groups without children

- `Query.IsHollow`: a boolean query or group without children. `Query.Filled`: none stands below the
  root. While a node is added or removed there may be one in a single place (`Query.FilledBut`).
- `Regular.filled_prune`: removing a childless node removes just those ancestors that this leaves
  hollow.
- `Filled.eraseTerm`, `Filled.addSynonyms`: so what rules do to a query leaves it filled.
-/

namespace QueryRules

namespace Query

variable {q q' : Query}

/-- A boolean query or group without children stands behind the number. -/
def IsHollow (q : Query) (id : Nat) : Prop :=
  ∃ e, q.lookup? id = some e ∧ e.node.kind ≠ .term ∧ e.node.children = []

/-- Below the root only one place may be hollow. -/
def FilledBut (hole : Nat) (q : Query) : Prop := ∀ id, q.IsHollow id → id = root ∨ id = hole

/-- Below the root no node is hollow. -/
def Filled (q : Query) : Prop := ∀ id, q.IsHollow id → id = root

theorem Filled.but (h : q.Filled) (hole : Nat) : q.FilledBut hole := fun id hid => .inl (h id hid)

/-! ## Removing a term -/

/-- Only the parent of a node can become hollow when the node is removed. -/
theorem WellFormed.isHollow_of_remove (h : q.WellFormed) {parent id : Nat} {s : Entry}
    (hs : q.lookup? id = some s) (hp : s.parent = some parent) {i : Nat}
    (hi : (q.remove parent id).IsHollow i) : i ≠ id ∧ (i = parent ∨ q.IsHollow i) := by
  obtain ⟨e', he', hk', hc'⟩ := hi
  obtain ⟨hne, e, he, -, hk, hc⟩ := h.lookup?_of_remove hs hp he'
  refine ⟨hne, ?_⟩
  by_cases hm : id ∈ e.node.children
  · obtain ⟨s', hs', hparent⟩ := h.child i e id he hm
    obtain rfl := Option.some.inj (hs.symm.trans hs')
    exact .inl (Option.some.inj (hparent.symm.trans hp))
  · have hkept : e.node.children.filter (· ≠ id) = e.node.children := by
      rw [List.filter_eq_self]
      intro c hmem
      rw [decide_eq_true_eq]
      exact fun hcid => hm (hcid ▸ hmem)
    exact .inr ⟨e, he, hk ▸ hk', hkept ▸ hc.symm.trans hc'⟩

/-- A childless node can be removed from a query in which nothing else is hollow: the ancestors that
this leaves hollow go with it. -/
theorem Regular.filled_prune (h : q.Regular) {id : Nat} {s : Entry} (hid : id ≠ root)
    (hs : q.lookup? id = some s) (hc : s.node.children = []) (hf : q.FilledBut id) :
    (q.prune id).Filled := by
  induction q, id using prune.induct generalizing s with
  | case1 q id hnone =>
    obtain ⟨p, -, hp, -⟩ := h.wellFormed.listed id s hid hs
    rw [parent?, hs, Option.bind_some, hp] at hnone
    exact absurd hnone (Option.some_ne_none p)
  | case2 q id p hp q' hstop =>
    rw [prune, hp]
    dsimp only
    rw [if_pos hstop]
    rw [parent?, hs, Option.bind_some] at hp
    intro i hi
    obtain ⟨hne, hparent | hhollow⟩ := h.wellFormed.isHollow_of_remove hs hp hi
    · subst hparent
      rcases hstop with hroot | hchildren | hle
      · exact hroot
      · obtain ⟨e', he', -, hc'⟩ := hi
        rw [children, node?, show q'.lookup? i = _ from he'] at hchildren
        exact absurd hc' hchildren
      · exact absurd (h.parent_lt id s i hs hp) (Nat.not_lt.2 hle)
    · exact (hf i hhollow).resolve_right hne
  | case3 q id p hp q' hgo ih =>
    rw [prune, hp]
    dsimp only
    rw [if_neg hgo]
    rw [parent?, hs, Option.bind_some] at hp
    simp only [not_or, not_not, Nat.not_le] at hgo
    obtain ⟨hroot, hchildren, hlt⟩ := hgo
    have hregular : q'.Regular := (h.wellFormed.framed_remove hs hp hc).regular h
    -- the parent is still there and is the one hollow node
    obtain ⟨i, f, hi, hf', -, -⟩ := h.wellFormed.listed id s hid hs
    obtain rfl : i = p := Option.some.inj (hi.symm.trans hp)
    have hparent := (q.lookup?_remove i id).2 ⟨Nat.ne_of_lt hlt, f, hf', rfl⟩
    rw [children, node?, show q'.lookup? i = _ from hparent] at hchildren
    refine ih hregular hroot hparent hchildren fun j hj => ?_
    obtain ⟨hne, hjparent | hhollow⟩ := h.wellFormed.isHollow_of_remove hs hp hj
    · exact .inr hjparent
    · exact .inl ((hf j hhollow).resolve_right hne)

theorem Filled.eraseTerm (hf : q.Filled) (h : q.Regular) (id : Nat) : (q.eraseTerm id).Filled := by
  unfold Query.eraseTerm eraseTerm?
  split
  · rename_i ht
    have hroot := h.wellFormed.ne_root_of_term (hasKind_of_term? ht)
    obtain ⟨t, ht⟩ := Option.isSome_iff_exists.1 ht
    obtain ⟨e, he, hn⟩ := term?_eq_some_iff.1 ht
    exact h.filled_prune hroot he (by rw [hn]; rfl) (hf.but id)
  · exact hf

/-! ## Adding alternatives -/

/-- An added node fills its parent and is hollow itself unless it is a term. -/
theorem isHollow_of_addChild {parent : Nat} {node : Node} {r : Query × Nat}
    (h : q.addChild parent node = .ok r) {id : Nat} (hid : r.1.IsHollow id) :
    (id = r.2 ∧ node.kind ≠ .term) ∨ (id ≠ parent ∧ q.IsHollow id) := by
  obtain ⟨⟨p, hp, hadmits, hc⟩, rfl⟩ := attach_of_addChild h
  obtain ⟨e', he', hk', hc'⟩ := hid
  by_cases hnew : id = q.entries.length
  · subst hnew
    rw [lookup?_attach_self, Option.some.injEq] at he'
    subst he'
    exact .inl ⟨rfl, hk'⟩
  · obtain ⟨e, he, -, hk, hchildren⟩ := q.lookup?_attach_of_ne hp hadmits hnew he'
    rw [hchildren, List.append_eq_nil_iff] at hc'
    refine .inr ⟨fun hparent => ?_, e, he, hk ▸ hk', hc'.1⟩
    rw [if_pos hparent] at hc'
    exact List.cons_ne_nil _ _ hc'.2

/-- A term fills the group that it is added to. -/
theorem FilledBut.of_addTerm {group : Nat} {t : Term} {r : Query × Nat} (hf : q.FilledBut group)
    (h : q.addTerm group t = .ok r) : r.1.Filled := by
  intro id hid
  rcases isHollow_of_addChild h hid with ⟨-, hk⟩ | ⟨hne, hhollow⟩
  · exact absurd rfl hk
  · exact (hf id hhollow).resolve_right hne

/-- Another node fills its parent and is the one that is hollow. -/
theorem FilledBut.of_addChild {parent : Nat} {node : Node} {r : Query × Nat}
    (hf : q.FilledBut parent) (h : q.addChild parent node = .ok r) : r.1.FilledBut r.2 := by
  intro id hid
  rcases isHollow_of_addChild h hid with ⟨hnew, -⟩ | ⟨hne, hhollow⟩
  · exact .inr hnew
  · exact .inl ((hf id hhollow).resolve_right hne)

/-- The query with one more term that must occur in a boolean query. -/
def addRequired (clause : Nat) (q : Query) (t : Term) : Except AddFault Query := do
  let (q, g) ← q.addGroup clause .must true
  let (q, _) ← q.addTerm g t
  return q

theorem addAlternative_of_ne_singleton (q : Query) (group : Nat) {terms : List Term}
    (h : ∀ t, terms ≠ [t]) : q.addAlternative group terms =
      (do let (q, clause) ← q.addNested group .should true
          terms.foldlM (addRequired clause) q) := by
  unfold addAlternative
  split
  · exact absurd rfl (h _)
  · rfl

theorem FilledBut.of_addRequired {clause : Nat} {t : Term} (hf : q.FilledBut clause)
    (h : addRequired clause q t = .ok q') : q'.Filled := by
  obtain ⟨⟨q₁, g⟩, h₁, h⟩ := bind_eq_ok_iff.1 h
  obtain ⟨⟨q₂, id⟩, h₂, h⟩ := bind_eq_ok_iff.1 h
  obtain rfl := Except.ok.inj h
  exact (hf.of_addChild h₁).of_addTerm h₂

theorem FilledBut.of_addRequireds {clause : Nat} {terms : List Term} (hf : q.FilledBut clause)
    (hne : terms ≠ []) (h : terms.foldlM (addRequired clause) q = .ok q') : q'.Filled := by
  induction terms generalizing q with
  | nil => exact absurd rfl hne
  | cons t terms ih =>
    rw [List.foldlM_cons, bind_eq_ok_iff] at h
    obtain ⟨q₁, h₁, h⟩ := h
    have hfilled := hf.of_addRequired h₁
    cases terms with
    | nil =>
      obtain rfl := Except.ok.inj h
      exact hfilled
    | cons t' terms => exact ih (hfilled.but clause) (List.cons_ne_nil _ _) h

/-- An alternative of at least one term leaves a query filled. -/
theorem Filled.addAlternative (hf : q.Filled) {group : Nat} {terms : List Term} (hne : terms ≠ [])
    (h : q.addAlternative group terms = .ok q') : q'.Filled := by
  by_cases hone : ∃ t, terms = [t]
  · obtain ⟨t, rfl⟩ := hone
    obtain ⟨r, hr, rfl⟩ := exists_of_map_eq_ok h
    exact (hf.but group).of_addTerm hr
  · rw [addAlternative_of_ne_singleton q group fun t ht => hone ⟨t, ht⟩, bind_eq_ok_iff] at h
    obtain ⟨⟨q₁, clause⟩, h₁, h⟩ := h
    exact ((hf.but group).of_addChild h₁).of_addRequireds hne h

/-- What added nodes keep, added alternatives keep. -/
theorem addAlternative_invariant {P : Query → Prop}
    (hadd : ∀ q parent node r, P q → q.addChild parent node = .ok r → P r.1) (h : P q) {group : Nat}
    {terms : List Term} (ha : q.addAlternative group terms = .ok q') : P q' := by
  by_cases hone : ∃ t, terms = [t]
  · obtain ⟨t, rfl⟩ := hone
    obtain ⟨r, hr, rfl⟩ := exists_of_map_eq_ok ha
    exact hadd q group _ r h hr
  · rw [addAlternative_of_ne_singleton q group fun t ht => hone ⟨t, ht⟩, bind_eq_ok_iff] at ha
    obtain ⟨⟨q₁, clause⟩, h₁, ha⟩ := ha
    refine foldlM_invariant (hadd q group _ _ h h₁) (fun q₂ h₂ t _ q₃ h₃ => ?_) ha
    obtain ⟨⟨q₄, g⟩, h₄, h₃⟩ := bind_eq_ok_iff.1 h₃
    obtain ⟨⟨q₅, id⟩, h₅, h₃⟩ := bind_eq_ok_iff.1 h₃
    obtain rfl := Except.ok.inj h₃
    exact hadd q₄ g _ _ (hadd q₂ clause _ _ h₂ h₄) h₅

/-- Synonyms of at least one term keep a regular query filled. -/
theorem Filled.addSynonyms (hf : q.Filled) (h : q.Regular) {matched : List Nat} {terms : List Term}
    (hne : terms ≠ []) (ha : q.addSynonyms matched terms = .ok q') : q'.Regular ∧ q'.Filled := by
  obtain ⟨s, hs, rfl⟩ := exists_of_map_eq_ok ha
  refine foldlM_invariant (P := fun s => s.1.Regular ∧ s.1.Filled) ⟨h, hf⟩ ?_ hs
  intro s₁ h₁ id _ s₂ h₂
  unfold addSynonym at h₂
  split at h₂
  · exact Except.ok.inj h₂ ▸ h₁
  · split at h₂
    · exact Except.ok.inj h₂ ▸ h₁
    · obtain ⟨q₂, hadd, rfl⟩ := exists_of_map_eq_ok h₂
      exact ⟨addAlternative_invariant (fun _ _ _ _ hq hr => hq.addChild hr) h₁.1 hadd,
        h₁.2.addAlternative hne hadd⟩

end Query

end QueryRules
