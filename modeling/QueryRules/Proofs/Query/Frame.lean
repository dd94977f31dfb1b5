import QueryRules.Proofs.Query.WellFormed

/-!
# What edits leave as it is

- `Query.Later q q'`: a number that has been given away in `q` and has nothing behind it has nothing
  behind it in `q'` either.
- `Query.Framed q q'`: moreover, the nodes of `q` that are still there in `q'` are what they were,
  their children that were there before stand in the same order, and the new nodes are made by
  rules. Frames compose (`Framed.trans`), so that they describe any number of edits.
- `WellFormed.framed_attach`, `WellFormed.framed_eraseTerm`: adding a node of a rule and removing a
  term are such edits, and no other term is removed with a term.
-/

namespace QueryRules

namespace Node

/-- What a node is by itself, without its children. -/
def bare (n : Node) : Node := n.withChildren []

@[simp] theorem bare_withChildren (n : Node) (ids : List Nat) :
    (n.withChildren ids).bare = n.bare := by
  cases n <;> rfl

@[simp] theorem isGenerated_bare (n : Node) : n.bare.isGenerated = n.isGenerated := by
  cases n <;> rfl

@[simp] theorem kind_bare (n : Node) : n.bare.kind = n.kind := kind_withChildren n []

@[simp] theorem bare_term (t : Term) : (Node.term t).bare = .term t := rfl

theorem withChildren_eq_term {n : Node} {ids : List Nat} {t : Term} :
    n.withChildren ids = .term t ↔ n = .term t := by
  cases n <;> simp [withChildren]

end Node

namespace Query

variable {q q' q'' : Query}

theorem isLive_iff {id : Nat} : q.isLive id ↔ ∃ e, q.lookup? id = some e :=
  Option.isSome_iff_exists

theorem isLive_eq_false_iff {id : Nat} : q.isLive id = false ↔ q.lookup? id = none := by
  rw [isLive, Option.isSome_eq_false_iff, Option.isNone_iff_eq_none]

theorem isLive_of_lookup? {id : Nat} {e : Entry} (h : q.lookup? id = some e) : q.isLive id :=
  isLive_iff.2 ⟨e, h⟩

theorem lt_length_of_isLive {id : Nat} (h : q.isLive id) : id < q.entries.length := by
  obtain ⟨e, he⟩ := isLive_iff.1 h
  exact lt_length_of_lookup? he

theorem WellFormed.isLive_of_mem (h : q.WellFormed) {p id : Nat} {e : Entry}
    (he : q.lookup? p = some e) (hid : id ∈ e.node.children) : q.isLive id := by
  obtain ⟨c, hc, -⟩ := h.child p e id he hid
  exact isLive_of_lookup? hc

theorem mem_children {p id : Nat} :
    id ∈ q.children p ↔ ∃ e, q.lookup? p = some e ∧ id ∈ e.node.children := by
  unfold children node?
  cases q.lookup? p <;> simp

theorem term?_eq_some_iff {id : Nat} {t : Term} :
    q.term? id = some t ↔ ∃ e, q.lookup? id = some e ∧ e.node = .term t := by
  unfold term? node?
  cases q.lookup? id with
  | none => simp
  | some e => cases hn : e.node <;> simp [hn]

/-- Nothing comes back behind a number that has been given away. -/
structure Later (q q' : Query) : Prop where
  length_le : q.entries.length ≤ q'.entries.length
  gone : ∀ id, id < q.entries.length → q.lookup? id = none → q'.lookup? id = none

theorem Later.refl (q : Query) : q.Later q := ⟨Nat.le_refl _, fun _ _ h => h⟩

theorem Later.trans (h : q.Later q') (h' : q'.Later q'') : q.Later q'' where
  length_le := Nat.le_trans h.length_le h'.length_le
  gone id hid hq := h'.gone id (Nat.lt_of_lt_of_le hid h.length_le) (h.gone id hid hq)

theorem Later.isLive_of_isLive (h : q.Later q') {id : Nat} (hid : id < q.entries.length)
    (hl : q'.isLive id) : q.isLive id := by
  by_contra hq
  rw [Bool.not_eq_true, isLive_eq_false_iff] at hq
  rw [isLive, h.gone id hid hq] at hl
  exact nomatch hl

/-- A later query in which the old nodes are what they were and the new ones are made by rules. -/
structure Framed (q q' : Query) : Prop extends Later q q' where
  wellFormed : q'.WellFormed
  kept : ∀ id e e', q.lookup? id = some e → q'.lookup? id = some e' →
    e'.parent = e.parent ∧ e'.node.bare = e.node.bare
  /-- The children that were there before are those that are still there, in the same order. -/
  order : ∀ id e e', q.lookup? id = some e → q'.lookup? id = some e' →
    e'.node.children.filter q.isLive = e.node.children.filter q'.isLive
  fresh : ∀ id e', q.lookup? id = none → q'.lookup? id = some e' →
    e'.node.isGenerated ∧ ∀ p, e'.parent = some p → p < id

theorem Framed.refl (h : q.WellFormed) : q.Framed q where
  toLater := .refl q
  wellFormed := h
  kept id e e' he he' := by
    obtain rfl := Option.some.inj (he.symm.trans he')
    exact ⟨rfl, rfl⟩
  order id e e' he he' := by
    obtain rfl := Option.some.inj (he.symm.trans he')
    rfl
  fresh id e' he he' := by
    rw [he] at he'
    exact nomatch he'

/-- A node that is there before and after two steps is there between them. -/
theorem Later.exists_lookup? (h' : q'.Later q'') (hle : q.entries.length ≤ q'.entries.length)
    {id : Nat} {e e'' : Entry} (he : q.lookup? id = some e) (he'' : q''.lookup? id = some e'') :
    ∃ e', q'.lookup? id = some e' :=
  isLive_iff.1 (h'.isLive_of_isLive (Nat.lt_of_lt_of_le (lt_length_of_lookup? he) hle)
    (isLive_of_lookup? he''))

theorem Framed.trans (hq : q.WellFormed) (h : q.Framed q') (h' : q'.Framed q'') : q.Framed q'' where
  toLater := h.toLater.trans h'.toLater
  wellFormed := h'.wellFormed
  kept id e e'' he he'' := by
    obtain ⟨e', he'⟩ := h'.toLater.exists_lookup? h.length_le he he''
    obtain ⟨hp, hn⟩ := h.kept id e e' he he'
    obtain ⟨hp', hn'⟩ := h'.kept id e' e'' he' he''
    exact ⟨hp'.trans hp, hn'.trans hn⟩
  order id e e'' he he'' := by
    obtain ⟨e', he'⟩ := h'.toLater.exists_lookup? h.length_le he he''
    -- whatever is there before and after is there in between
    have hmid {c : Nat} (hc : q.isLive c) (hc'' : q''.isLive c) : q'.isLive c :=
      h'.isLive_of_isLive (Nat.lt_of_lt_of_le (lt_length_of_isLive hc) h.length_le) hc''
    calc e''.node.children.filter q.isLive
        = (e''.node.children.filter q'.isLive).filter q.isLive := by
          rw [List.filter_filter]
          refine List.filter_congr fun c hc => ?_
          have hlive := h'.wellFormed.isLive_of_mem he'' hc
          cases hold : q.isLive c with
          | false => rfl
          | true => rw [hmid hold hlive]; rfl
      _ = (e'.node.children.filter q.isLive).filter q''.isLive := by
          rw [h'.order id e' e'' he' he'', List.filter_comm]
      _ = e.node.children.filter q''.isLive := by
          rw [h.order id e e' he he', List.filter_filter]
          refine List.filter_congr fun c hc => ?_
          have hlive := hq.isLive_of_mem he hc
          cases hnew : q''.isLive c with
          | false => rfl
          | true => rw [hmid hlive hnew]; rfl
  fresh id e'' he he'' := by
    cases he' : q'.lookup? id with
    | none => exact h'.fresh id e'' he' he''
    | some e' =>
      obtain ⟨hp, hn⟩ := h'.kept id e' e'' he' he''
      rw [← Node.isGenerated_bare, hn, Node.isGenerated_bare, hp]
      exact h.fresh id e' he he'

/-- A regular query is still regular after edits that leave a frame. -/
theorem Framed.regular (h : q.Framed q') (hq : q.Regular) : q'.Regular where
  wellFormed := h.wellFormed
  parent_lt id e' p he' hp := by
    cases he : q.lookup? id with
    | none => exact (h.fresh id e' he he').2 p hp
    | some e => exact hq.parent_lt id e p he ((h.kept id e e' he he').1 ▸ hp)

/-- A term that is still there is what it was. -/
theorem Framed.term?_eq (h : q.Framed q') {id : Nat} {t : Term} (ht : q.term? id = some t)
    (hl : q'.isLive id) : q'.term? id = some t := by
  obtain ⟨e, he, hn⟩ := term?_eq_some_iff.1 ht
  obtain ⟨e', he'⟩ := isLive_iff.1 hl
  have hbare := (h.kept id e e' he he').2
  rw [hn, Node.bare_term] at hbare
  exact term?_eq_some_iff.2 ⟨e', he', Node.withChildren_eq_term.1 hbare⟩

/-- A term is gone if there is no term behind its number. -/
theorem Framed.isLive_eq_false_iff (h : q.Framed q') {id : Nat} {t : Term}
    (ht : q.term? id = some t) : q'.isLive id = false ↔ q'.term? id = none := by
  cases hl : q'.isLive id with
  | true => simp [h.term?_eq ht hl]
  | false => simp [term?, node?, Query.isLive_eq_false_iff.1 hl]

/-! ## Adding a node -/

theorem length_attach (q : Query) (parent : Nat) (node : Node) :
    (q.attach parent node).1.entries.length = q.entries.length + 1 := by
  simp [attach]

/-- Attaching a node gives away one number more. -/
theorem later_attach (q : Query) (parent : Nat) (node : Node) :
    q.Later (q.attach parent node).1 where
  length_le := by
    rw [length_attach]
    exact Nat.le_succ _
  gone id hid hq := by
    rw [lookup?_attach, if_neg (Nat.ne_of_lt hid), hq]
    split <;> rfl

theorem isLive_attach (q : Query) {parent : Nat} {node : Node} {id : Nat} (h : q.isLive id) :
    (q.attach parent node).1.isLive id := by
  obtain ⟨e, he⟩ := isLive_iff.1 h
  rw [isLive, lookup?_attach, if_neg (Nat.ne_of_lt (lt_length_of_lookup? he)), he]
  split <;> rfl

theorem WellFormed.framed_attach (h : q.WellFormed) {parent : Nat} {p node : Node}
    (hp : q.node? parent = some p) (ha : p.admits node) (hc : node.children = [])
    (hg : node.isGenerated) : q.Framed (q.attach parent node).1 where
  toLater := q.later_attach parent node
  wellFormed := h.attach hp ha hc
  kept id e e' he he' := by
    rw [lookup?_attach, if_neg (Nat.ne_of_lt (lt_length_of_lookup? he)), he] at he'
    split at he'
    · obtain rfl := Option.some.inj he'
      exact ⟨rfl, Node.bare_withChildren _ _⟩
    · obtain rfl := Option.some.inj he'
      exact ⟨rfl, rfl⟩
  order id e e' he he' := by
    have hid := Nat.ne_of_lt (lt_length_of_lookup? he)
    obtain ⟨f, hf, -, -, hchildren⟩ := q.lookup?_attach_of_ne hp ha hid he'
    obtain rfl := Option.some.inj (he.symm.trans hf)
    -- the new child, if there is one, was not there before
    have hnew : (if id = parent then [q.entries.length] else []).filter q.isLive = [] := by
      have hdead : q.isLive q.entries.length = false :=
        isLive_eq_false_iff.2 (q.lookup?_eq_none_of_le (Nat.le_refl _))
      split
      · rw [List.filter_singleton, hdead]
        rfl
      · rfl
    rw [hchildren, List.filter_append, hnew, List.append_nil]
    refine List.filter_congr fun c hm => ?_
    have hlive := h.isLive_of_mem he hm
    rw [hlive, q.isLive_attach hlive]
  fresh id e' he he' := by
    rw [lookup?_attach, he] at he'
    split at he'
    · rename_i hid
      obtain rfl := Option.some.inj he'
      refine ⟨hg, fun p hp' => ?_⟩
      obtain rfl := Option.some.inj hp'
      obtain ⟨f, hf, -⟩ := lookup?_of_node? hp
      rw [hid]
      exact lt_length_of_lookup? hf
    · split at he' <;> exact nomatch he'

/-! ## Removing a term -/

theorem length_remove (q : Query) (parent id : Nat) :
    (q.remove parent id).entries.length = q.entries.length := by
  simp [remove, detach, erase]

theorem isLive_remove (q : Query) (parent id i : Nat) :
    (q.remove parent id).isLive i = (decide (i ≠ id) && q.isLive i) := by
  rw [Bool.eq_iff_iff, Bool.and_eq_true, decide_eq_true_eq, isLive_iff, isLive_iff]
  simp only [lookup?_remove]
  constructor
  · rintro ⟨e', hi, e, he, -⟩
    exact ⟨hi, e, he⟩
  · rintro ⟨hi, e, he⟩
    exact ⟨_, hi, e, he, rfl⟩

theorem later_remove (q : Query) (parent id : Nat) : q.Later (q.remove parent id) where
  length_le := Nat.le_of_eq (q.length_remove parent id).symm
  gone i _ hi := by
    rw [← isLive_eq_false_iff] at hi ⊢
    rw [isLive_remove, hi, Bool.and_false]

theorem WellFormed.framed_remove (h : q.WellFormed) {parent id : Nat} {s : Entry}
    (hs : q.lookup? id = some s) (hp : s.parent = some parent) (hc : s.node.children = []) :
    q.Framed (q.remove parent id) where
  toLater := q.later_remove parent id
  wellFormed := h.remove hs hp hc
  kept i e e' he he' := by
    obtain ⟨-, f, hf, rfl⟩ := (q.lookup?_remove parent id).1 he'
    obtain rfl := Option.some.inj (he.symm.trans hf)
    refine ⟨rfl, ?_⟩
    dsimp only
    split
    · exact Node.bare_withChildren _ _
    · rfl
  order i e e' he he' := by
    obtain ⟨-, f, hf, -, -, hchildren⟩ := h.lookup?_of_remove hs hp he'
    obtain rfl := Option.some.inj (he.symm.trans hf)
    rw [hchildren, List.filter_filter]
    refine List.filter_congr fun c hm => ?_
    rw [isLive_remove, h.isLive_of_mem he hm, Bool.and_comm]
  fresh i e' he he' := by
    obtain ⟨-, f, hf, -⟩ := (q.lookup?_remove parent id).1 he'
    rw [he] at hf
    exact nomatch hf

/-- Removing a node changes no term but the one that it may be. -/
theorem term?_remove (q : Query) (parent id i : Nat) :
    (q.remove parent id).term? i = if i = id then none else q.term? i := by
  by_cases hi : i = id
  · have hdead : (q.remove parent id).isLive i = false := by simp [isLive_remove, hi]
    rw [if_pos hi, term?, node?, isLive_eq_false_iff.1 hdead]
    rfl
  · ext t
    rw [if_neg hi, term?_eq_some_iff, term?_eq_some_iff]
    simp only [lookup?_remove, hi, not_false_eq_true, true_and, ne_eq]
    constructor
    · rintro ⟨e', ⟨e, he, rfl⟩, hn⟩
      refine ⟨e, he, ?_⟩
      dsimp only at hn
      split at hn
      · exact Node.withChildren_eq_term.1 hn
      · exact hn
    · rintro ⟨e, he, hn⟩
      refine ⟨_, ⟨e, he, rfl⟩, ?_⟩
      dsimp only
      split
      · exact Node.withChildren_eq_term.2 hn
      · exact hn

/-- A childless node below the root can be removed with the ancestors that it leaves childless: none
of them is a term. -/
theorem WellFormed.framed_prune (h : q.WellFormed) {id : Nat} {s : Entry} (hid : id ≠ Query.root)
    (hs : q.lookup? id = some s) (hc : s.node.children = []) :
    q.Framed (q.prune id) ∧ ∀ i, (q.prune id).term? i = if i = id then none else q.term? i := by
  induction q, id using prune.induct generalizing s with
  | case1 q id hnone =>
    obtain ⟨p, -, hp, -⟩ := h.listed id s hid hs
    rw [parent?, hs, Option.bind_some, hp] at hnone
    exact nomatch hnone
  | case2 q id p hp q' hstop =>
    rw [Query.prune, hp]
    dsimp only
    rw [if_pos hstop]
    rw [parent?, hs, Option.bind_some] at hp
    exact ⟨h.framed_remove hs hp hc, q.term?_remove p id⟩
  | case3 q id p hp q' hgo ih =>
    rw [Query.prune, hp]
    dsimp only
    rw [if_neg hgo]
    rw [parent?, hs, Option.bind_some] at hp
    have hrest : q.Framed q' := h.framed_remove hs hp hc
    simp only [not_or, not_not, Nat.not_le] at hgo
    obtain ⟨hproot, hchildren, hlt⟩ := hgo
    -- the parent is still there and has become childless
    obtain ⟨i, f, hi, hf, -, hadmits⟩ := h.listed id s hid hs
    obtain rfl : i = p := Option.some.inj (hi.symm.trans hp)
    have hf' := (q.lookup?_remove i id).2 ⟨Nat.ne_of_lt hlt, f, hf, rfl⟩
    rw [children, node?, show q'.lookup? i = _ from hf'] at hchildren
    obtain ⟨hframe, hterm⟩ := ih hrest.wellFormed hproot hf' hchildren
    refine ⟨hrest.trans h hframe, fun j => ?_⟩
    -- a node that admits another one is no term
    have hnone : q'.term? i = none := by
      rw [Option.eq_none_iff_forall_ne_some]
      intro t ht
      rw [show q'.term? i = _ from q.term?_remove i id i, if_neg (Nat.ne_of_lt hlt)] at ht
      obtain ⟨g, hg, hn⟩ := term?_eq_some_iff.1 ht
      obtain rfl := Option.some.inj (hf.symm.trans hg)
      rw [hn] at hadmits
      exact absurd hadmits Bool.false_ne_true
    rw [hterm, show q'.term? j = _ from q.term?_remove i id j]
    split
    · rename_i hj
      subst hj
      rw [← q.term?_remove j id j]
      exact hnone.symm
    · rfl

/-- Removing a term leaves everything else but the ancestors that it leaves childless. -/
theorem WellFormed.framed_eraseTerm (h : q.WellFormed) (id : Nat) :
    q.Framed (q.eraseTerm id) ∧
      ∀ i, (q.eraseTerm id).term? i = if i = id then none else q.term? i := by
  unfold Query.eraseTerm eraseTerm?
  split
  · rename_i ht
    have hroot := h.ne_root_of_term (hasKind_of_term? ht)
    obtain ⟨t, ht⟩ := Option.isSome_iff_exists.1 ht
    obtain ⟨e, he, hn⟩ := term?_eq_some_iff.1 ht
    exact h.framed_prune hroot he (by rw [hn]; rfl)
  · rename_i ht
    refine ⟨.refl h, fun i => ?_⟩
    split
    · rename_i hi
      rw [hi]
      simpa using ht
    · rfl

end Query

end QueryRules
