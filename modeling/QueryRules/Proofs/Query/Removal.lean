import QueryRules.Proofs.Query.Lineage

/-!
# Removing terms in any order

- `Query.without`: a query without some nodes. Nothing else is changed (`lookup?_without`).
- `Query.Removes`: which nodes go with those that a removal starts from, said of the query before
  the removal alone. There is only one such set of nodes (`Removes.unique`), and removals after each
  other add up (`Removes.comp`).
- `Regular.exists_removes_eraseTerm`, `Regular.exists_removes_eraseTerms`: what removing a term, and
  removing terms one after the other, leaves.
- `Regular.eraseTerms_eq`: so neither the order nor repetitions nor numbers without a term matter.
-/

namespace QueryRules

/-- The node without some of its children. -/
def Node.without (gone : Nat → Bool) (n : Node) : Node :=
  n.withChildren (n.children.filter fun c => !gone c)

/-- The entry of a node without some of its children. -/
def Entry.without (gone : Nat → Bool) (e : Entry) : Entry := { e with node := e.node.without gone }

namespace Node

variable {gone gone' : Nat → Bool}

theorem withChildren_children (n : Node) : n.withChildren n.children = n := by
  cases n <;> rfl

@[simp] theorem children_without (n : Node) :
    (n.without gone).children = n.children.filter fun c => !gone c :=
  children_withChildren_filter n _

@[simp] theorem kind_without (n : Node) : (n.without gone).kind = n.kind :=
  kind_withChildren n _

theorem without_eq_self {n : Node} (h : ∀ c ∈ n.children, gone c = false) :
    n.without gone = n := by
  have hkept : n.children.filter (fun c => !gone c) = n.children := by
    rw [List.filter_eq_self]
    intro c hc
    rw [h c hc]
    rfl
  rw [without, hkept, withChildren_children]

theorem without_congr {n : Node} (h : ∀ c ∈ n.children, gone c = gone' c) :
    n.without gone = n.without gone' := by
  have hkept : n.children.filter (fun c => !gone c) = n.children.filter fun c => !gone' c :=
    List.filter_congr fun c hc => by rw [h c hc]
  rw [without, without, hkept]

theorem without_without (n : Node) :
    (n.without gone).without gone' = n.without fun c => gone c || gone' c := by
  cases n <;> simp [without, children, withChildren, List.filter_filter, Bool.and_comm]

end Node

namespace Query

variable {q q' : Query} {gone gone' : Nat → Bool}

/-- The query without some nodes: nothing stands behind their numbers, and no node lists them. -/
def without (q : Query) (gone : Nat → Bool) : Query :=
  ⟨q.entries.mapIdx fun id e? => if gone id then none else e?.map (Entry.without gone)⟩

@[simp] theorem length_without (q : Query) (gone : Nat → Bool) :
    (q.without gone).entries.length = q.entries.length :=
  List.length_mapIdx

@[simp] theorem lookup?_without (q : Query) (gone : Nat → Bool) (id : Nat) :
    (q.without gone).lookup? id =
      if gone id then none else (q.lookup? id).map (Entry.without gone) := by
  rw [lookup?, without, List.getElem?_mapIdx, lookup?]
  cases q.entries[id]? with
  | none => simp
  | some e? => rfl

/-- Queries of one length with the same nodes behind their numbers are equal. -/
theorem eq_of_lookup? (hlength : q.entries.length = q'.entries.length)
    (h : ∀ id, q.lookup? id = q'.lookup? id) : q = q' := by
  have hentries : q.entries = q'.entries := by
    refine List.ext_getElem hlength fun id hid hid' => ?_
    have hlookup := h id
    rwa [lookup?, lookup?, List.getElem?_eq_getElem hid, List.getElem?_eq_getElem hid',
      Option.join_some, Option.join_some] at hlookup
  cases q
  cases q'
  exact congrArg Query.mk hentries

theorem without_without (q : Query) (gone gone' : Nat → Bool) :
    (q.without gone).without gone' = q.without fun id => gone id || gone' id := by
  refine eq_of_lookup? (by simp) fun id => ?_
  simp only [lookup?_without]
  cases gone id with
  | true => cases gone' id <;> rfl
  | false =>
    cases gone' id with
    | true => rfl
    | false =>
      cases q.lookup? id with
      | none => rfl
      | some e => exact congrArg some (congrArg (Entry.mk e.parent) e.node.without_without)

theorem without_false (q : Query) : (q.without fun _ => false) = q := by
  refine eq_of_lookup? (by simp) fun id => ?_
  rw [lookup?_without]
  cases q.lookup? id with
  | none => rfl
  | some e =>
    exact congrArg some (congrArg (Entry.mk e.parent) (Node.without_eq_self fun _ _ => rfl))

/-- Only what is there can go. -/
theorem WellFormed.without_congr (h : q.WellFormed)
    (hgone : ∀ id, q.isLive id → gone id = gone' id) : q.without gone = q.without gone' := by
  refine eq_of_lookup? (by simp) fun id => ?_
  rw [lookup?_without, lookup?_without]
  cases he : q.lookup? id with
  | none => simp
  | some e =>
    have hnode : e.node.without gone = e.node.without gone' :=
      Node.without_congr fun c hc => hgone c (h.isLive_of_mem he hc)
    rw [hgone id (isLive_of_lookup? he), Option.map_some, Option.map_some, Entry.without,
      Entry.without, hnode]

theorem lookup?_without_eq_some_iff {id : Nat} {e' : Entry} :
    (q.without gone).lookup? id = some e' ↔
      gone id = false ∧ ∃ e, q.lookup? id = some e ∧ e.without gone = e' := by
  rw [lookup?_without, Option.ite_none_left_eq_some, Bool.not_eq_true, Option.map_eq_some_iff]

theorem children_without (gone : Nat → Bool) {id : Nat} {e : Entry} (he : q.lookup? id = some e)
    (hg : gone id = false) :
    (q.without gone).children id = e.node.children.filter fun c => !gone c := by
  rw [children, node?, lookup?_without, hg, he]
  exact Node.children_without e.node

/-- Only the parent of a node lists it, so nothing else changes when it is removed. -/
theorem WellFormed.remove_eq_without (h : q.WellFormed) {parent id : Nat} {s : Entry}
    (hs : q.lookup? id = some s) (hp : s.parent = some parent) :
    q.remove parent id = q.without (· == id) := by
  refine eq_of_lookup? (by simp [length_remove]) fun i => ?_
  rw [Query.remove, detach, lookup?_modify, lookup?_erase, lookup?_without]
  by_cases hi : i = id
  · simp [hi]
  · rw [if_neg hi, beq_eq_false_iff_ne.2 hi, if_neg Bool.false_ne_true]
    cases he : q.lookup? i with
    | none => simp
    | some e =>
      split
      · have hkept : e.node.children.filter (fun c => !(c == id)) =
            e.node.children.filter fun c => c ≠ id :=
          List.filter_congr fun c _ => by by_cases hc : c = id <;> simp [hc]
        rw [Option.map_some, Option.map_some, Entry.without, Node.without, hkept]
      · rename_i hparent
        have hnode : e.node.without (· == id) = e.node :=
          Node.without_eq_self fun c hc => beq_eq_false_iff_ne.2 fun hcid => hparent
            (h.eq_of_mem_children hs hp (mem_children.2 ⟨e, he, hcid ▸ hc⟩))
        rw [Option.map_some, Entry.without, hnode]

/-! ## Which nodes go -/

/-- The nodes that go when those go that a removal starts from: these, and below the root every node
all of whose children go, if it has any. -/
def Removes (q : Query) (starts : Nat → Prop) (gone : Nat → Bool) : Prop :=
  ∀ id e, q.lookup? id = some e → (gone id = true ↔
    starts id ∨ (id ≠ root ∧ e.node.children ≠ [] ∧ ∀ c ∈ e.node.children, gone c = true))

variable {starts starts' : Nat → Prop}

theorem Removes.congr (h : q.Removes starts gone)
    (hstarts : ∀ id, q.isLive id → (starts id ↔ starts' id)) : q.Removes starts' gone := by
  intro id e he
  rw [← hstarts id (isLive_of_lookup? he)]
  exact h id e he

theorem removes_false (q : Query) : q.Removes (fun _ => False) fun _ => false := by
  intro id e _
  simp only [Bool.false_eq_true, false_or, false_iff]
  rintro ⟨-, hne, hall⟩
  obtain ⟨c, hc⟩ := List.exists_mem_of_ne_nil _ hne
  exact hall c hc

/-- What a removal starts from settles which nodes go. -/
theorem Removes.unique (h : q.Regular) (hgone : q.Removes starts gone)
    (hgone' : q.Removes starts gone') {id : Nat} (hid : q.isLive id) : gone id = gone' id := by
  refine h.induct hid fun id e he ih => ?_
  have hall : (∀ c ∈ e.node.children, gone c = true) ↔ ∀ c ∈ e.node.children, gone' c = true :=
    forall₂_congr fun c hc => by rw [ih c hc]
  rw [Bool.eq_iff_iff, hgone id e he, hgone' id e he, hall]

/-- Removals after each other add up. -/
theorem Removes.comp (hgone : q.Removes starts gone)
    (hgone' : (q.without gone).Removes starts' gone') :
    q.Removes (fun id => starts id ∨ starts' id) fun id => gone id || gone' id := by
  intro id e he
  have hid := hgone id e he
  simp only [Bool.or_eq_true]
  cases hg : gone id with
  | true =>
    simp only [true_or, true_iff]
    exact (hid.1 hg).imp .inl fun ⟨hroot, hne, hall⟩ => ⟨hroot, hne, fun c hc => .inl (hall c hc)⟩
  | false =>
    rw [hg] at hid
    simp only [Bool.false_eq_true, false_iff, not_or, false_or] at hid ⊢
    obtain ⟨hstarts, hrest⟩ := hid
    have hlookup : (q.without gone).lookup? id = some (e.without gone) :=
      lookup?_without_eq_some_iff.2 ⟨hg, e, he, rfl⟩
    rw [hgone' id _ hlookup, Entry.without, Node.children_without]
    refine or_congr (or_iff_right hstarts).symm (and_congr_right fun hroot => ?_)
    -- a node that has not gone had a child that has not gone, or no child
    have hne : e.node.children.filter (fun c => !gone c) ≠ [] ↔ e.node.children ≠ [] := by
      rw [Ne, List.filter_eq_nil_iff]
      constructor
      · rintro hkept hnil
        exact hkept (by simp [hnil])
      · intro hne hall
        exact hrest ⟨hroot, hne, fun c hc => by simpa using hall c hc⟩
    rw [hne]
    refine and_congr_right fun _ => ?_
    simp only [List.mem_filter, Bool.not_eq_true', and_imp]
    refine forall₂_congr fun c _ => ?_
    cases gone c <;> simp

/-! ## Removing a term -/

/-- A childless node below the root goes with the ancestors that this leaves childless. -/
theorem Regular.exists_removes_prune (h : q.Regular) {id : Nat} {s : Entry} (hid : id ≠ root)
    (hs : q.lookup? id = some s) (hc : s.node.children = []) :
    ∃ gone, q.prune id = q.without gone ∧ q.Removes (· = id) gone := by
  induction q, id using prune.induct generalizing s with
  | case1 q id hnone =>
    obtain ⟨p, -, hp, -⟩ := h.exists_parent hid hs
    rw [parent?, hs, Option.bind_some, hp] at hnone
    exact absurd hnone (Option.some_ne_none p)
  | case2 q id p hp q' hstop =>
    rw [prune, hp]
    dsimp only
    rw [if_pos hstop]
    rw [parent?, hs, Option.bind_some] at hp
    have hremove : q' = q.without (· == id) := h.wellFormed.remove_eq_without hs hp
    refine ⟨(· == id), hremove, fun i e he => ?_⟩
    simp only [beq_iff_eq]
    refine ⟨.inl, ?_⟩
    rintro (rfl | ⟨hroot, hne, hall⟩)
    · rfl
    · -- the node is the parent, and the removed one is its only child
      obtain ⟨c, hm⟩ := List.exists_mem_of_ne_nil _ hne
      obtain rfl := hall c hm
      obtain rfl : i = p := h.wellFormed.eq_of_mem_children hs hp (mem_children.2 ⟨e, he, hm⟩)
      have hlt := h.parent_lt c s i hs hp
      rcases hstop with hproot | hchildren | hle
      · exact absurd hproot hroot
      · have hstays : (i == c) = false := beq_eq_false_iff_ne.2 (Nat.ne_of_lt hlt)
        rw [hremove, children_without (· == c) he hstays] at hchildren
        refine absurd (List.filter_eq_nil_iff.2 fun d hd => ?_) hchildren
        simpa using hall d hd
      · exact absurd hlt (Nat.not_lt.2 hle)
  | case3 q id p hp q' hgo ih =>
    rw [prune, hp]
    dsimp only
    rw [if_neg hgo]
    rw [parent?, hs, Option.bind_some] at hp
    simp only [not_or, not_not, Nat.not_le] at hgo
    obtain ⟨hproot, hchildren, hlt⟩ := hgo
    have hremove : q' = q.without (· == id) := h.wellFormed.remove_eq_without hs hp
    have hregular : q'.Regular := (h.wellFormed.framed_remove hs hp hc).regular h
    obtain ⟨p', f, hp', hf, hm, -⟩ := h.exists_parent hid hs
    obtain rfl : p' = p := Option.some.inj (hp'.symm.trans hp)
    have hkept {i : Nat} {e : Entry} (hi : i ≠ id) (he : q.lookup? i = some e) :
        q'.lookup? i = some (e.without (· == id)) := by
      rw [hremove]
      exact lookup?_without_eq_some_iff.2 ⟨beq_eq_false_iff_ne.2 hi, e, he, rfl⟩
    have hstays : (p' == id) = false := beq_eq_false_iff_ne.2 (Nat.ne_of_lt hlt)
    rw [hremove, children_without (· == id) hf hstays] at hchildren
    obtain ⟨gone, hprune, hgone⟩ := ih hregular hproot (hkept (Nat.ne_of_lt hlt) hf)
      (by rw [Entry.without, Node.children_without, hchildren])
    refine ⟨fun i => i == id || gone i, ?_, fun i e he => ?_⟩
    · rw [show (q.erase id).detach p' id = q' from rfl, hprune, hremove, without_without]
    · rw [List.filter_eq_nil_iff] at hchildren
      simp only [Bool.or_eq_true, beq_iff_eq]
      by_cases hi : i = id
      · simp [hi]
      · rw [or_iff_right hi, or_iff_right hi, hgone i _ (hkept hi he)]
        by_cases hip : i = p'
        · subst hip
          obtain rfl := Option.some.inj (hf.symm.trans he)
          refine iff_of_true (.inl rfl) ⟨hproot, List.ne_nil_of_mem hm, fun c hc => .inl ?_⟩
          simpa using hchildren c hc
        · -- the other nodes have the children that they had
          have hother : ∀ c ∈ e.node.children, c ≠ id := by
            rintro c hc rfl
            exact hip (h.wellFormed.eq_of_mem_children hs hp (mem_children.2 ⟨e, he, hc⟩))
          have hnode : e.node.without (· == id) = e.node :=
            Node.without_eq_self fun c hc => beq_eq_false_iff_ne.2 (hother c hc)
          rw [or_iff_right hip, Entry.without, hnode]
          refine and_congr_right fun _ => and_congr_right fun _ => forall₂_congr fun c hc => ?_
          exact (or_iff_right (hother c hc)).symm

/-- A term goes with the ancestors that this leaves childless; nothing goes if there is no term. -/
theorem Regular.exists_removes_eraseTerm (h : q.Regular) (id : Nat) :
    ∃ gone, q.eraseTerm id = q.without gone ∧
      q.Removes (fun i => i = id ∧ (q.term? i).isSome) gone := by
  unfold Query.eraseTerm eraseTerm?
  split
  · rename_i ht
    have hroot := h.wellFormed.ne_root_of_term (hasKind_of_term? ht)
    obtain ⟨t, hsome⟩ := Option.isSome_iff_exists.1 ht
    obtain ⟨e, he, hn⟩ := term?_eq_some_iff.1 hsome
    obtain ⟨gone, hprune, hgone⟩ := h.exists_removes_prune hroot he (by rw [hn]; rfl)
    refine ⟨gone, hprune, hgone.congr fun i _ => ?_⟩
    constructor
    · rintro rfl
      exact ⟨rfl, ht⟩
    · exact And.left
  · rename_i ht
    refine ⟨fun _ => false, q.without_false.symm, q.removes_false.congr fun i _ => ?_⟩
    rw [false_iff]
    rintro ⟨rfl, hsome⟩
    exact ht hsome

/-- Terms removed one after the other go with the ancestors that this leaves childless. -/
theorem Regular.exists_removes_eraseTerms (h : q.Regular) (ids : List Nat) :
    ∃ gone, ids.foldl Query.eraseTerm q = q.without gone ∧
      q.Removes (fun i => i ∈ ids ∧ (q.term? i).isSome) gone := by
  induction ids generalizing q with
  | nil => exact ⟨fun _ => false, q.without_false.symm, q.removes_false.congr fun i _ => by simp⟩
  | cons id ids ih =>
    obtain ⟨gone, herase, hgone⟩ := h.exists_removes_eraseTerm id
    have hregular := h.eraseTerm id
    have hterm := (h.wellFormed.framed_eraseTerm id).2
    obtain ⟨gone', herases, hgone'⟩ := ih hregular
    rw [herase] at hgone'
    refine ⟨fun i => gone i || gone' i, ?_, (hgone.comp hgone').congr fun i _ => ?_⟩
    · rw [List.foldl_cons, herases, herase, without_without]
    · rw [← herase, hterm, List.mem_cons]
      by_cases hi : i = id <;> simp [hi]

/-- Removing terms does not depend on their order: two lists of the same numbers leave the same
query, whether they repeat numbers or have numbers without a term. -/
theorem Regular.eraseTerms_eq (h : q.Regular) {ids ids' : List Nat}
    (hids : ∀ id, id ∈ ids ↔ id ∈ ids') :
    ids.foldl Query.eraseTerm q = ids'.foldl Query.eraseTerm q := by
  obtain ⟨gone, herase, hgone⟩ := h.exists_removes_eraseTerms ids
  obtain ⟨gone', herase', hgone'⟩ := h.exists_removes_eraseTerms ids'
  rw [herase, herase']
  refine h.wellFormed.without_congr fun id hid => hgone.unique h (hgone'.congr fun i _ => ?_) hid
  rw [hids]

/-- The words of a nested boolean query removed in two orders, once with a word twice and with
numbers of a group and of nothing. -/
theorem Regular.eraseTerms_eq_nested : nestedQuery.Regular ∧
    (∀ id, id ∈ [8, 7, 8, 6, 20] ↔ id ∈ [20, 6, 7, 8]) ∧
    [8, 7, 8, 6, 20].foldl Query.eraseTerm nestedQuery =
      [20, 6, 7, 8].foldl Query.eraseTerm nestedQuery :=
  have hids : ∀ id, id ∈ [8, 7, 8, 6, 20] ↔ id ∈ [20, 6, 7, 8] := fun id => by simp; omega
  ⟨regular_nestedQuery, hids, regular_nestedQuery.eraseTerms_eq hids⟩

end Query

end QueryRules
