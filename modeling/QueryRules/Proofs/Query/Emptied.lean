import QueryRules.Proofs.Permutation
import QueryRules.Proofs.Query.Candidates
import QueryRules.Proofs.Query.Removal

/-!
# The ancestors that go with a term

- `Query.emptied`: the ancestors of a node below the root up to the first one with another child.
  `Regular.removes_emptied`: just these go with the node.
- `Regular.exists_survivor`: the ancestor after them is the only one that loses a child.
- `Query.termsBelow`: the terms below a node. `Regular.terms_eraseTerm`: what stays are the other
  terms, in their order.
- `Regular.eraseTerm?_exact`: so removing a term removes the term and these ancestors, and nothing
  else is changed.
-/

namespace QueryRules

namespace Query

variable {q : Query}

/-- The ancestors of a node below the root up to the first one that has another child. -/
def emptied (q : Query) (id : Nat) : List Nat :=
  (q.ancestors id).takeWhile fun a => a ≠ root ∧ (q.children a).length ≤ 1

theorem Regular.emptied_eq (h : q.Regular) {id p : Nat} {e f : Entry}
    (he : q.lookup? id = some e) (hp : e.parent = some p) (hf : q.lookup? p = some f) :
    q.emptied id =
      if p ≠ root ∧ f.node.children.length ≤ 1 then p :: q.emptied p else [] := by
  rw [emptied, h.ancestors_eq_cons he hp, List.takeWhile_cons, children_of_lookup? hf]
  simp only [decide_eq_true_eq]
  rfl

/-- The ancestors of a node up to the first one with another child go with it. -/
theorem Regular.removes_emptied (h : q.Regular) {id : Nat} {e : Entry} (hid : id ≠ root)
    (he : q.lookup? id = some e) :
    q.Removes (· = id) fun i => i ∈ id :: q.emptied id := by
  induction id using Nat.strongRecOn generalizing e with
  | ind id ih =>
    obtain ⟨p, f, hp, hf, hm, hlt⟩ := h.exists_parent hid he
    intro i g hg
    -- only the parent has `id` among its children
    have hparent (hc : id ∈ g.node.children) : i = p :=
      h.wellFormed.eq_of_mem_children he hp (mem_children.2 ⟨g, hg, hc⟩)
    rw [h.emptied_eq he hp hf]
    simp only [decide_eq_true_eq]
    split
    · rename_i hgoes
      obtain ⟨hroot, hlength⟩ := hgoes
      have honly : f.node.children = [id] := by
        obtain ⟨c, hc⟩ := List.length_eq_one_iff.1
          (Nat.le_antisymm hlength (List.length_pos_of_mem hm))
        rw [hc] at hm ⊢
        rw [List.mem_singleton.1 hm]
      have hrest := ih p hlt hroot hf i g hg
      simp only [decide_eq_true_eq] at hrest
      rw [List.mem_cons, hrest]
      refine or_congr_right ?_
      by_cases hip : i = p
      · subst hip
        obtain rfl := Option.some.inj (hf.symm.trans hg)
        rw [honly]
        exact iff_of_true (.inl rfl) ⟨hroot, List.cons_ne_nil _ _, by simp⟩
      · rw [or_iff_right hip]
        refine and_congr_right fun _ => and_congr_right fun _ => forall₂_congr fun c hc => ?_
        rw [List.mem_cons (a := c) (b := id), or_iff_right]
        rintro rfl
        exact hip (hparent hc)
    · rename_i hstays
      rw [List.mem_singleton]
      refine ⟨.inl, ?_⟩
      rintro (rfl | ⟨hroot, hne, hall⟩)
      · rfl
      · obtain ⟨c, hc⟩ := List.exists_mem_of_ne_nil _ hne
        obtain rfl := List.mem_singleton.1 (hall c hc)
        obtain rfl := hparent hc
        obtain rfl := Option.some.inj (hf.symm.trans hg)
        refine absurd ⟨hroot, ?_⟩ hstays
        rw [← List.count_eq_length.2 fun d hd => (List.mem_singleton.1 (hall d hd)).symm]
        exact List.nodup_iff_count_le_one.1 (h.nodup_children hf) c

/-- The first ancestor that does not go with a node. The last node that goes is its child, and the
parents of the others go. -/
theorem Regular.exists_survivor (h : q.Regular) {id : Nat} {e : Entry} (hid : id ≠ root)
    (he : q.lookup? id = some e) : ∃ survivor above last,
      q.ancestors id = q.emptied id ++ survivor :: above ∧
      (id :: q.emptied id).getLast? = some last ∧ last ∈ q.children survivor ∧
      ∀ c ∈ id :: q.emptied id, c ≠ last → ∀ i, c ∈ q.children i → i ∈ q.emptied id := by
  induction id using Nat.strongRecOn generalizing e with
  | ind id ih =>
    obtain ⟨p, f, hp, hf, hm, hlt⟩ := h.exists_parent hid he
    rw [h.ancestors_eq_cons he hp, h.emptied_eq he hp hf]
    split
    · rename_i hgoes
      obtain ⟨survivor, above, last, hancestors, hlast, hchild, hparents⟩ := ih p hlt hgoes.1 hf
      refine ⟨survivor, above, last, by rw [hancestors]; rfl, ?_, hchild, ?_⟩
      · rwa [List.getLast?_cons_cons]
      · intro c hc hne i hi
        rcases List.mem_cons.1 hc with rfl | hc
        · rw [h.wellFormed.eq_of_mem_children he hp hi]
          exact List.mem_cons_self
        · exact List.mem_cons_of_mem _ (hparents c hc hne i hi)
    · refine ⟨p, q.ancestors p, id, rfl, rfl, mem_children.2 ⟨f, hf, hm⟩, ?_⟩
      intro c hc hne
      exact absurd (List.mem_singleton.1 hc) hne

/-! ## The terms that stay -/

/-- The terms below a node with their numbers, depth first. -/
def termsBelow (q : Query) (id : Nat) : List (Nat × Term) :=
  ((q.tree? id).map QueryTree.terms).getD []

theorem termsBelow_of_term {id : Nat} {e : Entry} (he : q.lookup? id = some e) {t : Term}
    (ht : e.node = .term t) : q.termsBelow id = [(id, t)] := by
  rw [termsBelow, tree?_of_lookup? he, ht]
  rfl

theorem Regular.termsBelow_of_ne_term (h : q.Regular) {id : Nat} {e : Entry}
    (he : q.lookup? id = some e) (hk : e.node.kind ≠ .term) :
    q.termsBelow id = e.node.children.flatMap q.termsBelow := by
  have hterms : QueryTree.termsOf (q.subtrees id e.node.children) =
      e.node.children.flatMap q.termsBelow := by
    rw [QueryTree.termsOf_eq_flatMap, subtrees_eq_filterMap (h.lt_of_mem_children he),
      flatMap_filterMap]
    rfl
  rw [← hterms, termsBelow, tree?_of_lookup? he]
  cases hn : e.node with
  | term t => exact absurd (congrArg Node.kind hn) hk
  | boolean o g cs => rfl
  | group o g ds => rfl

theorem Regular.terms_eq (h : q.Regular) : q.terms = q.termsBelow root := by
  obtain ⟨e, he, -⟩ := h.wellFormed.root
  rw [terms, tree, termsBelow, tree?_of_lookup? he]
  rfl

/-- Where the nodes below a node go with it, the terms that stay are those that have not gone. -/
theorem Regular.termsBelow_without (h : q.Regular) {gone : Nat → Bool}
    (h' : (q.without gone).Regular)
    (hbelow : ∀ id e, q.lookup? id = some e → gone id = true →
      ∀ c ∈ e.node.children, gone c = true) {id : Nat} (hid : q.isLive id) :
    (q.termsBelow id).filter (fun p => !gone p.1) =
      if gone id then [] else (q.without gone).termsBelow id := by
  refine h.induct hid fun id e he ih => ?_
  have hlookup (hg : gone id = false) : (q.without gone).lookup? id = some (e.without gone) :=
    lookup?_without_eq_some_iff.2 ⟨hg, e, he, rfl⟩
  by_cases hk : e.node.kind = .term
  · obtain ⟨t, ht⟩ : ∃ t, e.node = .term t := by
      cases hnode : e.node with
      | term t => exact ⟨t, rfl⟩
      | _ => rw [hnode] at hk; exact nomatch hk
    rw [termsBelow_of_term he ht]
    cases hg : gone id with
    | true => simp [hg]
    | false =>
      have ht' : (e.without gone).node = .term t := by rw [Entry.without, ht]; rfl
      rw [termsBelow_of_term (hlookup hg) ht']
      simp [hg]
  · have hchildren : (e.node.children.flatMap q.termsBelow).filter (fun p => !gone p.1) =
        (e.node.children.filter fun c => !gone c).flatMap (q.without gone).termsBelow := by
      rw [List.filter_flatMap, flatMap_filter_eq_flatMap]
      refine List.flatMap_congr fun c hc => ?_
      rw [ih c hc]
      cases gone c <;> rfl
    rw [h.termsBelow_of_ne_term he hk, hchildren]
    cases hg : gone id with
    | true =>
      have hnone : (e.node.children.filter fun c => !gone c) = [] := by
        rw [List.filter_eq_nil_iff]
        intro c hc
        simp [hbelow id e he hg c hc]
      rw [hnone]
      rfl
    | false =>
      rw [h'.termsBelow_of_ne_term (hlookup hg) (by rwa [Entry.without, Node.kind_without]),
        Entry.without, Node.children_without]
      rfl

/-- The terms of a query are those behind their numbers. -/
theorem Regular.term?_of_mem (h : q.Regular) {p : Nat × Term} (hp : p ∈ q.terms) :
    q.term? p.1 = some p.2 := by
  obtain ⟨e, he, -⟩ := h.wellFormed.root
  have htree := tree?_of_lookup? he
  rw [terms, tree, htree] at hp
  exact term?_of_mem_terms htree hp

/-! ## Removing a term -/

/-- Removing a term removes it and the ancestors that it leaves childless. -/
theorem Regular.eraseTerm_eq_without (h : q.Regular) {id : Nat} {t : Term}
    (ht : q.term? id = some t) :
    q.eraseTerm id = q.without fun i => i ∈ id :: q.emptied id := by
  obtain ⟨e, he, -⟩ := term?_eq_some_iff.1 ht
  have hroot := h.wellFormed.ne_root_of_term (hasKind_of_term? (by rw [ht]; rfl))
  obtain ⟨gone, herase, hgone⟩ := h.exists_removes_eraseTerm id
  rw [herase]
  refine h.wellFormed.without_congr fun i hi =>
    (hgone.congr fun j _ => ?_).unique h (h.removes_emptied hroot he) hi
  constructor
  · exact And.left
  · rintro rfl
    exact ⟨rfl, by rw [ht]; rfl⟩

/-- Without a node and the ancestors that it leaves childless, only the next ancestor has lost a
child. -/
theorem Regular.lookup?_without_emptied (h : q.Regular) {id survivor last : Nat}
    (hlast : (id :: q.emptied id).getLast? = some last) (hchild : last ∈ q.children survivor)
    (hparents : ∀ c ∈ id :: q.emptied id, c ≠ last → ∀ i, c ∈ q.children i → i ∈ q.emptied id)
    (i : Nat) : (q.without fun i => i ∈ id :: q.emptied id).lookup? i =
      if i ∈ id :: q.emptied id then none
      else if i = survivor then (q.lookup? i).map fun e =>
        { e with node := e.node.withChildren (e.node.children.erase last) }
      else q.lookup? i := by
  rw [lookup?_without]
  simp only [decide_eq_true_eq]
  by_cases hi : i ∈ id :: q.emptied id
  · rw [if_pos hi, if_pos hi]
  · rw [if_neg hi, if_neg hi]
    cases he : q.lookup? i with
    | none => rw [Option.map_none, Option.map_none, ite_self]
    | some e =>
      have hlost : ∀ c ∈ e.node.children, c ∈ id :: q.emptied id → i = survivor ∧ c = last := by
        intro c hc hgone
        have hci := mem_children.2 ⟨e, he, hc⟩
        by_cases hcl : c = last
        · subst hcl
          obtain ⟨f, hf, hp, -⟩ := h.lookup?_child he hc
          exact ⟨(h.wellFormed.eq_of_mem_children hf hp hchild).symm, rfl⟩
        · exact absurd (List.mem_cons_of_mem _ (hparents c hgone hcl i hci)) hi
      split
      · rename_i hsurvivor
        have hkept : e.node.children.filter (fun c => !decide (c ∈ id :: q.emptied id)) =
            e.node.children.erase last := by
          rw [(h.nodup_children he).erase_eq_filter]
          refine List.filter_congr fun c hc => ?_
          by_cases hcl : c = last
          · simp [hcl, List.mem_of_getLast? hlast]
          · have hstays : c ∉ id :: q.emptied id := fun hgone => hcl (hlost c hc hgone).2
            simp [hcl, hstays]
        rw [Option.map_some, Option.map_some, Entry.without, Node.without, hkept]
      · rename_i hother
        have hnode : e.node.without (fun i => i ∈ id :: q.emptied id) = e.node :=
          Node.without_eq_self fun c hc => decide_eq_false fun hgone => hother (hlost c hc hgone).1
        rw [Option.map_some, Entry.without, hnode]

/-- Without a term and the ancestors that it leaves childless, the other terms follow each other as
before. -/
theorem Regular.terms_eraseTerm (h : q.Regular) {id : Nat} {t : Term}
    (ht : q.term? id = some t) :
    (q.eraseTerm id).terms = q.terms.filter fun p => p.1 ≠ id := by
  obtain ⟨e, he, hn⟩ := term?_eq_some_iff.1 ht
  have hroot := h.wellFormed.ne_root_of_term (hasKind_of_term? (by rw [ht]; rfl))
  have hremoves := h.removes_emptied hroot he
  have herase := h.eraseTerm_eq_without ht
  have hregular := h.eraseTerm id
  rw [herase] at hregular ⊢
  obtain ⟨r, hr, -⟩ := h.wellFormed.root
  have hstays : root ∉ id :: q.emptied id := by
    have hiff := hremoves root r hr
    simp only [decide_eq_true_eq] at hiff
    rw [hiff]
    rintro (hid | ⟨hne, -⟩)
    · exact hroot hid.symm
    · exact hne rfl
  have hbelow : ∀ i f, q.lookup? i = some f → decide (i ∈ id :: q.emptied id) = true →
      ∀ c ∈ f.node.children, decide (c ∈ id :: q.emptied id) = true := by
    intro i f hf hi
    rcases (hremoves i f hf).1 hi with rfl | ⟨-, -, hall⟩
    · obtain rfl := Option.some.inj (he.symm.trans hf)
      rw [hn]
      exact nofun
    · exact hall
  have hterms := h.termsBelow_without hregular hbelow (isLive_of_lookup? hr)
  rw [if_neg (by simpa using hstays), ← hregular.terms_eq, ← h.terms_eq] at hterms
  rw [← hterms]
  refine List.filter_congr fun p hp => ?_
  -- no term has children, so of the terms just the one goes
  have hiff : p.1 ∈ id :: q.emptied id ↔ p.1 = id := by
    obtain ⟨f, hf, hnode⟩ := term?_eq_some_iff.1 (h.term?_of_mem hp)
    have hiff := hremoves p.1 f hf
    simp only [decide_eq_true_eq] at hiff
    rw [hiff, hnode]
    simp [Node.children]
  rw [decide_not, decide_eq_decide.2 hiff]

/-- Removing what is no term fails and changes nothing. Removing a term succeeds: it removes the
term and its ancestors below the root up to the first one that has another child. That one loses one
child, every other node is what it was, and the other terms follow each other as before. -/
theorem Regular.eraseTerm?_exact (h : q.Regular) (id : Nat) :
    (q.term? id = none → q.eraseTerm? id = none ∧ q.eraseTerm id = q) ∧
    ∀ t, q.term? id = some t → ∃ q' survivor above last,
      q.eraseTerm? id = some q' ∧ q.eraseTerm id = q' ∧
      q.ancestors id = q.emptied id ++ survivor :: above ∧
      (id :: q.emptied id).getLast? = some last ∧ last ∈ q.children survivor ∧
      q'.entries.length = q.entries.length ∧
      (∀ i, q'.lookup? i =
        if i ∈ id :: q.emptied id then none
        else if i = survivor then (q.lookup? i).map fun e =>
          { e with node := e.node.withChildren (e.node.children.erase last) }
        else q.lookup? i) ∧
      q'.terms = q.terms.filter fun p => p.1 ≠ id := by
  constructor
  · intro ht
    have hnone : q.eraseTerm? id = none := by
      rw [eraseTerm?, ht]
      rfl
    exact ⟨hnone, by rw [Query.eraseTerm, hnone]; rfl⟩
  · intro t ht
    obtain ⟨e, he, -⟩ := term?_eq_some_iff.1 ht
    have hroot := h.wellFormed.ne_root_of_term (hasKind_of_term? (by rw [ht]; rfl))
    obtain ⟨survivor, above, last, hancestors, hlast, hchild, hparents⟩ :=
      h.exists_survivor hroot he
    have hsome : q.eraseTerm? id = some (q.eraseTerm id) := by
      rw [Query.eraseTerm, eraseTerm?, ht]
      rfl
    refine ⟨q.eraseTerm id, survivor, above, last, hsome, rfl, hancestors, hlast, hchild, ?_,
      ?_, h.terms_eraseTerm ht⟩
    · rw [h.eraseTerm_eq_without ht, length_without]
    · rw [h.eraseTerm_eq_without ht]
      exact h.lookup?_without_emptied hlast hchild hparents

/-- The one word of a boolean query that a rule has added: the boolean query and its group go with
the word, and the root loses a clause. -/
theorem Regular.eraseTerm?_exact_nested : nestedQuery.Regular ∧
    nestedQuery.emptied 12 = [11, 10] ∧ ∃ q', nestedQuery.eraseTerm? 12 = some q' ∧
      (∀ i, q'.lookup? i =
        if i ∈ [12, 11, 10] then none
        else if i = root then (nestedQuery.lookup? i).map fun e =>
          { e with node := e.node.withChildren (e.node.children.erase 10) }
        else nestedQuery.lookup? i) ∧
      q'.terms = nestedQuery.terms.filter fun p => p.1 ≠ 12 := by
  have hterm : nestedQuery.term? 12 = some { value := "ultrabook" } := by decide +kernel
  have hemptied : nestedQuery.emptied 12 = [11, 10] := by decide +kernel
  have hancestors : nestedQuery.ancestors 12 = [11, 10, root] := by decide +kernel
  obtain ⟨q', survivor, above, last, hsome, -, hsurvivor, hlast, -, -, hlookup, hterms⟩ :=
    (regular_nestedQuery.eraseTerm?_exact 12).2 _ hterm
  rw [hancestors, hemptied] at hsurvivor
  obtain ⟨rfl, -⟩ : survivor = root ∧ above = [] := by simpa [eq_comm] using hsurvivor
  rw [hemptied] at hlast hlookup
  obtain rfl := Option.some.inj hlast
  exact ⟨regular_nestedQuery, hemptied, q', hsome, hlookup, hterms⟩

end Query

end QueryRules
