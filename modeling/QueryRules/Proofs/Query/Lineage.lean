import Mathlib.Data.List.Nodup
import QueryRules.Proofs.Query.Edits

/-!
# The ancestors of a node

- `Query.ancestors`: the ancestors of a node, its parent first. In a regular query they lead to the
  root (`Regular.root_mem_ancestors`).
- `Query.ancestors_suffix`: the ancestors of an ancestor are the end of the list. So of two nodes
  above the same node, one is above the other (`Query.eq_or_mem_ancestors`).
-/

namespace QueryRules

namespace Query

variable {q : Query}

/-- The ancestors of a node, its parent first. A parent has a smaller number. -/
def ancestors (q : Query) (id : Nat) : List Nat :=
  match q.parent? id with
  | none => []
  | some p => if _h : p < id then p :: q.ancestors p else []
termination_by id

/-- A node below the root has a parent that lists it. -/
theorem Regular.exists_parent (h : q.Regular) {id : Nat} {e : Entry} (hid : id ≠ root)
    (he : q.lookup? id = some e) : ∃ p f, e.parent = some p ∧ q.lookup? p = some f ∧
      id ∈ f.node.children ∧ p < id := by
  obtain ⟨p, f, hp, hf, hcount, -⟩ := h.wellFormed.listed id e hid he
  have hm : id ∈ f.node.children := List.one_le_count_iff.1 (Nat.le_of_eq hcount.symm)
  exact ⟨p, f, hp, hf, hm, h.parent_lt id e p he hp⟩

/-- A listed node has a larger number than the one that lists it, which is its parent. -/
theorem Regular.lookup?_child (h : q.Regular) {id c : Nat} {e : Entry}
    (he : q.lookup? id = some e) (hc : c ∈ e.node.children) :
    ∃ f, q.lookup? c = some f ∧ f.parent = some id ∧ id < c := by
  obtain ⟨f, hf, hp⟩ := h.wellFormed.child id e c he hc
  exact ⟨f, hf, hp, h.parent_lt c f id hf hp⟩

theorem Regular.lt_of_mem_children (h : q.Regular) {id : Nat} {e : Entry}
    (he : q.lookup? id = some e) : ∀ c ∈ e.node.children, id < c ∧ c < q.entries.length := by
  intro c hc
  obtain ⟨f, hf, -, hlt⟩ := h.lookup?_child he hc
  exact ⟨hlt, lt_length_of_lookup? hf⟩

/-- Induction over the nodes that are there; a node has the hypothesis for each of its children. -/
@[elab_as_elim]
theorem Regular.induct (h : q.Regular) {motive : Nat → Prop} {id : Nat} (hid : q.isLive id)
    (step : ∀ id e, q.lookup? id = some e → (∀ c ∈ e.node.children, motive c) → motive id) :
    motive id := by
  -- the number of a child is larger, so the numbers left decrease
  induction hn : q.entries.length - id using Nat.strongRecOn generalizing id with
  | ind n ih =>
    obtain ⟨e, he⟩ := isLive_iff.1 hid
    refine step id e he fun c hc => ?_
    have := h.lt_of_mem_children he c hc
    exact ih _ (by omega) (h.wellFormed.isLive_of_mem he hc) rfl

/-- A child is listed once, where one of its kind may stand. -/
theorem Regular.listed_child (h : q.Regular) {id c : Nat} {e : Entry}
    (he : q.lookup? id = some e) (hc : c ∈ e.node.children) :
    ∃ f, q.lookup? c = some f ∧ e.node.children.count c = 1 ∧
      e.node.kind.admits f.node.kind := by
  obtain ⟨f, hf, hp, -⟩ := h.lookup?_child he hc
  obtain ⟨p, g, hp', hg, hcount, hadmits⟩ :=
    h.wellFormed.listed c f (h.wellFormed.ne_root hf hp) hf
  obtain rfl := Option.some.inj (hp'.symm.trans hp)
  obtain rfl := Option.some.inj (hg.symm.trans he)
  exact ⟨f, hf, hcount, by rwa [← Node.admits_eq]⟩

/-- No node is listed twice. -/
theorem Regular.nodup_children (h : q.Regular) {id : Nat} {e : Entry}
    (he : q.lookup? id = some e) : e.node.children.Nodup := by
  rw [List.nodup_iff_count_eq_one]
  intro c hc
  obtain ⟨f, -, hcount, -⟩ := h.listed_child he hc
  exact hcount

theorem node?_of_lookup? {id : Nat} {e : Entry} (he : q.lookup? id = some e) :
    q.node? id = some e.node := by
  rw [node?, he, Option.map_some]

theorem children_of_lookup? {id : Nat} {e : Entry} (he : q.lookup? id = some e) :
    q.children id = e.node.children := by
  rw [children, node?_of_lookup? he, Option.map_some, Option.getD_some]

theorem Regular.children_nodup (h : q.Regular) (id : Nat) : (q.children id).Nodup := by
  cases he : q.lookup? id with
  | none => rw [children, node?, he]; exact List.nodup_nil
  | some e => rw [children_of_lookup? he]; exact h.nodup_children he

theorem Regular.ancestors_eq_cons (h : q.Regular) {id p : Nat} {e : Entry}
    (he : q.lookup? id = some e) (hp : e.parent = some p) :
    q.ancestors id = p :: q.ancestors p := by
  have hparent : q.parent? id = some p := by rw [parent?, he, Option.bind_some, hp]
  rw [ancestors, hparent]
  exact dif_pos (h.parent_lt id e p he hp)

theorem Regular.ancestors_root (h : q.Regular) : q.ancestors root = [] := by
  obtain ⟨e, he, hp, -⟩ := h.wellFormed.root
  have hparent : q.parent? root = none := by rw [parent?, he, Option.bind_some, hp]
  rw [ancestors, hparent]

theorem Regular.ancestors_of_mem_children (h : q.Regular) {id c : Nat} (hc : c ∈ q.children id) :
    q.ancestors c = id :: q.ancestors id := by
  obtain ⟨e, he, hm⟩ := mem_children.1 hc
  obtain ⟨f, hf, hp, -⟩ := h.lookup?_child he hm
  exact h.ancestors_eq_cons hf hp

/-- A node is a child of only one node. -/
theorem Regular.children_disjoint (h : q.Regular) {i j c : Nat} (hi : c ∈ q.children i)
    (hj : c ∈ q.children j) : i = j :=
  (List.cons.inj ((h.ancestors_of_mem_children hi).symm.trans (h.ancestors_of_mem_children hj))).1

/-- Ancestors have smaller numbers. -/
theorem lt_of_mem_ancestors {id a : Nat} (ha : a ∈ q.ancestors id) : a < id := by
  fun_induction q.ancestors id with
  | case1 id hp => exact nomatch ha
  | case2 id p hp hlt ih =>
    rcases List.mem_cons.1 ha with rfl | ha
    · exact hlt
    · exact Nat.lt_trans (ih ha) hlt
  | case3 id p hp hle => exact nomatch ha

/-- The ancestors of an ancestor stand after it. -/
theorem ancestors_suffix {id a : Nat} (ha : a ∈ q.ancestors id) :
    a :: q.ancestors a <:+ q.ancestors id := by
  fun_induction q.ancestors id with
  | case1 id hp => exact nomatch ha
  | case2 id p hp hlt ih =>
    rcases List.mem_cons.1 ha with rfl | ha
    · exact List.suffix_refl _
    · exact (ih ha).trans (List.suffix_cons p _)
  | case3 id p hp hle => exact nomatch ha

/-- Of two nodes at or above the same node, one is above the other if they differ. -/
theorem eq_or_mem_ancestors {id a b : Nat} (ha : a ∈ id :: q.ancestors id)
    (hb : b ∈ id :: q.ancestors id) : a = b ∨ a ∈ q.ancestors b ∨ b ∈ q.ancestors a := by
  have hsuffix {c : Nat} (hc : c ∈ id :: q.ancestors id) :
      c :: q.ancestors c <:+ id :: q.ancestors id := by
    rcases List.mem_cons.1 hc with rfl | hc
    · exact List.suffix_refl _
    · exact (ancestors_suffix hc).trans (List.suffix_cons id _)
  have hends {c d : Nat} (h : c :: q.ancestors c <:+ d :: q.ancestors d) :
      c = d ∨ c ∈ q.ancestors d :=
    List.mem_cons.1 (h.subset List.mem_cons_self)
  rcases List.suffix_or_suffix_of_suffix (hsuffix ha) (hsuffix hb) with h | h
  · exact (hends h).imp_right .inl
  · exact (hends h).imp Eq.symm .inr

/-- Every node below the root has the root among its ancestors. -/
theorem Regular.root_mem_ancestors (h : q.Regular) {id : Nat} (hid : id ≠ root)
    (hl : q.isLive id) : root ∈ q.ancestors id := by
  induction id using Nat.strongRecOn with
  | ind id ih =>
    obtain ⟨e, he⟩ := isLive_iff.1 hl
    obtain ⟨p, f, hp, hf, -, hlt⟩ := h.exists_parent hid he
    rw [h.ancestors_eq_cons he hp]
    by_cases hroot : p = root
    · rw [hroot]
      exact List.mem_cons_self
    · exact List.mem_cons_of_mem _ (ih p hlt hroot (isLive_of_lookup? hf))

/-! ## A query with nested ones -/

/-- A query of two words with a boolean query inside a group, a word that a rule has added, and a
boolean query that a rule has added. -/
def nestedQuery : Query :=
  (ofTerms [(.should, { value := "red" }), (.should, { value := "laptop" })]).edits [
    .addNested 1 .should false, .addGroup 5 .must false, .addTerm 6 { value := "dark" },
    .addTerm 6 { value := "pink" }, .addTerm 3 { value := "notebook", generated := true },
    .addNested 0 .should true, .addGroup 10 .should false, .addTerm 11 { value := "ultrabook" }]

theorem regular_nestedQuery : nestedQuery.Regular :=
  ((regular_ofTerms _).edits _).1

end Query

end QueryRules
