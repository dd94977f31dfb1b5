import Mathlib.Data.List.Induction
import QueryRules.Proofs.Query.Candidates
import QueryRules.Proofs.Query.Filled

/-!
# What added alternatives look like

- `WellFormed.tree?_congr`: the tree below a number depends only on the nodes with larger numbers,
  so what is added elsewhere leaves it as it is.
- `Query.Grafted`: one tree has been added as the last child of a node. An added alternative is such
  a tree (`WellFormed.addAlternative_grafted`); by induction over its terms, since each of them adds
  one more clause.
- `WellFormed.addSynonyms_eq`: what has been grafted moves no term, so the groups that are looked up
  in the changing query are those of the query before.
- `Query.Enriched`: each of some groups has got an alternative. By induction over the groups,
  `WellFormed.addSynonyms_enriched` says so of the groups of the matched terms that are still there
  (`Query.groupsOf`).
-/

namespace QueryRules

/-- The entry with one more child. -/
def Entry.withChild (e : Entry) (id : Nat) : Entry :=
  { e with node := e.node.withChildren (e.node.children ++ [id]) }

/-- The number of nodes of an alternative. -/
def alternativeSize : List Term → Nat
  | [_] => 1
  | ts => 1 + 2 * ts.length

/-- The tree with one more child of its outermost node; a term stays as it is. -/
def QueryTree.withChild : QueryTree → QueryTree → QueryTree
  | .boolean id o g cs, t => .boolean id o g (cs ++ [t])
  | .group id o g ds, t => .group id o g (ds ++ [t])
  | .term id t, _ => .term id t

/-- The clauses of an alternative of several terms whose first node has number `id`. -/
def requiredTrees (id : Nat) (ts : List Term) : List QueryTree :=
  ts.zipIdx.map fun (t, i) => .group (id + 1 + 2 * i) .must true [.term (id + 2 + 2 * i) t]

/-- The alternative that some terms make, with its first node at number `id`: a single term, or a
boolean query in which every term must occur. -/
def alternativeTree (id : Nat) : List Term → QueryTree
  | [t] => .term id t
  | ts => .boolean id .should true (requiredTrees id ts)

theorem alternativeSize_of_ne_singleton {ts : List Term} (h : ∀ t, ts ≠ [t]) :
    alternativeSize ts = 1 + 2 * ts.length := by
  unfold alternativeSize
  split
  · exact absurd rfl (h _)
  · rfl

theorem alternativeTree_of_ne_singleton {ts : List Term} (h : ∀ t, ts ≠ [t]) (id : Nat) :
    alternativeTree id ts = .boolean id .should true (requiredTrees id ts) := by
  unfold alternativeTree
  split
  · exact absurd rfl (h _)
  · rfl

theorem requiredTrees_concat (id : Nat) (ts : List Term) (t : Term) :
    requiredTrees id (ts ++ [t]) = requiredTrees id ts ++
      [.group (id + 1 + 2 * ts.length) .must true [.term (id + 2 + 2 * ts.length) t]] := by
  rw [requiredTrees, List.zipIdx_append, List.map_append, ← requiredTrees, Nat.zero_add]
  rfl

namespace Query

variable {q q' q₁ q₂ : Query}

/-! ## Trees and what is added elsewhere -/

/-- The trees of the children of a node depend only on the nodes with larger numbers. -/
theorem WellFormed.subtrees_congr (h : q.WellFormed) {id : Nat} {e : Entry}
    (he : q.lookup? id = some e) (hle : q.entries.length ≤ q'.entries.length)
    (htrees : ∀ c, id < c → c < q.entries.length → q'.tree? c = q.tree? c) :
    q'.subtrees id e.node.children = q.subtrees id e.node.children := by
  refine List.filterMap_congr fun c hc => ?_
  obtain ⟨f, hf, -⟩ := h.child id e c he hc
  have hlt := lt_length_of_lookup? hf
  by_cases hid : id < c
  · rw [if_pos ⟨hid, Nat.lt_of_lt_of_le hlt hle⟩, if_pos ⟨hid, hlt⟩, htrees c hid hlt]
  · rw [if_neg fun hc => hid hc.1, if_neg fun hc => hid hc.1]

/-- The tree below a number depends only on the nodes with this number or a larger one. -/
theorem WellFormed.tree?_congr (h : q.WellFormed) (hle : q.entries.length ≤ q'.entries.length)
    {n : Nat} (hsame : ∀ i, n ≤ i → i < q.entries.length → q'.lookup? i = q.lookup? i) {id : Nat}
    (hn : n ≤ id) (hid : id < q.entries.length) : q'.tree? id = q.tree? id := by
  induction hk : q.entries.length - id using Nat.strongRecOn generalizing id with
  | ind k ih =>
    cases he : q.lookup? id with
    | none =>
      rw [tree?, tree?, node?, node?, hsame id hn hid, he]
      rfl
    | some e =>
      have hbelow : q'.subtrees id e.node.children = q.subtrees id e.node.children :=
        h.subtrees_congr he hle fun c hc hlt => ih _ (by omega) (by omega) hlt rfl
      rw [tree?_of_lookup? ((hsame id hn hid).trans he), tree?_of_lookup? he, hbelow]

/-! ## One alternative -/

/-- A tree of `size` nodes has been added as the last child of a node, and nothing else has been
changed. -/
structure Grafted (q q' : Query) (parent size : Nat) (t : QueryTree) : Prop where
  wellFormed : q'.WellFormed
  length_eq : q'.entries.length = q.entries.length + size
  lookup?_eq : ∀ id < q.entries.length, q'.lookup? id =
    if id = parent then (q.lookup? id).map (Entry.withChild · q.entries.length) else q.lookup? id
  tree?_eq : q'.tree? q.entries.length = some t

/-- A node without children that is added is grafted. -/
theorem WellFormed.addChild_grafted (h : q.WellFormed) (node : Node) {parent : Nat} {k : NodeKind}
    (hp : q.HasKind parent k) (ha : k.admits node.kind) (hc : node.children = []) :
    q.addChild parent node = .ok (q.attach parent node) ∧
      q.Grafted (q.attach parent node).1 parent 1 (node.toTree q.entries.length []) := by
  refine ⟨addChild_eq_attach hp ha hc, ?_⟩
  obtain ⟨p, hp, rfl⟩ := hp
  rw [← Node.admits_eq] at ha
  constructor
  case wellFormed => exact h.attach hp ha hc
  case length_eq => exact q.length_attach parent node
  case lookup?_eq =>
    intro id hid
    rw [lookup?_attach, if_neg (Nat.ne_of_lt hid)]
    rfl
  case tree?_eq =>
    rw [tree?_of_lookup? (q.lookup?_attach_self parent node), hc]
    rfl

theorem Grafted.hasKind_boolean {parent n : Nat} {o : Occur} {b : Bool} {cs : List QueryTree}
    (h : q.Grafted q' parent n (.boolean q.entries.length o b cs)) :
    q'.HasKind q.entries.length .boolean := by
  have ht := h.tree?_eq
  obtain ⟨⟨p, node⟩, he⟩ := exists_lookup?_of_tree? ht
  rw [tree?_of_lookup? he] at ht
  cases node with
  | boolean o g cs => exact ⟨_, by rw [node?, he]; rfl, rfl⟩
  | _ => cases ht

/-- What is grafted on a node becomes the last child of its tree. -/
theorem Grafted.tree?_withChild {parent n : Nat} {t u : QueryTree} (h : q.Grafted q' parent n u)
    (hq : q.WellFormed) (ht : q.tree? parent = some t) :
    q'.tree? parent = some (t.withChild u) := by
  obtain ⟨e, he⟩ := exists_lookup?_of_tree? ht
  obtain ⟨f, hf⟩ := exists_lookup?_of_tree? h.tree?_eq
  have hlt := lt_length_of_lookup? he
  have hlt' := lt_length_of_lookup? hf
  have hsame : ∀ i, parent + 1 ≤ i → i < q.entries.length → q'.lookup? i = q.lookup? i :=
    fun i hi hi' => by rw [h.lookup?_eq i hi', if_neg (Nat.ne_of_gt hi)]
  have hold : q'.subtrees parent e.node.children = q.subtrees parent e.node.children :=
    hq.subtrees_congr he (Nat.le_of_lt hlt') fun c hc hcl =>
      hq.tree?_congr (Nat.le_of_lt hlt') hsame hc hcl
  have hnew : q'.subtrees parent [q.entries.length] = [u] := by
    rw [subtrees, List.filterMap_cons, if_pos ⟨hlt, hlt'⟩, h.tree?_eq, List.filterMap_nil]
  have hnode := h.lookup?_eq _ hlt
  rw [if_pos rfl, he, Option.map_some] at hnode
  rw [tree?_of_lookup? he, Option.some.injEq] at ht
  rw [tree?_of_lookup? hnode, ← ht, Option.some.injEq]
  obtain ⟨p, node⟩ := e
  cases node with
  | term t => rfl
  | boolean o g cs =>
    change QueryTree.boolean _ o g (q'.subtrees _ (cs ++ [_])) = .boolean _ o g (_ ++ [u])
    rw [subtrees, List.filterMap_append, ← subtrees, ← subtrees, hnew]
    exact congrArg (QueryTree.boolean _ o g <| · ++ [u]) hold
  | group o g ds =>
    change QueryTree.group _ o g (q'.subtrees _ (ds ++ [_])) = .group _ o g (_ ++ [u])
    rw [subtrees, List.filterMap_append, ← subtrees, ← subtrees, hnew]
    exact congrArg (QueryTree.group _ o g <| · ++ [u]) hold

/-- What is grafted on the tree that has been grafted becomes the last child of its outermost
node. -/
theorem Grafted.trans {parent m n : Nat} {t u : QueryTree} (h : q.Grafted q₁ parent m t)
    (h' : q₁.Grafted q₂ q.entries.length n u) : q.Grafted q₂ parent (m + n) (t.withChild u) where
  wellFormed := h'.wellFormed
  length_eq := by rw [h'.length_eq, h.length_eq, Nat.add_assoc]
  lookup?_eq id hid := by
    have hlt : id < q₁.entries.length := by
      rw [h.length_eq]
      omega
    rw [h'.lookup?_eq id hlt, if_neg (Nat.ne_of_lt hid), h.lookup?_eq id hid]
  tree?_eq := h'.tree?_withChild h.wellFormed h.tree?_eq

/-- A term in a group of its own is grafted. -/
theorem WellFormed.addSingle_grafted (h : q.WellFormed) {parent : Nat}
    (hk : q.HasKind parent .boolean) (occur : Occur) (generated : Bool) (t : Term) :
    let added := q.attach parent (.group occur generated [])
    q.addGroup parent occur generated = .ok added ∧
      added.1.addTerm added.2 t = .ok (added.1.attach added.2 (.term t)) ∧
      q.Grafted (added.1.attach added.2 (.term t)).1 parent 2
        (.group q.entries.length occur generated [.term (q.entries.length + 1) t]) := by
  obtain ⟨hadd, hgroup⟩ := h.addChild_grafted (.group occur generated []) hk rfl rfl
  obtain ⟨hadd', hterm⟩ := hgroup.wellFormed.addChild_grafted (.term t)
    ⟨_, q.node?_attach_self parent (.group occur generated []), rfl⟩ rfl rfl
  have htree := hgroup.trans hterm
  rw [length_attach] at htree
  exact ⟨hadd, hadd', htree⟩

/-- A term that must occur is a clause with a group of its own. -/
theorem WellFormed.addRequired_grafted (h : q.WellFormed) {clause : Nat}
    (hk : q.HasKind clause .boolean) (t : Term) : Succeeds (addRequired clause q t) fun q' =>
      q.Grafted q' clause 2
        (.group q.entries.length .must true [.term (q.entries.length + 1) t]) := by
  obtain ⟨hadd, hadd', htree⟩ := h.addSingle_grafted hk .must true t
  exact ⟨_, bind_eq_ok_iff.2 ⟨_, hadd, bind_eq_ok_iff.2 ⟨_, hadd', rfl⟩⟩, htree⟩

/-- A boolean query with terms that must occur is grafted, whatever the number of terms. -/
theorem WellFormed.addRequireds_grafted (h : q.WellFormed) {group : Nat}
    (hk : q.HasKind group .group) (ts : List Term) :
    Succeeds (do let (q, clause) ← q.addNested group .should true
                 ts.foldlM (addRequired clause) q) fun q' =>
      q.Grafted q' group (1 + 2 * ts.length)
        (.boolean q.entries.length .should true (requiredTrees q.entries.length ts)) := by
  obtain ⟨hadd, hnested⟩ := h.addChild_grafted (.boolean .should true []) hk rfl rfl
  rw [addNested, hadd]
  change Succeeds (ts.foldlM (addRequired q.entries.length) _) _
  induction ts using List.reverseRecOn with
  | nil => exact ⟨_, rfl, hnested⟩
  | append_singleton ts t ih =>
    rw [List.foldlM_append]
    refine ih.bind fun q₁ h₁ => ?_
    rw [List.foldlM_cons]
    obtain ⟨q₂, hadd, h₂⟩ := h₁.wellFormed.addRequired_grafted h₁.hasKind_boolean t
    have htree := h₁.trans h₂
    refine ⟨q₂, by rw [hadd]; rfl, ?_⟩
    have hgroup : q.entries.length + (1 + 2 * ts.length) =
        q.entries.length + 1 + 2 * ts.length := by omega
    have hterm : q.entries.length + 1 + 2 * ts.length + 1 =
        q.entries.length + 2 + 2 * ts.length := by omega
    rw [h₁.length_eq, hgroup, hterm] at htree
    rw [requiredTrees_concat, List.length_append, List.length_singleton, Nat.mul_succ,
      ← Nat.add_assoc]
    exact htree

/-- An added alternative is grafted on its group. -/
theorem WellFormed.addAlternative_grafted (h : q.WellFormed) {group : Nat}
    (hk : q.HasKind group .group) (ts : List Term) :
    Succeeds (q.addAlternative group ts) fun q' =>
      q.Grafted q' group (alternativeSize ts) (alternativeTree q.entries.length ts) := by
  by_cases hone : ∃ t, ts = [t]
  · obtain ⟨t, rfl⟩ := hone
    obtain ⟨hadd, hterm⟩ := h.addChild_grafted (.term t) hk rfl rfl
    refine ⟨_, ?_, hterm⟩
    rw [addAlternative, addTerm, hadd]
    rfl
  · have hne : ∀ t, ts ≠ [t] := fun t ht => hone ⟨t, ht⟩
    rw [addAlternative_of_ne_singleton q group hne]
    rw [alternativeSize_of_ne_singleton hne, alternativeTree_of_ne_singleton hne]
    exact h.addRequireds_grafted hk ts

/-! ## Several groups -/

/-- The groups of the matched terms that are still there, each once, in the order in which they
first occur. -/
def groupsOf (q : Query) (matched : List Nat) : List Nat :=
  ((matched.filter fun id => (q.term? id).isSome).filterMap q.parent?).eraseDups

theorem eraseDups_groupOf? (q : Query) (matched : List Nat) :
    (matched.filterMap q.groupOf?).eraseDups = q.groupsOf matched := by
  rw [groupsOf, List.filterMap_filter]
  congr 1
  refine List.filterMap_congr fun id _ => ?_
  rw [groupOf?]
  cases q.term? id <;> rfl

/-- Each of some groups has got an alternative of some terms as its last child, with new numbers in
the order of the groups, and nothing else has been changed. -/
structure Enriched (q q' : Query) (groups : List Nat) (ts : List Term) : Prop where
  wellFormed : q'.WellFormed
  length_eq : q'.entries.length = q.entries.length + groups.length * alternativeSize ts
  lookup?_eq : ∀ id < q.entries.length, id ∉ groups → q'.lookup? id = q.lookup? id
  alternative : ∀ i g, groups[i]? = some g → ∃ parent occur generated disjuncts,
    q.lookup? g = some ⟨parent, .group occur generated disjuncts⟩ ∧
    q'.lookup? g = some ⟨parent, .group occur generated
      (disjuncts ++ [q.entries.length + i * alternativeSize ts])⟩ ∧
    q'.tree? (q.entries.length + i * alternativeSize ts) =
      some (alternativeTree (q.entries.length + i * alternativeSize ts) ts)

theorem Enriched.refl (h : q.WellFormed) (ts : List Term) : q.Enriched q [] ts where
  wellFormed := h
  length_eq := by rw [List.length_nil, Nat.zero_mul, Nat.add_zero]
  lookup?_eq _ _ _ := rfl
  alternative i g hi := nomatch hi

/-- The other groups are groups as before. -/
theorem Enriched.hasKind {groups : List Nat} {ts : List Term} (h : q.Enriched q' groups ts)
    {id : Nat} (hnew : id ∉ groups) {k : NodeKind} (hk : q.HasKind id k) : q'.HasKind id k := by
  obtain ⟨n, hn, hk⟩ := hk
  obtain ⟨e, he, rfl⟩ := lookup?_of_node? hn
  exact ⟨e.node, by rw [node?, h.lookup?_eq id (lt_length_of_lookup? he) hnew, he]; rfl, hk⟩

/-- An alternative in one more group. -/
theorem Enriched.concat {groups : List Nat} {ts : List Term} (h : q.Enriched q₁ groups ts)
    {group : Nat} (hnew : group ∉ groups) (hk : q.HasKind group .group)
    (hg : q₁.Grafted q₂ group (alternativeSize ts) (alternativeTree q₁.entries.length ts)) :
    q.Enriched q₂ (groups ++ [group]) ts := by
  obtain ⟨node, hnode, hkind⟩ := hk
  obtain ⟨⟨parent, node⟩, he, rfl⟩ := lookup?_of_node? hnode
  have hlt := lt_length_of_lookup? he
  have hle : q.entries.length ≤ q₁.entries.length := h.length_eq ▸ Nat.le_add_right _ _
  have hsame : ∀ i < q₁.entries.length, i ≠ group → q₂.lookup? i = q₁.lookup? i := by
    intro i hi hne
    rw [hg.lookup?_eq i hi, if_neg hne]
  constructor
  case wellFormed => exact hg.wellFormed
  case length_eq =>
    rw [hg.length_eq, h.length_eq, List.length_append, List.length_singleton, Nat.succ_mul,
      Nat.add_assoc]
  case lookup?_eq =>
    intro id hid hm
    rw [List.mem_append, List.mem_singleton, not_or] at hm
    rw [hsame id (Nat.lt_of_lt_of_le hid hle) hm.2, h.lookup?_eq id hid hm.1]
  case alternative =>
    intro i g hi
    rcases Nat.lt_trichotomy i groups.length with hlast | rfl | hlast
    · -- a group before: neither it nor its alternative has been changed
      rw [List.getElem?_append_left hlast] at hi
      obtain ⟨p, o, b, ds, hold, hnew', htree⟩ := h.alternative i g hi
      have hne : g ≠ group := fun hg => hnew (hg ▸ List.mem_of_getElem? hi)
      have hroot := lt_length_of_lookup? (exists_lookup?_of_tree? htree).choose_spec
      refine ⟨p, o, b, ds, hold, ?_, ?_⟩
      · rw [hsame g (lt_length_of_lookup? hnew') hne, hnew']
      · rw [← htree]
        refine h.wellFormed.tree?_congr (hg.length_eq ▸ Nat.le_add_right _ _)
          (fun j hj hjlt => hsame j hjlt ?_) (Nat.le_add_right _ _) hroot
        exact Nat.ne_of_gt (Nat.lt_of_lt_of_le hlt hj)
    · rw [List.getElem?_append_right (Nat.le_refl _), Nat.sub_self, List.getElem?_cons_zero,
        Option.some.injEq] at hi
      subst hi
      have hnode := hg.lookup?_eq group (Nat.lt_of_lt_of_le hlt hle)
      have htree := hg.tree?_eq
      rw [if_pos rfl, h.lookup?_eq group hlt hnew, he, Option.map_some, h.length_eq] at hnode
      rw [h.length_eq] at htree
      cases node with
      | group o b ds => exact ⟨parent, o, b, ds, he, hnode, htree⟩
      | _ => exact nomatch hkind
    · rw [List.getElem?_eq_none (by simpa using Nat.succ_le_of_lt hlast)] at hi
      exact nomatch hi

/-- The numbers that are left when repeats are left out are different. -/
theorem nodup_eraseDups (ns : List Nat) : ns.eraseDups.Nodup := by
  induction hn : ns.length using Nat.strongRecOn generalizing ns with
  | ind k ih =>
    cases ns with
    | nil => exact .nil
    | cons n ns =>
      rw [List.eraseDups_cons, List.nodup_cons, List.mem_eraseDups]
      refine ⟨by simp, ih _ ?_ _ rfl⟩
      have := List.length_filter_le (fun m => !m == n) ns
      rw [List.length_cons] at hn
      omega

/-! ## The groups of the changing query -/

/-- What is grafted leaves the terms in their groups. -/
theorem Grafted.groupOf?_eq {parent n : Nat} {t : QueryTree} (h : q.Grafted q' parent n t)
    {id : Nat} (hid : id < q.entries.length) : q'.groupOf? id = q.groupOf? id := by
  unfold groupOf? term? parent? node?
  rw [h.lookup?_eq id hid]
  by_cases hparent : id = parent
  · rw [if_pos hparent]
    cases q.lookup? id with
    | none => rfl
    | some e =>
      obtain ⟨p, node⟩ := e
      cases node <;> rfl
  · rw [if_neg hparent]

/-- With some groups seen, the matched terms add alternatives to their other groups. -/
theorem WellFormed.foldlM_addSynonym (h : q.WellFormed) {matched : List Nat}
    (hids : ∀ id ∈ matched, id < q.entries.length) (ts : List Term) (seen : List Nat) :
    (matched.foldlM (addSynonym ts) (q, seen)).map (·.1) =
      ((matched.filterMap q.groupOf?).filter (· ∉ seen)).eraseDups.foldlM
        (fun q g => q.addAlternative g ts) q := by
  induction matched generalizing q seen with
  | nil => rfl
  | cons id matched ih =>
    obtain ⟨hid, hids⟩ := List.forall_mem_cons.1 hids
    rw [List.foldlM_cons, List.filterMap_cons, addSynonym]
    cases hgroup : q.groupOf? id with
    | none => exact ih h hids seen
    | some g =>
      dsimp only
      by_cases hseen : g ∈ seen
      · rw [if_pos hseen, List.filter_cons_of_neg (by simpa using hseen)]
        exact ih h hids seen
      · obtain ⟨q₁, hadd, h₁⟩ := h.addAlternative_grafted (h.hasKind_groupOf? hgroup) ts
        have hle : q.entries.length ≤ q₁.entries.length := h₁.length_eq ▸ Nat.le_add_right _ _
        have hsame : matched.filterMap q₁.groupOf? = matched.filterMap q.groupOf? :=
          List.filterMap_congr fun i hi => h₁.groupOf?_eq (hids i hi)
        have hrest := ih h₁.wellFormed (fun i hi => Nat.lt_of_lt_of_le (hids i hi) hle) (g :: seen)
        -- the group counts as seen from now on
        have hfilter : (matched.filterMap q.groupOf?).filter (· ∉ g :: seen) =
            ((matched.filterMap q.groupOf?).filter (· ∉ seen)).filter fun i => !i == g := by
          rw [List.filter_filter]
          exact List.filter_congr fun i _ => by simp [not_or, Bool.beq_eq_decide_eq]
        rw [if_neg hseen, hadd, List.filter_cons_of_pos (by simpa using hseen),
          List.eraseDups_cons, List.foldlM_cons, hadd, ← hfilter, ← hsame]
        exact hrest

/-- Looking for each group in the changing query comes to the same as looking for all groups in the
query before, since the matched terms have numbers that the query has given out. -/
theorem WellFormed.addSynonyms_eq (h : q.WellFormed) {matched : List Nat}
    (hids : ∀ id ∈ matched, id < q.entries.length) (ts : List Term) :
    q.addSynonyms matched ts = (matched.filterMap q.groupOf?).eraseDups.foldlM
      (fun q g => q.addAlternative g ts) q := by
  rw [addSynonyms, h.foldlM_addSynonym hids ts [], List.filter_eq_self.2 (by simp)]

/-- Synonyms are added to the groups of the matched terms that are still there. -/
theorem WellFormed.addSynonyms_enriched (h : q.WellFormed) {matched : List Nat}
    (hids : ∀ id ∈ matched, id < q.entries.length) (ts : List Term) :
    Succeeds (q.addSynonyms matched ts) fun q' => q.Enriched q' (q.groupsOf matched) ts := by
  rw [h.addSynonyms_eq hids, eraseDups_groupOf?]
  have hkinds : ∀ g ∈ q.groupsOf matched, q.HasKind g .group := by
    intro g hg
    rw [← eraseDups_groupOf?, List.mem_eraseDups] at hg
    obtain ⟨id, -, hid⟩ := List.mem_filterMap.1 hg
    exact h.hasKind_groupOf? hid
  have hnodup : (q.groupsOf matched).Nodup := nodup_eraseDups _
  generalize q.groupsOf matched = groups at hkinds hnodup
  induction groups using List.reverseRecOn with
  | nil => exact ⟨q, rfl, .refl h ts⟩
  | append_singleton groups g ih =>
    obtain ⟨hold, hg⟩ := List.forall_mem_append.1 hkinds
    obtain ⟨hnodup, -, hdisjoint⟩ := List.nodup_append.1 hnodup
    have hnew : g ∉ groups := fun hm => hdisjoint g hm g (List.mem_singleton_self g) rfl
    have hgroup := hg g (List.mem_singleton_self g)
    rw [List.foldlM_append]
    refine (ih hold hnodup).bind fun q₁ h₁ => ?_
    obtain ⟨q₂, hadd, h₂⟩ :=
      h₁.wellFormed.addAlternative_grafted (h₁.hasKind hnew hgroup) ts
    exact ⟨q₂, by rw [List.foldlM_cons, hadd]; rfl, h₁.concat hnew hgroup h₂⟩

end Query

end QueryRules
